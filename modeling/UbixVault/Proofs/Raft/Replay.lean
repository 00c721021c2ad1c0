/-
The state of a node is a fold over a prefix of the log.

Redelivery is harmless, because the recorded index tells what is in the database
already.  A restored snapshot loses that index, so it is harmless as long as its
content is the one its label promises.
-/
import UbixVault.Proofs.Raft.Fsm

namespace UbixVault.Raft

variable {ι : Type} [DecidableEq ι] {J : Json} {log : List Bytes}

variable {cs : List Command}

/-! ### Prefixes of a growing log -/

/-- The commands that can be decoded. -/
def commands (J : Json) (log : List Bytes) : List Command :=
  log.filterMap fun data => (decodeCommand J.command data).toOption

theorem stateAt_eq (n : Nat) : stateAt J log n = applyAll (commands J (log.take n)) ∅ := by
  unfold stateAt
  generalize log.take n = l
  generalize (∅ : Store) = kv
  induction l generalizing kv with
  | nil => rfl
  | cons data l ih =>
    rw [List.foldl_cons, ih]
    unfold commands
    cases hdata : decodeCommand J.command data with
    | error e => rw [List.filterMap_cons_none (by simp [hdata, Except.toOption])]
    | ok c =>
      rw [List.filterMap_cons_some (b := c) (by simp [hdata, Except.toOption])]
      rfl

theorem stateAt_append {n : Nat} (hn : n ≤ log.length) (l : List Bytes) :
    stateAt J (log ++ l) n = stateAt J log n := by
  rw [stateAt, List.take_append_of_le_length hn]
  rfl

theorem stateAt_succ {n : Nat} {data : Bytes} {c : Command} (hentry : log[n]? = some data)
    (hdata : decodeCommand J.command data = .ok c) :
    stateAt J log (n + 1) = (c.apply (stateAt J log n)).1 := by
  rw [stateAt, List.take_add_one, hentry, Option.toList_some, List.foldl_append]
  simp [hdata, stateAt]

theorem Decodable.mono {k l : Nat} (h : Decodable J log l) (hkl : k ≤ l) : Decodable J log k :=
  ⟨hkl.trans h.1, fun data hdata => h.2 data (List.take_subset_take_left _ hkl hdata)⟩

theorem decodable_append {k : Nat} (hk : k ≤ log.length) (l : List Bytes) :
    Decodable J (log ++ l) k ↔ Decodable J log k := by
  unfold Decodable
  rw [List.take_append_of_le_length hk, List.length_append]
  simp only [hk, Nat.le_add_right_of_le hk, true_and]

theorem Decodable.succ {n : Nat} {data : Bytes} {c : Command} (h : Decodable J log n)
    (hentry : log[n]? = some data) (hdata : decodeCommand J.command data = .ok c) :
    Decodable J log (n + 1) := by
  refine ⟨(List.getElem?_eq_some_iff.mp hentry).1, fun d hd => ?_⟩
  rw [List.take_add_one, hentry, Option.toList_some, List.mem_append, List.mem_singleton] at hd
  rcases hd with hd | rfl
  · exact h.2 d hd
  · exact ⟨c, hdata⟩

theorem decodable_zero : Decodable J log 0 := ⟨Nat.zero_le _, by simp⟩

theorem checkKey_of_mem_applyAll {kv : Store} {key : Key}
    (hcs : ∀ c ∈ cs, checkKey c.key = true) (hkv : ∀ k ∈ kv, checkKey k = true)
    (hkey : key ∈ applyAll cs kv) : checkKey key = true := by
  induction cs generalizing kv with
  | nil => exact hkv key hkey
  | cons c cs ih =>
    refine ih (fun c' hc' => hcs c' (List.mem_cons_of_mem _ hc')) (fun k hk => ?_) hkey
    rcases mem_of_mem_apply hk with rfl | hk
    · exact hcs c List.mem_cons_self
    · exact hkv k hk

theorem mem_commands {cmd : Command} :
    cmd ∈ commands J log ↔ ∃ data ∈ log, decodeCommand J.command data = .ok cmd := by
  simp only [commands, List.mem_filterMap]
  refine exists_congr fun data => and_congr_right fun _ => ?_
  cases decodeCommand J.command data <;> simp [Except.toOption]

/-- Every key of a fold was the key of a command. -/
theorem checkKey_of_mem_stateAt
    (hkeys : ∀ data ∈ log, ∀ cmd, decodeCommand J.command data = .ok cmd → checkKey cmd.key = true)
    {n : Nat} {key : Key} (hkey : key ∈ stateAt J log n) : checkKey key = true := by
  rw [stateAt_eq] at hkey
  refine checkKey_of_mem_applyAll (fun c hc => ?_) (fun k hk => absurd hk Finmap.notMem_empty) hkey
  obtain ⟨data, hdata, hc⟩ := mem_commands.mp hc
  exact hkeys data (List.mem_of_mem_take hdata) c hc

/-! ### What a delivery does -/

/-- The four ways an entry is taken. -/
inductive Taken (J : Json) (f : Fsm) (index : Nat) (data : Bytes) : Except Err Unit → Fsm → Prop
  | refused (hfailed : f.failed = true) : Taken J f index data (.error errFailed) f
  | failing (e : Err) (hfailed : f.failed = false) (hdata : decodeCommand J.command data = .error e) :
      Taken J f index data (.error (.explain errFailed e.message)) { f with failed := true }
  | skipped (c : Command) (hfailed : f.failed = false) (hdata : decodeCommand J.command data = .ok c)
      (n : Nat) (hlast : f.lastApplied = some n) (hn : index ≤ n) : Taken J f index data (.ok ()) f
  | applied (c : Command) (hfailed : f.failed = false) (hdata : decodeCommand J.command data = .ok c)
      (hlast : ∀ n, f.lastApplied = some n → n < index) :
      Taken J f index data (response (c.apply f.kv).2)
        { f with kv := (c.apply f.kv).1, lastApplied := some index }

theorem taken (J : Json) (f : Fsm) (index : Nat) (data : Bytes) :
    Taken J f index data (f.apply J.command index data).1 (f.apply J.command index data).2 := by
  unfold Fsm.apply
  by_cases hfailed : f.failed = true
  · rw [if_pos hfailed]
    exact .refused hfailed
  rw [if_neg hfailed]
  rw [Bool.not_eq_true] at hfailed
  cases hdata : decodeCommand J.command data with
  | error e => exact .failing e hfailed hdata
  | ok c =>
    dsimp only
    unfold Fsm.reflects
    cases hlast : f.lastApplied with
    | none => exact .applied c hfailed hdata fun n hn => by rw [hlast] at hn; cases hn
    | some n =>
      dsimp only
      by_cases hle : index ≤ n
      · rw [if_pos (by simpa using hle)]
        exact .skipped c hfailed hdata n hlast hle
      · rw [if_neg (by simpa using hle)]
        refine .applied c hfailed hdata fun m hm => ?_
        rw [hlast] at hm
        cases hm
        exact not_le.mp hle

theorem lastApplied_of_restore {json : EntryJson} {f f' : Fsm} {data : Bytes}
    (h : f.restore json data = (.ok (), f')) : f'.lastApplied = none := by
  unfold Fsm.restore at h
  split at h
  · cases h
    rfl
  · cases h

/-! ### The invariant -/

/-- A node that never went past an entry it cannot decode. -/
structure Node.Clean (J : Json) (log : List Bytes) (n : Node) : Prop where
  decodable : Decodable J log n.applied
  fold : n.fsm.kv = stateAt J log n.applied
  base_le : n.base ≤ n.applied
  next_le : n.fsm.failed = false → n.next ≤ n.applied + 1

structure Node.Ok (J : Json) (log : List Bytes) (n : Node) : Prop where
  base_lt : n.base < n.next
  next_le : n.next ≤ log.length + 1
  applied_le : n.applied ≤ log.length
  clean : Decodable J log n.base → n.Clean J log

/-- The invariant of the cluster. -/
structure Replays (J : Json) (c : Cluster ι) : Prop where
  keys : ∀ data ∈ c.log, ∀ cmd, decodeCommand J.command data = .ok cmd → checkKey cmd.key = true
  node : ∀ i, (c.node i).Ok J c.log
  label_le : ∀ p ∈ c.pool, p.1 ≤ c.log.length
  content : ∀ p ∈ c.pool, Decodable J c.log p.1 → ∀ f f' : Fsm,
    f.restore J.entry p.2 = (.ok (), f') →
      f' = { f with kv := stateAt J c.log p.1, lastApplied := none }

/-- The condition: a snapshot is taken when everything in the database was delivered. -/
def CaughtUp (c : Cluster ι) : Event ι → Prop
  | .snapshot i => (c.node i).next = (c.node i).applied + 1
  | _ => True

omit [DecidableEq ι] in
theorem Replays.init : Replays J (Cluster.init ι) where
  keys := by simp [Cluster.init]
  node _ := ⟨Nat.one_pos, Nat.le_refl _, Nat.zero_le _,
    fun _ => ⟨decodable_zero, rfl, Nat.zero_le _, fun _ => Nat.le_refl _⟩⟩
  label_le := by simp [Cluster.init]
  content := by simp [Cluster.init]

/-- Replacing a node keeps the invariant if the new node is as it should be. -/
theorem Replays.set {c : Cluster ι} (h : Replays J c) (i : ι) {n : Node} (hn : n.Ok J c.log) :
    Replays J (c.set i n) where
  keys := h.keys
  node j := by
    unfold Cluster.set
    dsimp only
    by_cases hj : j = i
    · subst hj
      rwa [Function.update_self]
    · rw [Function.update_of_ne hj]
      exact h.node j
  label_le := h.label_le
  content := h.content

theorem Node.Ok.append {n : Node} (h : n.Ok J log) (data : Bytes) : n.Ok J (log ++ [data]) := by
  have hbase : n.base ≤ log.length := Nat.le_of_lt_succ (lt_of_lt_of_le h.base_lt h.next_le)
  have hlength : log.length ≤ (log ++ [data]).length := by simp
  refine ⟨h.base_lt, h.next_le.trans (by omega), h.applied_le.trans hlength, fun hdec => ?_⟩
  obtain ⟨hdec, hfold, hle, hnext⟩ := h.clean ((decodable_append hbase _).mp hdec)
  exact ⟨(decodable_append h.applied_le _).mpr hdec, by rw [hfold, stateAt_append h.applied_le], hle, hnext⟩

/-- **Delivery**: what was applied is skipped, and what comes next is applied. -/
theorem Node.Ok.delivered {n : Node} (h : n.Ok J log) {data : Bytes}
    (hentry : log[n.next - 1]? = some data) : (n.delivered J data).Ok J log := by
  have hlt : n.next - 1 < log.length := (List.getElem?_eq_some_iff.mp hentry).1
  have hpos := h.base_lt
  have htaken := taken J n.fsm n.next data
  unfold Node.delivered
  generalize (n.fsm.apply J.command n.next data).1 = r at htaken
  generalize hf : (n.fsm.apply J.command n.next data).2 = f at htaken
  cases htaken with
  | refused hfailed =>
    refine ⟨Nat.lt_succ_of_lt h.base_lt, by dsimp only; omega, h.applied_le, fun hdec => ?_⟩
    obtain ⟨hdec, hfold, hle, -⟩ := h.clean hdec
    exact ⟨hdec, hfold, hle, fun hnot => absurd (hfailed.symm.trans hnot) (by simp)⟩
  | failing e hfailed hdata =>
    refine ⟨Nat.lt_succ_of_lt h.base_lt, by dsimp only; omega, h.applied_le, fun hdec => ?_⟩
    obtain ⟨hdec, hfold, hle, -⟩ := h.clean hdec
    exact ⟨hdec, hfold, hle, by simp⟩
  | skipped c hfailed hdata m hlast hm =>
    refine ⟨Nat.lt_succ_of_lt h.base_lt, by dsimp only; omega, h.applied_le, fun hdec => ?_⟩
    obtain ⟨hdec, hfold, hle, -⟩ := h.clean hdec
    refine ⟨hdec, hfold, hle, fun _ => ?_⟩
    have happlied : n.applied = m := by rw [Node.applied, hlast, Option.getD_some]
    change n.next + 1 ≤ n.applied + 1
    omega
  | applied c hfailed hdata hlast =>
    refine ⟨Nat.lt_succ_of_lt h.base_lt, by dsimp only; omega, ?_, fun hdec => ?_⟩
    · change n.next ≤ log.length
      omega
    obtain ⟨hdec, hfold, hle, hnext⟩ := h.clean hdec
    -- The entry is the first that is not in the database.
    have hnext : n.next = n.applied + 1 := by
      refine Nat.le_antisymm (hnext hfailed) (Nat.succ_le_of_lt ?_)
      unfold Node.applied
      cases hn : n.fsm.lastApplied with
      | none => exact h.base_lt
      | some m => exact hlast m hn
    rw [hnext, Nat.add_sub_cancel] at hentry
    rw [hnext]
    refine ⟨hdec.succ hentry hdata, ?_, Nat.le_succ_of_le hle, fun _ => Nat.le_refl _⟩
    change (c.apply n.fsm.kv).1 = stateAt J log (n.applied + 1)
    rw [hfold, stateAt_succ hentry hdata]

/-- **Every step keeps the invariant.** -/
theorem Replays.step {c c' : Cluster ι} {e : Event ι} (h : Replays J c) (he : CaughtUp c e)
    (hstep : Step J c e c') : Replays J c' := by
  cases hstep with
  | commit data hkey =>
    refine ⟨?_, fun i => (h.node i).append data, ?_, ?_⟩
    · intro d hd
      rcases List.mem_append.mp hd with hd | hd
      · exact h.keys d hd
      · rw [List.mem_singleton] at hd
        subst hd
        exact hkey
    · intro p hp
      have := h.label_le p hp
      simp only [List.length_append, List.length_singleton]
      omega
    · intro p hp hdec
      have hle := h.label_le p hp
      rw [stateAt_append hle]
      exact h.content p hp ((decodable_append hle _).mp hdec)
  | deliver i data hentry =>
    obtain ⟨hkeys, hnode, hlabel, hcontent⟩ := h.set i ((h.node i).delivered hentry)
    exact ⟨hkeys, hnode, hlabel, hcontent⟩
  | restart i start habove hbelow =>
    have hi := h.node i
    refine h.set i ⟨habove, hbelow.trans (Nat.succ_le_succ hi.applied_le), hi.applied_le, fun hdec => ?_⟩
    obtain ⟨hdec, hfold, hle, -⟩ := hi.clean hdec
    exact ⟨hdec, hfold, hle, fun _ => hbelow⟩
  | snapshot i data hdata =>
    have hi := h.node i
    have hbase := hi.base_lt
    have hnext := hi.next_le
    refine ⟨h.keys, h.node, ?_, ?_⟩
    · intro p hp
      rcases List.mem_cons.mp hp with rfl | hp
      · dsimp only
        omega
      · exact h.label_le p hp
    · intro p hp hdec
      rcases List.mem_cons.mp hp with rfl | hp
      · obtain ⟨hdec', hfold, -⟩ := hi.clean (hdec.mono (by dsimp only; omega))
        have hfailed : (c.node i).fsm.failed = false := by
          by_contra hnot
          rw [Fsm.snapshot, if_pos (by simpa using hnot)] at hdata
          cases hdata
        obtain ⟨data', hdata', hrestore⟩ := snapshot_restores J.entry hfailed fun key hkey =>
          checkKey_of_mem_stateAt h.keys (by rwa [hfold] at hkey)
        rw [hdata] at hdata'
        cases hdata'
        intro f f' hf'
        rw [hrestore] at hf'
        cases hf'
        have hlabel : (c.node i).next - 1 = (c.node i).applied := by
          rw [show (c.node i).next = (c.node i).applied + 1 from he, Nat.add_sub_cancel]
        dsimp only
        rw [hlabel, hfold]
      · exact h.content p hp hdec
  | install i index data fsm hpool hrestore =>
    have hle := h.label_le _ hpool
    refine h.set i ⟨Nat.lt_succ_self _, Nat.succ_le_succ hle, ?_, fun hdec => ?_⟩
    · rw [Node.applied, lastApplied_of_restore hrestore]
      exact hle
    · have hfsm := h.content _ hpool hdec _ _ hrestore
      subst hfsm
      exact ⟨hdec, rfl, Nat.le_refl _, fun _ => Nat.le_refl _⟩
  | foreign index data bad hindex hbad hundecodable =>
    refine ⟨h.keys, h.node, ?_, ?_⟩
    · intro p hp
      rcases List.mem_cons.mp hp with rfl | hp
      · exact hindex
      · exact h.label_le p hp
    · intro p hp hdec
      rcases List.mem_cons.mp hp with rfl | hp
      · obtain ⟨cmd, hcmd⟩ := hdec.2 bad hbad
        exact absurd hcmd (hundecodable cmd)
      · exact h.content p hp hdec

/--
**Replay.**  If every snapshot is taken when all that is in the database was delivered,
then in every state reached the bucket of every node is the plain fold of the commands
over the prefix of the log that it reflects: nothing delivered is missing, and the
prefix holds no entry that cannot be decoded, unless a snapshot from behind such an
entry was installed.
-/
theorem replay_is_fold (J : Json) (c : Cluster ι)
    (hrun : Run.Reachable (Step J) CaughtUp (Cluster.init ι) c) (i : ι)
    (hbase : Decodable J c.log (c.node i).base) :
    (c.node i).fsm.kv = stateAt J c.log (c.node i).applied ∧
      Decodable J c.log (c.node i).applied ∧ (c.node i).base ≤ (c.node i).applied ∧
      ((c.node i).fsm.failed = false → (c.node i).next ≤ (c.node i).applied + 1) := by
  have hinv := hrun.invariant Replays.init fun _ _ _ h he hstep => Replays.step h he hstep
  obtain ⟨hdec, hfold, hle, hnext⟩ := (hinv.node i).clean hbase
  exact ⟨hfold, hdec, hle, hnext⟩

/-! ### A snapshot that is ahead of its label -/

def CommandRecord.wire : Wire CommandRecord :=
  (Wire.int.pair (Wire.bytes.pair (Wire.bytes.pair (Wire.bytes.pair Wire.int)))).via
    (fun c => (c.version, c.op, c.key, c.value, c.now))
    (fun p => ⟨p.1, p.2.1, p.2.2.1, p.2.2.2.1, p.2.2.2.2⟩) fun _ => rfl

def Json.transparent : Json := ⟨CommandRecord.wire.codec, .transparent⟩

/-- What an event leads to, if it is possible. -/
def Cluster.next (J : Json) (c : Cluster ι) : ∀ e : Event ι, Option {c' // Step J c e c'}
  | .commit data =>
    match hdata : decodeCommand J.command data with
    | .error _ => some ⟨_, .commit c data fun _ h => nomatch hdata.symm.trans h⟩
    | .ok cmd =>
      if hkey : checkKey cmd.key = true then
        some ⟨_, .commit c data fun _ h => Except.ok.inj (hdata.symm.trans h) ▸ hkey⟩
      else none
  | .deliver i =>
    match hentry : c.log[(c.node i).next - 1]? with
    | some data => some ⟨_, .deliver c i data hentry⟩
    | none => none
  | .restart i start =>
    if h : (c.node i).base < start ∧ start ≤ (c.node i).applied + 1 then
      some ⟨_, .restart c i start h.1 h.2⟩
    else none
  | .snapshot i =>
    match hdata : (c.node i).fsm.snapshot J.entry with
    | .ok data => some ⟨_, .snapshot c i data hdata⟩
    | .error _ => none
  | .install i index data =>
    if hpool : (index, data) ∈ c.pool then
      match hrestore : (c.node i).fsm.restore J.entry data with
      | (.ok (), fsm) => some ⟨_, .install c i index data fsm hpool hrestore⟩
      | (.error _, _) => none
    else none
  | .foreign _ _ => none

instance decidableCaughtUp (c : Cluster ι) : DecidablePred (CaughtUp c)
  | .snapshot i => inferInstanceAs (Decidable ((c.node i).next = (c.node i).applied + 1))
  | .commit _ | .deliver _ | .restart _ _ | .install _ _ _ | .foreign _ _ => .isTrue trivial

instance decidableDecodable (k : Nat) : Decidable (Decodable J log k) :=
  decidable_of_iff (k ≤ log.length ∧
      ∀ data ∈ log.take k, (decodeCommand J.command data).toOption.isSome = true) <| by
    unfold Decodable
    refine and_congr_right fun _ => forall₂_congr fun data _ => ?_
    cases decodeCommand J.command data <;> simp [Except.toOption]

/-- Four writes, of which the second and the third are to the same key. -/
def fourWrites : List Command :=
  [⟨.put, str "c", [1], 0⟩, ⟨.put, str "a", [1], 0⟩, ⟨.put, str "a", [2], 0⟩, ⟨.put, str "b", [1], 0⟩]

def fourEntries : List Bytes := fourWrites.map (encode Json.transparent.command)

/-- The snapshot of a node that has applied them. -/
def fourSnapshot : Bytes :=
  (Fsm.snapshot EntryJson.transparent ⟨applyAll fourWrites ∅, some 4, false⟩).toOption.getD []

/-- The entries are committed and delivered. -/
def fourDelivered (i : ι) : List (Event ι) := fourEntries.map .commit ++ List.replicate 4 (.deliver i)

/-- Who sees the fourth write sees the third. -/
theorem fourWrites_take : ∀ n, (stateAt .transparent fourEntries n).lookup (str "b") = some [1] →
    (stateAt .transparent fourEntries n).lookup (str "a") = some [2]
  | 0 | 1 | 2 | 3 => by decide +kernel
  | n + 4 => by
      rw [stateAt, List.take_of_length_le (by simp [fourEntries, fourWrites])]
      decide +kernel

/-- The database was ahead when the snapshot was taken, and a write is repeated after it. -/
theorem replay_repeats_write :
    ∃ (J : Json) (c : Cluster Unit),
      Run.Reachable (Step J) (fun _ _ => True) (Cluster.init Unit) c ∧
      Decodable J c.log (c.node ()).base ∧ ∀ n, (c.node ()).fsm.kv ≠ stateAt J c.log n := by
  -- The first entry is delivered again and skipped, and the snapshot is labelled with its index.
  have hrun : (Run.path (Cluster.next .transparent) (fun _ _ => True) (.init Unit)
      (fourDelivered () ++ [.restart () 1, .deliver (), .snapshot (), .install () 1 fourSnapshot,
        .deliver ()])).map (fun c => (c.log, (c.node ()).base,
          (c.node ()).fsm.kv.lookup (str "a"), (c.node ()).fsm.kv.lookup (str "b")))
      = some (fourEntries, 1, some [1], some [1]) := by decide +kernel
  obtain ⟨c, hreach, hc⟩ := Run.Reachable.exists_of_path hrun
  simp only [Prod.mk.injEq] at hc
  obtain ⟨hlog, hbase, ha, hb⟩ := hc
  refine ⟨.transparent, c, hreach, ?_, fun n heq => ?_⟩
  · rw [hlog, hbase]
    decide +kernel
  · rw [heq, hlog] at ha hb
    rw [fourWrites_take n hb] at ha
    exact absurd ha (by decide)

/-- One node gets all entries, and its snapshot is installed on the other. -/
theorem replay_is_fold_four_writes :
    ∃ c : Cluster Bool, Run.Reachable (Step .transparent) CaughtUp (Cluster.init Bool) c ∧
      (c.node true).base = 4 ∧ (c.node true).applied = 4 ∧
      (c.node true).fsm.kv = stateAt .transparent c.log 4 := by
  have hrun : (Run.path (Cluster.next .transparent) CaughtUp (.init Bool)
      (fourDelivered false ++ [.deliver true, .snapshot false, .install true 4 fourSnapshot])).map
        (fun c => (c.log, (c.node true).base, (c.node true).applied)) = some (fourEntries, 4, 4) := by
    decide +kernel
  obtain ⟨c, hreach, hc⟩ := Run.Reachable.exists_of_path hrun
  simp only [Prod.mk.injEq] at hc
  obtain ⟨hlog, hbase, happlied⟩ := hc
  obtain ⟨hfold, -⟩ := replay_is_fold .transparent c hreach true (by rw [hlog, hbase]; decide +kernel)
  exact ⟨c, hreach, hbase, happlied, by rw [hfold, happlied]⟩

end UbixVault.Raft
