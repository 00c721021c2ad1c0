/-
What a command does to one key.

On a given key every command is a constant, or the identity, or one of two kinds of
soft change, spending a record and forgetting one, which commute and are idempotent.
That is what makes a replay over a state that is already ahead come out right.
-/
import UbixVault.Proofs.Snapshot
import UbixVault.Raft.Replay

namespace UbixVault.Raft

open Program

variable {state : Byte} {expiry : Time} {key : Key}

/-! ### Commands on the wire -/

@[simp] theorem Op.ofText_text (op : Op) : Op.ofText op.text = some op := by
  cases op <;> decide_cbv

theorem decodeCommand_encode (json : CommandJson) {c : Command} (hkey : validUTF8 c.key = true) :
    decodeCommand json (encode json c) = .ok c := by
  unfold decodeCommand encode
  rw [json.unmarshal_marshal _ hkey]
  simp

/-! ### Token records -/

/-- The next digit makes the leading ones of a number longer. -/
theorem digit_div (m i : Nat) :
    ((m / 256 ^ (i + 1) : Nat) : Int) * 256 + ((m / 256 ^ i % 256 : Nat) : Int) = (m / 256 ^ i : Nat) := by
  rw [pow_succ, ← Nat.div_div_eq_div_mul]
  omega

theorem getInt64_putInt64 (n : Int) : getInt64 (putInt64 n) = int64 n := by
  have hrange : (n % 2 ^ 64).toNat / 256 ^ 8 = 0 := by omega
  have hvalue : ((putInt64 n).foldl (fun acc b => acc * 256 + (b.toNat : Int)) 0) = n % 2 ^ 64 := by
    rw [← Int.toNat_of_nonneg (Int.emod_nonneg n (by decide : (2 ^ 64 : Int) ≠ 0))]
    unfold putInt64
    generalize (n % 2 ^ 64).toNat = m at hrange ⊢
    have h7 := digit_div m 7
    rw [hrange, Nat.cast_zero] at h7
    simp only [List.map_cons, List.map_nil, List.foldl_cons, List.foldl_nil, BitVec.toNat_ofNat]
    rw [h7, digit_div m 6, digit_div m 5, digit_div m 4, digit_div m 3, digit_div m 2,
      digit_div m 1, digit_div m 0, pow_zero, Nat.div_one]
  rw [getInt64, hvalue, int64, int64]
  exact Int.emod_bmod n (2 ^ 64)

@[simp] theorem length_putInt64 (n : Int) : (putInt64 n).length = 8 := by simp [putInt64]

@[simp] theorem int64_int64 (n : Int) : int64 (int64 n) = int64 n := Int.bmod_bmod

theorem int64_getInt64 (bs : Bytes) : int64 (getInt64 bs) = getInt64 bs := int64_int64 _

@[simp] theorem decodeTokenRecord_encodeTokenRecord (state : Byte) (expiry : Time) :
    decodeTokenRecord (encodeTokenRecord state expiry) = some (state, int64 expiry) := by
  simp [decodeTokenRecord, encodeTokenRecord, getInt64_putInt64]

/-- The expiry of a record is an `int64`. -/
theorem int64_of_decodeTokenRecord {value : Bytes}
    (h : decodeTokenRecord value = some (state, expiry)) : int64 expiry = expiry := by
  unfold decodeTokenRecord at h
  split at h
  · split_ifs at h
    cases h
    exact int64_getInt64 _
  · cases h

/-! ### The effect on one key -/

/-- What a burn makes of the value at its key. -/
def spend (now : Time) (value : Option Bytes) : Option Bytes :=
  match value.bind decodeTokenRecord with
  | none => value
  | some (state, expiry) =>
    if state = tokenSpent then value
    else if now > expiry then value
    else some (encodeTokenRecord tokenSpent expiry)

/-- What pruning makes of the value at a key. -/
def forget (now : Time) (value : Option Bytes) : Option Bytes :=
  if longExpired now value then none else value

/-- What a command makes of the value at a key. -/
def Command.act (c : Command) (key : Key) (value : Option Bytes) : Option Bytes :=
  match c.op with
  | .put => if key = c.key then some c.value else value
  | .delete => if key = c.key then none else value
  | .tokenMint =>
    if key = c.key then some c.value else if tokenPrefix <+: key then forget c.now value else value
  | .tokenBurn => if key = c.key then spend c.now value else value

/-- The cursor stops at the first key without the prefix, and there is none with it behind. -/
theorem mem_takeWhile_prefix {pfx key : Key} {ks : List Key} (hks : ks.Pairwise (· ≤ ·))
    (hle : ∀ k ∈ ks, pfx ≤ k) : key ∈ ks.takeWhile (pfx <+: ·) ↔ key ∈ ks ∧ pfx <+: key := by
  induction ks with
  | nil => simp
  | cons a ks ih =>
    obtain ⟨ha, hks⟩ := List.pairwise_cons.mp hks
    have htail := ih hks fun k hk => hle k (List.mem_cons_of_mem _ hk)
    by_cases hpfx : pfx <+: a
    · simp only [List.takeWhile_cons, hpfx, decide_true, if_true, List.mem_cons, htail]
      grind
    · simp only [List.takeWhile_cons, hpfx, decide_false, Bool.false_eq_true, if_false,
        List.not_mem_nil, false_iff, not_and]
      intro hkey hpfx'
      refine hpfx ?_
      rcases List.mem_cons.mp hkey with rfl | hkey
      · exact hpfx'
      · exact prefix_of_le_of_le (hle a List.mem_cons_self) (ha key hkey) hpfx'

theorem mem_staleKeys {kv : Store} {now : Time} :
    key ∈ staleKeys kv now ↔ tokenPrefix <+: key ∧ longExpired now (kv.lookup key) = true := by
  have hkeys := sorted_keys kv
  rw [staleKeys, List.mem_filter, mem_takeWhile_prefix (hkeys.sublist (List.dropWhile_sublist _))
    fun k hk => ((mem_seek hkeys).mp hk).2, mem_seek hkeys, Finset.mem_inOrder, Finmap.mem_keys]
  constructor
  · rintro ⟨⟨-, hpfx⟩, hexpired⟩
    exact ⟨hpfx, hexpired⟩
  · rintro ⟨hpfx, hexpired⟩
    refine ⟨⟨⟨?_, le_of_prefix hpfx⟩, hpfx⟩, hexpired⟩
    by_contra hnot
    rw [Finmap.lookup_eq_none.mpr hnot] at hexpired
    cases hexpired

theorem lookup_foldl_erase (keys : List Key) (kv : Store) (key : Key) :
    (keys.foldl (fun kv k => kv.erase k) kv).lookup key
      = if key ∈ keys then none else kv.lookup key := by
  induction keys generalizing kv with
  | nil => simp
  | cons k keys ih =>
    rw [List.foldl_cons, ih]
    by_cases hmem : key ∈ keys
    · simp [hmem]
    by_cases heq : key = k
    · subst heq
      simp [Finmap.lookup_erase]
    · simp [hmem, heq, Finmap.lookup_erase_ne heq]

theorem lookup_prune (kv : Store) (now : Time) (key : Key) :
    (prune kv now).lookup key
      = if tokenPrefix <+: key then forget now (kv.lookup key) else kv.lookup key := by
  rw [prune, lookup_foldl_erase]
  simp only [mem_staleKeys, forget]
  split_ifs <;> grind

theorem lookup_insert_eq (kv : Store) (k key : Key) (value : Bytes) :
    (kv.insert k value).lookup key = if key = k then some value else kv.lookup key := by
  by_cases h : key = k
  · subst h
    simp
  · rw [if_neg h, Finmap.lookup_insert_of_ne _ h]

/-- **A command acts on each key by itself.** -/
theorem lookup_apply (c : Command) (kv : Store) (key : Key) :
    (c.apply kv).1.lookup key = c.act key (kv.lookup key) := by
  unfold Command.apply Command.act
  cases c.op with
  | put => exact lookup_insert_eq _ _ _ _
  | delete =>
    dsimp only
    by_cases h : key = c.key
    · subst h
      simp
    · rw [if_neg h, Finmap.lookup_erase_ne h]
  | tokenMint =>
    dsimp only
    rw [lookup_insert_eq, lookup_prune]
  | tokenBurn =>
    dsimp only
    unfold spend
    by_cases h : key = c.key
    · subst h
      cases hrec : (kv.lookup c.key).bind decodeTokenRecord with
      | none => simp
      | some r =>
        obtain ⟨state, expiry⟩ := r
        dsimp only
        rw [if_pos rfl]
        split_ifs <;> simp
    · rw [if_neg h]
      cases (kv.lookup c.key).bind decodeTokenRecord with
      | none => rfl
      | some r =>
        obtain ⟨state, expiry⟩ := r
        dsimp only
        split_ifs <;> simp [Finmap.lookup_insert_of_ne _ h]

/-! ### Replaying over a state that is ahead -/

/-- A change that depends on the value: none, spending or forgetting. -/
inductive Soft : (Option Bytes → Option Bytes) → Prop
  | id : Soft id
  | spend (now : Time) : Soft (spend now)
  | forget (now : Time) : Soft (forget now)

theorem spend_of_decode {now : Time} {value : Option Bytes}
    (h : value.bind decodeTokenRecord = some (state, expiry)) :
    spend now value
      = if state ≠ tokenSpent ∧ now ≤ expiry then some (encodeTokenRecord tokenSpent expiry)
        else value := by
  unfold spend
  rw [h]
  grind

theorem longExpired_of_decode {now : Time} {value : Option Bytes}
    (h : value.bind decodeTokenRecord = some (state, expiry)) :
    longExpired now value = decide (expiry < int64 (now - pruneAfter)) := by
  unfold longExpired
  rw [h]

theorem bind_decode_spent {value : Option Bytes}
    (h : value.bind decodeTokenRecord = some (state, expiry)) :
    (some (encodeTokenRecord tokenSpent expiry)).bind decodeTokenRecord
      = some (tokenSpent, expiry) := by
  obtain ⟨bytes, rfl, hbytes⟩ := Option.bind_eq_some_iff.mp h
  rw [Option.bind_some, decodeTokenRecord_encodeTokenRecord, int64_of_decodeTokenRecord hbytes]

@[simp] theorem spend_none (now : Time) : spend now none = none := rfl

@[simp] theorem forget_none (now : Time) : forget now none = none := rfl

/-- On what is no record, soft changes are none. -/
theorem Soft.of_undecodable {f : Option Bytes → Option Bytes} (hf : Soft f) {value : Option Bytes}
    (h : value.bind decodeTokenRecord = none) : f value = value := by
  cases hf with
  | id => rfl
  | spend now => simp [Raft.spend, h]
  | forget now => simp [Raft.forget, longExpired, h]

/-- What a soft change can do to a record: keep it, spend it or forget it, by its expiry alone. -/
theorem Soft.cases_of_decode {f : Option Bytes → Option Bytes} (hf : Soft f) {value : Option Bytes}
    (h : value.bind decodeTokenRecord = some (state, expiry)) :
    ∃ spends forgets : Bool, ∀ v, (v = value ∨ v = some (encodeTokenRecord tokenSpent expiry)) →
      f v = if forgets then none
        else if spends ∧ state ≠ tokenSpent then some (encodeTokenRecord tokenSpent expiry) else v := by
  have hspent := bind_decode_spent h
  cases hf with
  | id => exact ⟨false, false, fun v _ => by simp⟩
  | spend now =>
    refine ⟨now ≤ expiry, false, ?_⟩
    rintro v (rfl | rfl)
    · rw [spend_of_decode h]
      simp [and_comm]
    · rw [spend_of_decode hspent]
      simp
  | forget now =>
    refine ⟨false, expiry < int64 (now - pruneAfter), ?_⟩
    rintro v (rfl | rfl)
    · simp [Raft.forget, longExpired_of_decode h]
    · simp [Raft.forget, longExpired_of_decode hspent]

theorem Soft.none {f : Option Bytes → Option Bytes} (hf : Soft f) : f none = none :=
  hf.of_undecodable rfl

/-- **Soft changes commute.** -/
theorem Soft.comm {f g : Option Bytes → Option Bytes} (hf : Soft f) (hg : Soft g)
    (value : Option Bytes) : f (g value) = g (f value) := by
  cases hrec : value.bind decodeTokenRecord with
  | none => rw [hg.of_undecodable hrec, hf.of_undecodable hrec, hg.of_undecodable hrec]
  | some r =>
    obtain ⟨spends, forgets, hfv⟩ := hf.cases_of_decode hrec
    obtain ⟨spends', forgets', hgv⟩ := hg.cases_of_decode hrec
    have := hf.none
    have := hg.none
    grind

/-- **Soft changes are idempotent.** -/
theorem Soft.idem {f : Option Bytes → Option Bytes} (hf : Soft f) (value : Option Bytes) :
    f (f value) = f value := by
  cases hrec : value.bind decodeTokenRecord with
  | none => rw [hf.of_undecodable hrec, hf.of_undecodable hrec]
  | some r =>
    obtain ⟨spends, forgets, hfv⟩ := hf.cases_of_decode hrec
    have := hf.none
    grind

/-- On each key a command is constant or soft. -/
theorem Command.act_cases (c : Command) (key : Key) :
    (∃ v, ∀ value, c.act key value = v) ∨ Soft (c.act key) := by
  have hid : ∀ {f : Option Bytes → Option Bytes}, (∀ value, f value = value) → Soft f := by
    intro f hf
    rw [show f = id from funext hf]
    exact .id
  by_cases heq : key = c.key
  · cases hop : c.op with
    | put => exact .inl ⟨some c.value, fun value => by simp [Command.act, hop, heq]⟩
    | delete => exact .inl ⟨none, fun value => by simp [Command.act, hop, heq]⟩
    | tokenMint => exact .inl ⟨some c.value, fun value => by simp [Command.act, hop, heq]⟩
    | tokenBurn =>
      refine .inr ?_
      rw [show c.act key = spend c.now from funext fun value => by simp [Command.act, hop, heq]]
      exact .spend _
  · refine .inr ?_
    by_cases hmint : c.op = .tokenMint ∧ tokenPrefix <+: key
    · rw [show c.act key = forget c.now from funext fun value => by simp [Command.act, hmint, heq]]
      exact .forget _
    · refine hid fun value => ?_
      cases hop : c.op <;> simp_all [Command.act]

/-- A run of commands on one key. -/
def actAll (cs : List Command) (key : Key) (value : Option Bytes) : Option Bytes :=
  cs.foldl (fun v c => c.act key v) value

theorem actAll_append (cs cs' : List Command) (key : Key) (value : Option Bytes) :
    actAll (cs ++ cs') key value = actAll cs' key (actAll cs key value) := List.foldl_append

theorem actAll_cons (c : Command) (cs : List Command) (key : Key) (value : Option Bytes) :
    actAll (c :: cs) key value = actAll cs key (c.act key value) := rfl

/-- A soft change before a run without constants may as well come after it. -/
theorem actAll_soft {f : Option Bytes → Option Bytes} (hf : Soft f) {cs : List Command}
    (hcs : ∀ c ∈ cs, Soft (c.act key)) (value : Option Bytes) :
    actAll cs key (f value) = f (actAll cs key value) := by
  induction cs generalizing value with
  | nil => rfl
  | cons c cs ih =>
    rw [actAll_cons, actAll_cons, (hcs c List.mem_cons_self).comm hf,
      ih fun c' hc' => hcs c' (List.mem_cons_of_mem _ hc')]

/-- A run that holds a command makes up for one that was performed before it. -/
theorem actAll_act {cs : List Command} {c : Command} (hc : c ∈ cs) (value : Option Bytes) :
    actAll cs key (c.act key value) = actAll cs key value := by
  by_cases hconst : ∃ d ∈ cs, ∃ v, ∀ value, d.act key value = v
  · -- What comes before a constant does not matter.
    obtain ⟨d, hd, v, hv⟩ := hconst
    obtain ⟨before, after, rfl⟩ := List.append_of_mem hd
    simp only [actAll_append, actAll_cons, hv]
  · have hsoft : ∀ d ∈ cs, Soft (d.act key) := fun d hd =>
      (d.act_cases key).resolve_left fun h => hconst ⟨d, hd, h⟩
    obtain ⟨before, after, rfl⟩ := List.append_of_mem hc
    rw [actAll_append, actAll_cons, actAll_append, actAll_cons,
      actAll_soft (hsoft c hc) fun d hd => hsoft d (List.mem_append_left _ hd), (hsoft c hc).idem]

/-- **A run makes up for its own beginning.** -/
theorem actAll_actAll {cs before : List Command} (h : ∀ c ∈ before, c ∈ cs)
    (value : Option Bytes) : actAll cs key (actAll before key value) = actAll cs key value := by
  induction before generalizing value with
  | nil => rfl
  | cons c before ih =>
    rw [actAll_cons, ih fun c' hc' => h c' (List.mem_cons_of_mem _ hc'),
      actAll_act (h c List.mem_cons_self)]

/-! ### Folds -/

/-- The bucket after a run of commands. -/
def applyAll (cs : List Command) (kv : Store) : Store := cs.foldl (fun kv c => (c.apply kv).1) kv

theorem applyAll_append (cs cs' : List Command) (kv : Store) :
    applyAll (cs ++ cs') kv = applyAll cs' (applyAll cs kv) := List.foldl_append

theorem lookup_applyAll (cs : List Command) (kv : Store) (key : Key) :
    (applyAll cs kv).lookup key = actAll cs key (kv.lookup key) := by
  induction cs generalizing kv with
  | nil => rfl
  | cons c cs ih =>
    rw [applyAll, List.foldl_cons, ← applyAll, ih, lookup_apply, actAll_cons]

theorem lookup_applyAll_empty (cs : List Command) (key : Key) :
    (applyAll cs ∅).lookup key = actAll cs key none := lookup_applyAll cs ∅ key

/-- **Replaying a range over a state that has part of the range already.** -/
theorem applyAll_applyAll {cs before : List Command} (h : ∀ c ∈ before, c ∈ cs) (kv : Store) :
    applyAll cs (applyAll before kv) = applyAll cs kv := by
  refine Finmap.ext_lookup fun key => ?_
  rw [lookup_applyAll, lookup_applyAll, lookup_applyAll, actAll_actAll h]

/-! ### Keys -/

theorem mem_of_mem_apply {c : Command} {kv : Store} (h : key ∈ (c.apply kv).1) :
    key = c.key ∨ key ∈ kv := by
  obtain ⟨v, hv⟩ := Finmap.mem_iff.mp h
  by_cases heq : key = c.key
  · exact .inl heq
  · refine .inr ?_
    by_contra hnot
    rw [lookup_apply, Finmap.lookup_eq_none.mpr hnot] at hv
    unfold Command.act at hv
    cases hop : c.op <;> simp [hop, heq] at hv

/-! ### Snapshots -/

theorem validKey_of_checkKey (h : checkKey key = true) : validKey key = true := by
  simp only [checkKey, Bool.and_eq_true] at h
  exact h.1

theorem serves_txBackend : Serves txBackend id checkKey where
  get s key hkey := by
    unfold Yields
    rw [Act.exec_get]
    simp [txBackend, hkey]
  list s pfx hpfx := by
    unfold Yields
    rw [Act.exec_list]
    simp [txBackend, hpfx, kvList_eq]
  put s key value hkey := by
    unfold Yields
    rw [Act.exec_put]
    simp [txBackend, hkey]

/-- **A snapshot of a machine that has not failed restores its bucket.** -/
theorem snapshot_restores (json : EntryJson) {f : Fsm} (hfailed : f.failed = false)
    (hkeys : ∀ key ∈ f.kv, checkKey key = true) :
    ∃ data, f.snapshot json = .ok data ∧ ∀ f' : Fsm,
      f'.restore json data = (.ok (), { f' with kv := f.kv, lastApplied := none }) := by
  have hvalid : ∀ key ∈ f.kv, validKey key = true := fun key hkey =>
    validKey_of_checkKey (hkeys key hkey)
  have hdepth : ∀ key ∈ f.kv, key.length < maxKeyLen + 1 := by
    intro key hkey
    have hcheck := hkeys key hkey
    simp only [checkKey, Bool.and_eq_true, decide_eq_true_eq] at hcheck
    exact Nat.lt_succ_of_le hcheck.2
  have hwrite : Yields txBackend (Snapshot.write json (maxKeyLen + 1)) f.kv _ _ :=
    Snapshot.write_spec serves_txBackend hkeys hvalid (Nat.succ_pos _) hdepth
  obtain ⟨data, s, hrun, -, es, hes, rfl⟩ := hwrite.returns
  refine ⟨_, by rw [Fsm.snapshot, if_neg (by simp [hfailed]), hrun], fun f' => ?_⟩
  have hmem : ∀ e ∈ es, e.key ∈ f.kv := fun e he =>
    Finmap.mem_of_lookup_eq_some ((hes.mem e).mp he).1
  have hrestore : Yields txBackend (Snapshot.restore json _) ∅ _ _ :=
    Snapshot.restore_spec serves_txBackend es (fun e he => hkeys _ (hmem e he))
      fun e he => validUTF8_of_validKey (hvalid _ (hmem e he))
  obtain ⟨_, s', hrun', hs'⟩ := hrestore.returns
  rw [id_eq, id_eq, putAll_of_visits hes] at hs'
  rw [Fsm.restore, hrun', hs']
  rfl

end UbixVault.Raft
