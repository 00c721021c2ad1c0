/-
Walks visit every entry once, and snapshots restore what was written.

What a walk needs of a backend is `Serves`: it answers as a map does, for the keys
it accepts.  The children of a prefix partition the keys below it, so a walk over
the children, each once, visits each key once.
-/
import UbixVault.Proofs.Listing
import UbixVault.Proofs.Platform
import UbixVault.Snapshot

namespace UbixVault

open Program

/-! ### Backends that answer as a map does -/

/-- The backend holds `view`, and answers requests for the keys it accepts. -/
structure Serves {σ : Type} (h : Outside σ) (view : σ → Store) (accepts : Key → Bool) : Prop where
  get : ∀ s key, accepts key = true → Yields h (Act.get key) s
    (fun r s' => r = (view s).lookup key ∧ view s' = view s) fun _ _ => False
  list : ∀ s pfx, validPrefix pfx = true → Yields h (Act.list pfx) s
    (fun r s' => r = (view s).list pfx ∧ view s' = view s) fun _ _ => False
  put : ∀ s key value, accepts key = true → Yields h (Act.put key value) s
    (fun _ s' => view s' = (view s).insert key value) fun _ _ => False

theorem serves_of_works {env : Env} (hworks : env.Works) :
    Serves env.answer World.store validKey where
  get w key hkey := (Act.get_spec hkey).mono (fun _ _ h => ⟨h.1, h.2.1⟩)
    fun _ _ h => hworks.not_faulted h.faulted
  list w pfx hpfx := (Act.list_spec hpfx).mono (fun _ _ h => ⟨h.1, h.2.1⟩)
    fun _ _ h => hworks.not_faulted h.faulted
  put w key value hkey := (Act.put_spec hkey).mono (fun _ _ h => h.1) fun _ _ h => by
    rw [hworks] at h
    exact Bool.false_ne_true h.2

/-! ### Prefixes of valid keys -/

/-- Text that is cut at a slash stays valid. -/
theorem validUTF8_cut {a b : Bytes} (h : validUTF8 (a ++ slash :: b) = true) : validUTF8 a = true := by
  rw [validUTF8_append_slash, Bool.and_eq_true] at h
  exact h.1

/-- Where a valid key goes on after a slash, there is a valid prefix. -/
theorem validPrefix_of_validKey {p key : Key} (hkey : validKey key = true) (h : p ++ [slash] <+: key) :
    validPrefix (p ++ [slash]) = true := by
  obtain ⟨t, rfl⟩ := h
  rw [List.append_assoc, List.singleton_append] at hkey
  simp only [validKey, Bool.and_eq_true, bne_iff_ne, ne_eq, splitSlash_append_slash,
    List.all_append] at hkey
  obtain ⟨⟨⟨⟨-, hutf⟩, hhead⟩, -⟩, hsegs, -⟩ := hkey
  have hne : p ≠ [] := by
    rintro rfl
    simp at hhead
  have hlast : p.getLast? ≠ some slash := by
    intro hlast
    obtain ⟨q, rfl⟩ := List.getLast?_eq_some_iff.mp hlast
    rw [splitSlash_append_slash q []] at hsegs
    simp [splitSlash, validSegment] at hsegs
  have hhead' : p.head? ≠ some slash := by
    rwa [List.head?_append_of_ne_nil _ hne] at hhead
  simp only [validPrefix, validKey, List.getLast?_concat, List.dropLast_concat, Bool.or_eq_true,
    Bool.and_eq_true, bne_iff_ne, ne_eq, beq_iff_eq, List.append_eq_nil_iff]
  exact .inr ⟨trivial, ⟨⟨⟨⟨hne, validUTF8_cut hutf⟩, hhead'⟩, hlast⟩, hsegs⟩⟩

theorem getLast?_of_validKey {key : Key} (hkey : validKey key = true) : key.getLast? ≠ some slash := by
  simp only [validKey, Bool.and_eq_true, bne_iff_ne, ne_eq] at hkey
  exact hkey.1.2

theorem validUTF8_of_validKey {key : Key} (hkey : validKey key = true) : validUTF8 key = true := by
  simp only [validKey, Bool.and_eq_true] at hkey
  exact hkey.1.1.1.2

theorem eq_of_childUnder_eq_none {pfx key : Key} (h : childUnder pfx key = none) (hpfx : pfx <+: key) :
    key = pfx := by
  obtain ⟨rest, rfl⟩ := hpfx
  unfold childUnder at h
  rw [if_pos (List.prefix_append _ _), List.drop_left] at h
  by_cases hnil : rest = []
  · rw [hnil, List.append_nil]
  · dsimp only at h
    rw [if_neg hnil] at h
    split_ifs at h

/-- A prefix is not a key. -/
theorem not_validKey_of_validPrefix {pfx : Key} (h : validPrefix pfx = true) : ¬ validKey pfx = true := by
  intro hkey
  simp only [validPrefix, Bool.or_eq_true, beq_iff_eq, Bool.and_eq_true] at h
  rcases h with rfl | ⟨hlast, -⟩
  · simp [validKey] at hkey
  · exact getLast?_of_validKey hkey hlast

/-! ### Walking -/

section Walk

variable {σ α : Type} {h : Outside σ} {view : σ → Store} {accepts : Key → Bool}
  {fn : Entry → Except Err α} {g : Entry → α} {store : Store} {pfx : Key} {s : σ}

/-- The entries that were visited, in order: those whose key is of a kind, each once. -/
structure Visits (store : Store) (kind : Key → Prop) (es : List Entry) : Prop where
  nodup : (es.map Entry.key).Nodup
  mem : ∀ e, e ∈ es ↔ store.lookup e.key = some e.value ∧ kind e.key

theorem Visits.nil {kind : Key → Prop} (h : ∀ key ∈ store, ¬ kind key) : Visits store kind [] := by
  refine ⟨List.nodup_nil, fun e => ?_⟩
  simp only [List.not_mem_nil, false_iff, not_and]
  intro hlookup
  exact h e.key (Finmap.mem_of_lookup_eq_some hlookup)

theorem Visits.append {kind kind' : Key → Prop} {es es' : List Entry} (h : Visits store kind es)
    (h' : Visits store kind' es') (hdisj : ∀ key, kind key → ¬ kind' key) :
    Visits store (fun key => kind key ∨ kind' key) (es ++ es') := by
  constructor
  · rw [List.map_append, List.nodup_append]
    refine ⟨h.nodup, h'.nodup, ?_⟩
    intro key hkey key' hkey'
    obtain ⟨e, he, rfl⟩ := List.mem_map.mp hkey
    obtain ⟨e', he', rfl⟩ := List.mem_map.mp hkey'
    intro heq
    refine hdisj e.key ((h.mem e).mp he).2 ?_
    rw [heq]
    exact ((h'.mem e').mp he').2
  · intro e
    rw [List.mem_append, h.mem, h'.mem, and_or_left]

theorem Visits.congr {kind kind' : Key → Prop} {es : List Entry} (h : Visits store kind es)
    (hkind : ∀ key ∈ store, kind key ↔ kind' key) : Visits store kind' es := by
  refine ⟨h.nodup, fun e => ?_⟩
  rw [h.mem]
  exact and_congr_right fun hlookup => hkind e.key (Finmap.mem_of_lookup_eq_some hlookup)

/-- A walk that returns what `g` makes of the entries of a kind. -/
abbrev Walks (h : Outside σ) (view : σ → Store) (g : Entry → α) (kind : Key → Prop)
    (x : Act (List α)) (s : σ) : Prop :=
  Yields h x s (fun as s' => view s' = view s ∧ ∃ es, Visits (view s) kind es ∧ as = es.map g)
    fun _ _ => False

/-- What one child contributes. -/
theorem walkChild_spec (hserves : Serves h view accepts) (hfn : ∀ e, fn e = .ok (g e))
    (haccepts : ∀ key ∈ store, accepts key = true) {descend : Key → Act (List α)} {c : Key}
    (hdescend : c.getLast? = some slash → Walks h view g (pfx ++ c <+: ·) (descend (pfx ++ c)) s)
    (hc : c ∈ store.list pfx) (hs : view s = store) :
    Walks h view g (fun key => childUnder pfx key = some c) (walkChild fn descend pfx c) s := by
  subst hs
  obtain ⟨key, hkey, hchild⟩ := Store.mem_list.mp hc
  unfold walkChild
  by_cases hlast : c.getLast? = some slash
  · rw [if_pos hlast]
    refine (hdescend hlast).mono ?_ fun _ _ hf => hf
    rintro as s₁ ⟨hs₁, es, hes, rfl⟩
    exact ⟨hs₁, es, hes.congr fun key _ => (childUnder_directory_iff hchild hlast key).symm, rfl⟩
  · have hkind := childUnder_leaf_iff hchild hlast
    have heq : key = pfx ++ c := (hkind key).mp hchild
    subst heq
    obtain ⟨value, hvalue⟩ := Finmap.mem_iff.mp hkey
    rw [if_neg hlast]
    refine Yields.bind ((hserves.get s _ (haccepts _ hkey)).mono ?_ fun _ _ hf => hf)
    rintro _ s₁ ⟨rfl, hs₁⟩
    rw [hvalue]
    dsimp only
    rw [hfn]
    refine Yields.pure ⟨hs₁, [⟨pfx ++ c, value⟩], ⟨List.nodup_singleton _, fun e => ?_⟩, rfl⟩
    rw [List.mem_singleton, hkind]
    constructor
    · rintro rfl
      exact ⟨hvalue, rfl⟩
    · rintro ⟨hlookup, heq⟩
      rw [heq, hvalue] at hlookup
      cases e
      cases hlookup
      cases heq
      rfl

theorem walkChildren_spec (hserves : Serves h view accepts) (hfn : ∀ e, fn e = .ok (g e))
    (haccepts : ∀ key ∈ store, accepts key = true) {descend : Key → Act (List α)}
    (hdescend : ∀ c s, view s = store → c ∈ store.list pfx → c.getLast? = some slash →
      Walks h view g (pfx ++ c <+: ·) (descend (pfx ++ c)) s)
    (cs : List Key) (hcs : ∀ c ∈ cs, c ∈ store.list pfx) (hnodup : cs.Nodup) (hs : view s = store) :
    Walks h view g (fun key => ∃ c ∈ cs, childUnder pfx key = some c)
      (walkChildren fn descend pfx cs) s := by
  induction cs generalizing s with
  | nil => exact Yields.pure ⟨rfl, [], Visits.nil (by simp), rfl⟩
  | cons c cs ih =>
    obtain ⟨hc, hnodup⟩ := List.nodup_cons.mp hnodup
    have hmem : c ∈ store.list pfx := hcs c List.mem_cons_self
    have hrest : ∀ c' ∈ cs, c' ∈ store.list pfx := fun c' hc' => hcs c' (List.mem_cons_of_mem _ hc')
    have hhere := walkChild_spec hserves hfn haccepts (hdescend c s hs hmem) hmem hs
    refine Yields.bind (hhere.mono ?_ fun _ _ hf => hf)
    rintro as s₁ ⟨hs₁, es, hes, rfl⟩
    refine Yields.bind ((ih hrest hnodup (hs₁.trans hs)).mono ?_ fun _ _ hf => hf)
    rintro as' s₂ ⟨hs₂, es', hes', rfl⟩
    rw [hs₁] at hes'
    refine Yields.pure ⟨hs₂.trans hs₁, es ++ es', ?_, List.map_append.symm⟩
    refine (hes.append hes' ?_).congr fun key _ => ?_
    · rintro key hkey ⟨c', hc', hkey'⟩
      rw [hkey] at hkey'
      cases hkey'
      exact hc hc'
    · simp only [List.exists_mem_cons_iff]

/-- **A walk visits the keys below a prefix, each once.** -/
theorem walk_spec (hserves : Serves h view accepts) (hfn : ∀ e, fn e = .ok (g e))
    (haccepts : ∀ key ∈ store, accepts key = true) (hvalid : ∀ key ∈ store, validKey key = true)
    (depth : Nat) (hpfx : validPrefix pfx = true) (hpos : 0 < depth)
    (hdepth : ∀ key ∈ store, key.length < pfx.length + depth) (hs : view s = store) :
    Walks h view g (pfx <+: ·) (walk fn depth pfx) s := by
  induction depth generalizing pfx s with
  | zero => exact absurd hpos (lt_irrefl 0)
  | succ depth ih =>
    refine Yields.bind ((hserves.list s pfx hpfx).mono ?_ fun _ _ hf => hf)
    rintro _ s₁ ⟨rfl, hs₁⟩
    have hdescend : ∀ c s, view s = store → c ∈ store.list pfx → c.getLast? = some slash →
        Walks h view g (pfx ++ c <+: ·) (walk fn depth (pfx ++ c)) s := by
      intro c s hs hc hlast
      obtain ⟨q, rfl⟩ := List.getLast?_eq_some_iff.mp hlast
      obtain ⟨key, hkey, hchild⟩ := Store.mem_list.mp hc
      rw [childUnder_eq_some_iff] at hchild
      have hpfx : pfx ++ (q ++ [slash]) <+: key := by
        rcases hchild with ⟨-, -, rfl⟩ | ⟨-, -, -, hpfx⟩
        · exact List.prefix_refl _
        · exact hpfx
      have hlength := hpfx.length_le
      have hlt := hdepth key hkey
      simp only [List.length_append, List.length_singleton] at hlength
      refine ih ?_ (by omega) ?_ hs
      · rw [← List.append_assoc] at hpfx ⊢
        exact validPrefix_of_validKey (hvalid key hkey) hpfx
      · intro key' hkey'
        have := hdepth key' hkey'
        simp only [List.length_append, List.length_singleton]
        omega
    rw [hs]
    refine (walkChildren_spec hserves hfn haccepts hdescend _ (fun _ hc => hc)
      (store.nodup_list pfx) (hs₁.trans hs)).mono ?_ fun _ _ hf => hf
    rintro as s₂ ⟨hs₂, es, hes, rfl⟩
    rw [hs₁, hs] at hes
    refine ⟨hs₂.trans (hs₁.trans hs), es, hes.congr fun key hkey => ?_, rfl⟩
    -- Below the prefix there is a child on the way to every key.
    constructor
    · rintro ⟨c, -, hchild⟩
      by_contra hnot
      simp [childUnder, hnot] at hchild
    · intro hbelow
      cases hchild : childUnder pfx key with
      | some c => exact ⟨c, Store.mem_list.mpr ⟨key, hkey, hchild⟩, rfl⟩
      | none =>
        have heq := eq_of_childUnder_eq_none hchild hbelow
        subst heq
        exact absurd (hvalid _ hkey) (not_validKey_of_validPrefix hpfx)

end Walk

/-! ### Snapshots -/

section Snapshot

variable {σ : Type} {h : Outside σ} {view : σ → Store} {accepts : Key → Bool} {s : σ}

/-- The store after the entries were put into it one after the other. -/
def putAll (es : List Entry) (store : Store) : Store :=
  es.foldl (fun store e => store.insert e.key e.value) store

theorem lookup_putAll_of_notMem {es : List Entry} {store : Store} {key : Key}
    (hkey : key ∉ es.map Entry.key) : (putAll es store).lookup key = store.lookup key := by
  induction es generalizing store with
  | nil => rfl
  | cons e es ih =>
    simp only [List.map_cons, List.mem_cons, not_or] at hkey
    rw [putAll, List.foldl_cons, ← putAll, ih hkey.2, Finmap.lookup_insert_of_ne _ hkey.1]

theorem lookup_putAll {es : List Entry} {store : Store} (hnodup : (es.map Entry.key).Nodup)
    {e : Entry} (he : e ∈ es) : (putAll es store).lookup e.key = some e.value := by
  induction es generalizing store with
  | nil => cases he
  | cons e' es ih =>
    rw [List.map_cons, List.nodup_cons] at hnodup
    rw [putAll, List.foldl_cons, ← putAll]
    rcases List.mem_cons.mp he with rfl | he
    · rw [lookup_putAll_of_notMem hnodup.1, Finmap.lookup_insert]
    · exact ih hnodup.2 he

/-- Putting every entry of a store into an empty one gives the store back. -/
theorem putAll_of_visits {es : List Entry} {store : Store}
    (hes : Visits store (fun _ => True) es) : putAll es ∅ = store := by
  refine Finmap.ext_lookup fun key => ?_
  cases hkey : store.lookup key with
  | some value =>
    have he : (⟨key, value⟩ : Entry) ∈ es := (hes.mem ⟨key, value⟩).mpr ⟨hkey, trivial⟩
    exact lookup_putAll hes.nodup he
  | none =>
    rw [lookup_putAll_of_notMem, Finmap.lookup_empty]
    intro hmem
    obtain ⟨e, he, rfl⟩ := List.mem_map.mp hmem
    rw [((hes.mem e).mp he).1] at hkey
    cases hkey

namespace Snapshot

variable {json : EntryJson}

theorem write_spec (hserves : Serves h view accepts)
    (haccepts : ∀ key ∈ view s, accepts key = true) (hvalid : ∀ key ∈ view s, validKey key = true)
    {depth : Nat} (hpos : 0 < depth) (hdepth : ∀ key ∈ view s, key.length < depth) :
    Yields h (write json depth) s
      (fun data s' => view s' = view s ∧ ∃ es, Visits (view s) (fun _ => True) es ∧
        data = header ++ [newline] ++ (es.map json.encode).flatten)
      (fun _ _ => False) := by
  have hwalk : Walks h view json.encode ([] <+: ·) (walk (fun e => .ok (json.encode e)) depth []) s :=
    walk_spec hserves (fun _ => rfl) haccepts hvalid depth rfl hpos (by simpa using hdepth) rfl
  refine Yields.bind (Act.yields_context (hwalk.mono ?_ fun _ _ hf => hf))
  rintro _ s₁ ⟨hs₁, es, hes, rfl⟩
  exact Yields.pure ⟨hs₁, es, hes.congr fun _ _ => by simp, rfl⟩

theorem readLine_append {line rest : Bytes} (hline : newline ∉ line) :
    readLine (line ++ newline :: rest) = some (line, rest) := by
  induction line with
  | nil => simp [readLine]
  | cons b line ih =>
    simp only [List.mem_cons, not_or] at hline
    simp [readLine, Ne.symm hline.1, ih hline.2]

theorem restoreEntries_spec (hserves : Serves h view accepts) (es : List Entry)
    (haccepts : ∀ e ∈ es, accepts e.key = true) (hvalid : ∀ e ∈ es, validUTF8 e.key = true) :
    Yields h (restoreEntries json (es.map json.encode).flatten) s
      (fun _ s' => view s' = putAll es (view s)) (fun _ _ => False) := by
  induction es generalizing s with
  | nil =>
    rw [List.map_nil, List.flatten_nil, restoreEntries]
    split
    · next hdecode => exact absurd (json.decode_nil.symm.trans hdecode) (by simp)
    · exact Yields.pure rfl
    · next hdecode => exact absurd (json.decode_nil.symm.trans hdecode) (by simp)
  | cons e es ih =>
    have hdecode := json.decode_encode e (es.map json.encode).flatten (hvalid e List.mem_cons_self)
    rw [List.map_cons, List.flatten_cons, restoreEntries]
    split
    · next hnone => exact absurd (hdecode.symm.trans hnone) (by simp)
    · next hnone => exact absurd (hdecode.symm.trans hnone) (by simp)
    · next e' rest hsome =>
        rw [hdecode] at hsome
        cases hsome
        refine Yields.bind (Act.yields_adapt
          ((hserves.put s _ e.value (haccepts e List.mem_cons_self)).mono ?_ fun _ _ hf => hf))
        intro _ s₁ hs₁
        refine (ih (fun e' he' => haccepts e' (List.mem_cons_of_mem _ he'))
          (fun e' he' => hvalid e' (List.mem_cons_of_mem _ he'))).mono ?_ fun _ _ hf => hf
        intro _ s₂ hs₂
        rw [hs₂, hs₁]
        rfl

theorem restore_spec (hserves : Serves h view accepts) (es : List Entry)
    (haccepts : ∀ e ∈ es, accepts e.key = true) (hvalid : ∀ e ∈ es, validUTF8 e.key = true) :
    Yields h (restore json (header ++ [newline] ++ (es.map json.encode).flatten)) s
      (fun _ s' => view s' = putAll es (view s)) (fun _ _ => False) := by
  unfold restore
  rw [List.append_assoc, List.singleton_append, readLine_append (by decide_cbv)]
  dsimp only
  rw [if_neg (by simp)]
  exact restoreEntries_spec hserves es haccepts hvalid

end Snapshot

/--
**Walks and snapshots.**  A walk visits every stored key once with its value, and a
snapshot that is restored into an empty backend gives the same map.
-/
theorem snapshot_round_trip (json : EntryJson) (env env' : Env) (hworks : env.Works)
    (hworks' : env'.Works) (w : World) (hvalid : ∀ key ∈ w.store, validKey key = true) (depth : Nat)
    (hpos : 0 < depth) (hdepth : ∀ key ∈ w.store, key.length < depth) :
    (∃ es w₁, (walkAll .ok depth).exec env w = (.ok es, w₁) ∧ w₁.store = w.store ∧
      (es.map Entry.key).Nodup ∧ ∀ e, e ∈ es ↔ w.store.lookup e.key = some e.value) ∧
    ∃ data w₁, (Snapshot.write json depth).exec env w = (.ok data, w₁) ∧ w₁.store = w.store ∧
      ∀ w', w'.store = ∅ → ∃ w'', (Snapshot.restore json data).exec env' w' = (.ok (), w'') ∧
        w''.store = w.store := by
  have hserves := serves_of_works hworks
  constructor
  · have hwalk : Walks env.answer World.store id ([] <+: ·) (walk .ok depth []) w :=
      walk_spec hserves (fun _ => rfl) hvalid hvalid depth rfl hpos (by simpa using hdepth) rfl
    obtain ⟨_, w₁, hrun, hs₁, es, hes, rfl⟩ := hwalk.returns
    rw [List.map_id] at hrun
    refine ⟨es, w₁, hrun, hs₁, hes.nodup, fun e => ?_⟩
    rw [hes.mem]
    simp
  · obtain ⟨data, w₁, hrun, hs₁, es, hes, rfl⟩ :=
      (Snapshot.write_spec hserves hvalid hvalid hpos hdepth).returns
    refine ⟨_, w₁, hrun, hs₁, fun w' hempty => ?_⟩
    have hkeys : ∀ e ∈ es, validKey e.key = true := fun e he =>
      hvalid e.key (Finmap.mem_of_lookup_eq_some ((hes.mem e).mp he).1)
    obtain ⟨_, w'', hrun', hs''⟩ := (Snapshot.restore_spec (serves_of_works hworks') es hkeys
      fun e he => validUTF8_of_validKey (hkeys e he)).returns
    refine ⟨w'', hrun', ?_⟩
    rw [hs'', hempty, putAll_of_visits hes]

def Entry.wire : Wire Entry :=
  (Wire.bytes.pair Wire.bytes).via (fun e => (e.key, e.value)) (fun p => ⟨p.1, p.2⟩) fun _ => rfl

/-- Entries with a mark in front. -/
def EntryJson.transparent : EntryJson where
  encode e := 0 :: Entry.wire.write e
  decode
    | [] => some none
    | _ :: data => (Entry.wire.read data).bind fun (e, rest) =>
      if rest.length ≤ data.length then some (some (e, rest)) else none
  decode_nil := rfl
  decode_encode e rest _ := by simp [Entry.wire.read_write]
  shorter data e rest h := by
    cases data with
    | nil => cases h
    | cons b data =>
      obtain ⟨p, -, hrest⟩ := Option.bind_eq_some_iff.mp h
      obtain ⟨hle, heq⟩ := Option.ite_none_right_eq_some.mp hrest
      cases heq
      exact Nat.lt_succ_of_le hle

/-- A leaf and a subtree of the same name survive a snapshot. -/
theorem snapshot_round_trip_same_name :
    ∃ data w₁, (Snapshot.write .transparent 4).exec .faultless ⟨sameName, 0⟩ = (.ok data, w₁) ∧
      ∃ w'', (Snapshot.restore .transparent data).exec .faultless ⟨∅, 0⟩ = (.ok (), w'') ∧
        w''.store = sameName := by
  have hkeys : ∀ key ∈ sameName, validKey key = true ∧ key.length < 4 := by
    intro key hkey
    rcases mem_sameName.mp hkey with rfl | rfl
    · decide +kernel
    · decide +kernel
  obtain ⟨-, data, w₁, hwrite, -, hrestore⟩ := snapshot_round_trip .transparent .faultless .faultless
    works_faultless works_faultless ⟨sameName, 0⟩ (fun key hkey => (hkeys key hkey).1) 4 (by decide)
    fun key hkey => (hkeys key hkey).2
  exact ⟨data, w₁, hwrite, hrestore ⟨∅, 0⟩ rfl⟩

end Snapshot

end UbixVault
