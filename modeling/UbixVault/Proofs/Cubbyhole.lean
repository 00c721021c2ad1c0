/-
Cubbyholes do not touch each other.

Every call of a token is confined to the token's scope, and a key is in one scope only.
Both halves of isolation follow from what is known of confined programs: the calls of
other tokens change nothing a token sees, and destroying a cubbyhole changes nothing else.
-/
import UbixVault.Cubbyhole
import UbixVault.Proofs.Basic
import UbixVault.Proofs.Confined
import UbixVault.Proofs.Snapshot

namespace UbixVault.Cubbyhole

open Program

variable {δ : Type} {e : Engine δ} {env : Env} {w w' : World} {scope pfx : Key}

variable {descend : Key → Act Unit} {store : Store}

/-! ### Calls are confined -/

theorem within_deleteChildren {A : Call → Prop} (hdelete : ∀ key, scope <+: key → A (.delete key))
    (hdescend : ∀ pfx, scope <+: pfx → Within A (descend pfx).run) (hpfx : scope <+: pfx)
    (cs : List Key) : Within A (deleteChildren descend pfx cs).run := by
  induction cs with
  | nil => trivial
  | cons c cs ih =>
    refine .bindExcept ?_ fun _ => ih
    have hbelow : scope <+: pfx ++ c := hpfx.trans (List.prefix_append _ _)
    unfold deleteChild
    split_ifs
    · exact hdescend _ hbelow
    · exact .perform (hdelete _ hbelow)

/-- Deleting a tree lists and deletes below it, and does nothing else. -/
theorem within_deleteTree {A : Call → Prop} (hlist : ∀ pfx, scope <+: pfx → A (.list pfx))
    (hdelete : ∀ key, scope <+: key → A (.delete key)) (depth : Nat) (hpfx : scope <+: pfx) :
    Within A (deleteTree depth pfx).run := by
  induction depth generalizing pfx with
  | zero => trivial
  | succ depth ih =>
    exact .bindExcept (.perform (hlist _ hpfx)) fun cs => within_deleteChildren hdelete (fun _ => ih) hpfx cs

theorem within_call (depth : Nat) (r : Request δ) :
    Within (Call.Below (e.tokenScope r.tokenID)) (e.call depth r) := by
  have hkey : ∀ path, e.tokenScope r.tokenID <+: e.key r.tokenID path := fun path => List.prefix_append _ _
  unfold Engine.call
  cases r.operation with
  | write path data =>
    refine .bind ?_ fun _ => trivial
    unfold Engine.write
    split_ifs
    · trivial
    · cases e.json.marshal data with
      | none => trivial
      | some blob => exact .adapt _ (.perform (hkey path))
  | read path =>
    refine .bind ?_ fun _ => trivial
    unfold Engine.read
    split_ifs
    · trivial
    · refine .bindExcept (.adapt _ (.perform (hkey path))) fun o => ?_
      cases o with
      | none => trivial
      | some blob =>
        dsimp only
        cases e.json.unmarshal blob with
        | none => trivial
        | some data => trivial
  | list path =>
    refine .bind ?_ fun _ => trivial
    exact .adapt _ (.perform (List.prefix_append _ _))
  | delete path =>
    refine .bind ?_ fun _ => trivial
    unfold Engine.delete
    split_ifs
    · trivial
    · exact .adapt _ (.perform (hkey path))
  | destroy =>
    refine .bind ?_ fun _ => trivial
    exact .adapt _ (within_deleteTree (fun _ hpfx => hpfx) (fun _ hkey => hkey) depth (List.prefix_refl _))

/-- A key is in the scope of one token. -/
theorem tokenScope_inj {a b : Bytes} {key : Key} (ha : e.tokenScope a <+: key) (hb : e.tokenScope b <+: key) :
    a = b := by
  obtain ⟨s, rfl⟩ := ha
  obtain ⟨t, hkey⟩ := hb
  have hslash : str "/" = [slash] := by decide_cbv
  simp only [Engine.tokenScope, hslash, List.append_assoc, List.append_cancel_left_eq,
    List.cons_append, List.cons.injEq, true_and] at hkey
  have hhex := congrArg (List.takeWhile (· ≠ slash)) hkey
  rw [takeWhile_segment (slash_notMem_hexEncode _), takeWhile_segment (slash_notMem_hexEncode _)] at hhex
  exact (e.sha256.sum_injective (hexEncode_injective hhex)).symm

/-! ### What a token sees -/

/-- Calls of other tokens change nothing that a token can see. -/
theorem filter_run (hworks : env.Works) (depth : Nat) (b : Bytes) (requests : List (Request δ))
    (h : Store.AgreeBelow (e.tokenScope b) w.store w'.store) :
    (e.run env depth requests w).1.filter (·.1 = b)
      = (e.run env depth (requests.filter (·.tokenID = b)) w').1 := by
  induction requests generalizing w w' with
  | nil => rfl
  | cons r rest ih =>
    by_cases hr : r.tokenID = b
    · subst hr
      obtain ⟨hreply, hstore⟩ := run_of_within hworks hworks (within_call depth r) h
      rw [List.filter_cons_of_pos (by simp)]
      simp only [Engine.run]
      rw [List.filter_cons_of_pos (by simp), ih hstore, hreply]
    · have hstore : Store.AgreeBelow (e.tokenScope b)
          ((e.call depth r).run env.answer w).2.store w'.store := by
        intro key hkey
        rw [← h key hkey]
        refine lookup_run_of_within (within_call depth r) (fun hkey' => hr ?_) w
        exact tokenScope_inj hkey' hkey
      rw [List.filter_cons_of_neg (by simpa using hr)]
      simp only [Engine.run]
      rw [List.filter_cons_of_neg (by simpa using hr)]
      exact ih hstore

/-! ### Destroying a cubbyhole -/

section Destroy

variable {σ : Type} {h : Outside σ} {view : σ → Store} {broken : Prop} {s : σ}

/-- The backend holds `view`, deletes and lists as a map does, and refuses what is valid
only if it is broken. -/
structure Prunes (h : Outside σ) (view : σ → Store) (broken : Prop) : Prop where
  delete : ∀ s key, Yields h (Act.delete key) s (fun _ s' => view s' = (view s).erase key)
    fun _ s' => view s' = view s ∧ (validKey key = true → broken)
  list : ∀ s pfx, Yields h (Act.list pfx) s
    (fun r s' => view s' = view s ∧ ∀ c, c ∈ r ↔ c ∈ (view s).list pfx)
    fun _ s' => view s' = view s ∧ (validPrefix pfx = true → broken)

/-- What is below a prefix, when deletion fails only under a condition. -/
abbrev Clears (h : Outside σ) (view : σ → Store) (kind : Key → Prop) (fault : Prop) (x : Act Unit)
    (s : σ) : Prop :=
  Yields h x s (fun _ s' => Store.Cleared kind (view s) (view s'))
    fun _ s' => Store.Pruned kind (view s) (view s') ∧ fault

/-- No key of the store is out of reach from a prefix. -/
structure Reaches (store : Store) (pfx : Key) (depth : Nat) : Prop where
  prefix_valid : validPrefix pfx = true
  positive : 0 < depth
  short : ∀ key ∈ store, key.length < pfx.length + depth

/-- The level below is reached with one step less. -/
theorem Reaches.child {pfx key seg : Key} {depth : Nat} (hr : Reaches store pfx (depth + 1))
    (hkey : key ∈ store) (hvalid : validKey key = true) (hbelow : pfx ++ (seg ++ [slash]) <+: key) :
    Reaches store (pfx ++ (seg ++ [slash])) depth := by
  have hne : pfx ++ (seg ++ [slash]) ≠ key := by
    rintro rfl
    exact getLast?_of_validKey hvalid (by simp)
  have hlt : (pfx ++ (seg ++ [slash])).length < key.length := by
    rcases hbelow.length_le.lt_or_eq with hlt | heq
    · exact hlt
    · exact absurd (hbelow.eq_of_length heq) hne
  have hkeylt := hr.short key hkey
  simp only [List.length_append, List.length_singleton] at hlt
  refine ⟨?_, by omega, ?_⟩
  · rw [← List.append_assoc] at hbelow ⊢
    exact validPrefix_of_validKey hvalid hbelow
  · intro key' hkey'
    have := hr.short key' hkey'
    simp only [List.length_append, List.length_singleton]
    omega

theorem deleteChild_spec (hprunes : Prunes h view broken) {fault : Prop} {c : Key}
    (hdescend : c.getLast? = some slash → Clears h view (pfx ++ c <+: ·) fault (descend (pfx ++ c)) s)
    (hfault : c.getLast? ≠ some slash → (validKey (pfx ++ c) = true → broken) → fault)
    (hc : c ∈ store.list pfx) :
    Clears h view (childUnder pfx · = some c) fault (deleteChild descend pfx c) s := by
  obtain ⟨key, -, hchild⟩ := Store.mem_list.mp hc
  unfold deleteChild
  by_cases hlast : c.getLast? = some slash
  · rw [if_pos hlast]
    have hkind := childUnder_directory_iff hchild hlast
    exact (hdescend hlast).mono (fun _ _ hs => hs.congr fun key => (hkind key).symm)
      fun _ _ hs => ⟨hs.1.mono fun key => (hkind key).mpr, hs.2⟩
  · rw [if_neg hlast]
    have hkind := childUnder_leaf_iff hchild hlast
    refine (hprunes.delete s _).mono ?_ ?_
    · intro _ s' hs'
      rw [hs']
      exact (Store.Cleared.erase _ _).congr fun key => (hkind key).symm
    · rintro _ s' ⟨hs', hbroken⟩
      rw [hs']
      exact ⟨Store.Pruned.refl _ _, hfault hlast hbroken⟩

/-- One child after another. -/
theorem deleteChildren_spec (hprunes : Prunes h view broken) {fault : Prop}
    (hdescend : ∀ c ∈ store.list pfx, c.getLast? = some slash → ∀ s, (∀ key ∈ view s, key ∈ store) →
      Clears h view (pfx ++ c <+: ·) fault (descend (pfx ++ c)) s)
    (hfault : ∀ c ∈ store.list pfx, c.getLast? ≠ some slash → (validKey (pfx ++ c) = true → broken) → fault)
    (cs : List Key) (hcs : ∀ c ∈ cs, c ∈ store.list pfx) (hs : ∀ key ∈ view s, key ∈ store) :
    Clears h view (fun key => ∃ c ∈ cs, childUnder pfx key = some c) fault
      (deleteChildren descend pfx cs) s := by
  induction cs generalizing s with
  | nil => exact Yields.pure ⟨Store.Pruned.refl _ _, by simp⟩
  | cons c cs ih =>
    have hmem : c ∈ store.list pfx := hcs c List.mem_cons_self
    have hhere : ∀ key, childUnder pfx key = some c → ∃ c' ∈ c :: cs, childUnder pfx key = some c' :=
      fun key hkey => ⟨c, List.mem_cons_self, hkey⟩
    have hrest : ∀ key, (∃ c' ∈ cs, childUnder pfx key = some c') →
        ∃ c' ∈ c :: cs, childUnder pfx key = some c' :=
      fun key ⟨c', hc', hkey⟩ => ⟨c', List.mem_cons_of_mem _ hc', hkey⟩
    refine Yields.bind
      ((deleteChild_spec hprunes (fun hlast => hdescend c hmem hlast s hs) (hfault c hmem) hmem).mono
      ?_ fun _ _ hf => ⟨hf.1.mono hhere, hf.2⟩)
    intro _ s₁ hs₁
    have hpruned := hs₁.pruned.mono hhere
    refine (ih (fun c' hc' => hcs c' (List.mem_cons_of_mem _ hc'))
      fun key hkey => hs key (hs₁.pruned.mem hkey)).mono
      ?_ fun _ _ hf => ⟨hpruned.trans (hf.1.mono hrest), hf.2⟩
    intro _ s₂ hs₂
    refine ⟨hpruned.trans (hs₂.pruned.mono hrest), ?_⟩
    rintro key ⟨c', hc', hkey⟩
    rcases List.mem_cons.mp hc' with rfl | hc'
    · exact hs₂.pruned.none (hs₁.gone key hkey)
    · exact hs₂.gone key ⟨c', hc', hkey⟩

/-- **Deleting a tree clears what is below it**, and stops short only if the backend is
broken or a key is out of reach. -/
theorem deleteTree_spec (hprunes : Prunes h view broken) (hvalid : ∀ key ∈ store, validKey key = true)
    (depth : Nat) (hpfx : pfx.getLast? = some slash) (hs : ∀ key ∈ view s, key ∈ store) :
    Clears h view (pfx <+: ·) (Reaches store pfx depth → broken) (deleteTree depth pfx) s := by
  induction depth generalizing pfx s with
  | zero => exact Yields.throw ⟨Store.Pruned.refl _ _, fun hr => absurd hr.positive (lt_irrefl 0)⟩
  | succ depth ih =>
    refine Yields.bind ((hprunes.list s pfx).mono ?_ ?_)
    · rintro cs s₁ ⟨hs₁, hcs⟩
      have hlisted : ∀ c ∈ cs, c ∈ store.list pfx := by
        intro c hc
        obtain ⟨key, hkey, hchild⟩ := Store.mem_list.mp ((hcs c).mp hc)
        exact Store.mem_list.mpr ⟨key, hs key hkey, hchild⟩
      have hall : Clears h view (fun key => ∃ c ∈ cs, childUnder pfx key = some c)
          (Reaches store pfx (depth + 1) → broken) (deleteChildren (deleteTree depth) pfx cs) s₁ := by
        refine deleteChildren_spec hprunes ?_ ?_ cs hlisted (hs₁ ▸ hs)
        · intro c hc hlast s' hs'
          obtain ⟨seg, rfl⟩ := List.getLast?_eq_some_iff.mp hlast
          obtain ⟨key, hkey, hchild⟩ := Store.mem_list.mp hc
          have hbelow := (childUnder_directory_iff hchild hlast key).mp hchild
          refine (ih (by simp) hs').mono (fun _ _ hok => hok) fun _ _ hf => ⟨hf.1, fun hr => hf.2 ?_⟩
          exact hr.child hkey (hvalid key hkey) hbelow
        · intro c hc hlast hbroken _
          obtain ⟨key, hkey, hchild⟩ := Store.mem_list.mp hc
          have heq := (childUnder_leaf_iff hchild hlast key).mp hchild
          exact hbroken (heq ▸ hvalid key hkey)
      have hbelow : ∀ key, (∃ c ∈ cs, childUnder pfx key = some c) → pfx <+: key := by
        rintro key ⟨c, -, hchild⟩
        by_contra hnot
        simp [childUnder, hnot] at hchild
      rw [← hs₁]
      refine hall.mono ?_ fun _ _ hf => ⟨hf.1.mono hbelow, hf.2⟩
      intro _ s₂ hs₂
      refine ⟨hs₂.pruned.mono hbelow, ?_⟩
      intro key hkey
      by_cases hmem : key ∈ view s₁
      · cases hchild : childUnder pfx key with
        | some c =>
          refine hs₂.gone key ⟨c, (hcs c).mpr (Store.mem_list.mpr ⟨key, ?_, hchild⟩), hchild⟩
          rw [← hs₁]
          exact hmem
        | none =>
          -- The key would be the prefix itself, which ends in a slash.
          have heq := eq_of_childUnder_eq_none hchild hkey
          subst heq
          exact absurd hpfx (getLast?_of_validKey (hvalid _ (hs _ (hs₁ ▸ hmem))))
      · exact hs₂.pruned.none (Finmap.lookup_eq_none.mpr hmem)
    · rintro _ s₁ ⟨hs₁, hbroken⟩
      rw [hs₁]
      exact ⟨Store.Pruned.refl _ _, fun hr => hbroken hr.prefix_valid⟩

end Destroy

/-- A working store is one that prunes. -/
theorem prunes_of_works (hworks : env.Works) : Prunes env.answer World.store False where
  delete w key := by
    by_cases hv : validKey key = true
    · exact (hworks.delete hv).mono (fun _ _ hw => by rw [hw]; rfl) fun _ _ hf => hf.elim
    · rcases Env.answer_delete_cases env w key with hrun | ⟨e, hrun⟩
      · unfold Yields
        rw [Act.exec_delete, hrun]
        rfl
      · unfold Yields
        rw [Act.exec_delete, hrun]
        exact ⟨rfl, fun hkey => absurd hkey hv⟩
  list w pfx := by
    by_cases hv : validPrefix pfx = true
    · exact (Act.list_spec hv).mono (fun _ _ hw => ⟨hw.2.1, fun c => by rw [hw.1]⟩)
        fun _ _ hf => (hworks.not_faulted hf.faulted).elim
    · rcases Env.answer_list_cases env w pfx with hrun | ⟨e, hrun⟩
      · unfold Yields
        rw [Act.exec_list, hrun]
        exact ⟨rfl, fun _ => Iff.rfl⟩
      · unfold Yields
        rw [Act.exec_list, hrun]
        exact ⟨rfl, fun hpfx => absurd hpfx hv⟩

theorem getLast?_tokenScope (a : Bytes) : (e.tokenScope a).getLast? = some slash := by
  have hslash : str "/" = [slash] := by decide_cbv
  rw [Engine.tokenScope, hslash, List.getLast?_concat]

theorem validPrefix_tokenScope (a : Bytes) : validPrefix (e.tokenScope a) = true := by
  have hslash : str "/" = [slash] := by decide_cbv
  have hkey := validKey_append_hexEncode e.validKey_pfx (e.sha256.sum_ne_nil a)
  rw [Engine.tokenScope, hslash, validPrefix, List.getLast?_concat, List.dropLast_concat]
  simp [hkey]

/-- With room for the longest key, everything in a cubbyhole goes. -/
theorem destroy_spec (hworks : env.Works) (hvalid : ∀ key ∈ w.store, validKey key = true) (a : Bytes) :
    ∃ bound, ∀ depth ≥ bound, ∃ w', exec env.answer (e.destroy depth a) w = (.ok (), w') ∧
      Store.Cleared (e.tokenScope a <+: ·) w.store w'.store := by
  refine ⟨w.store.keys.sup List.length + 1, fun depth hdepth => ?_⟩
  have hreaches : Reaches w.store (e.tokenScope a) depth := by
    refine ⟨validPrefix_tokenScope a, by omega, fun key hkey => ?_⟩
    have hle : key.length ≤ w.store.keys.sup List.length :=
      Finset.le_sup (f := List.length) (Finmap.mem_keys.mpr hkey)
    omega
  have htree : Clears env.answer World.store (e.tokenScope a <+: ·) False
      (deleteTree depth (e.tokenScope a)) w :=
    (deleteTree_spec (prunes_of_works hworks) hvalid depth (getLast?_tokenScope a) fun _ hkey => hkey).mono
      (fun _ _ hok => hok) fun _ _ hf => ⟨hf.1, hf.2 hreaches⟩
  have hdestroy : Yields env.answer (e.destroy depth a) w
      (fun _ w' => Store.Cleared (e.tokenScope a <+: ·) w.store w'.store) fun _ _ => False :=
    Act.yields_context (htree.mono (fun _ _ hok => hok) fun _ _ hf => hf.2)
  obtain ⟨_, w', hrun, hcleared⟩ := hdestroy.returns
  exact ⟨w', hrun, hcleared⟩

/--
**Cubbyholes are isolated.**  What a token is told in a run of calls is what it is told
when only its own calls are made.  Destroying a cubbyhole returns, however deep it is:
every key in it is gone then, and every other key is as it was.
-/
theorem cubbyholes_isolated (e : Engine δ) (hworks : env.Works) (w : World)
    (hvalid : ∀ key ∈ w.store, validKey key = true) :
    (∀ depth requests b, (e.run env depth requests w).1.filter (·.1 = b)
      = (e.run env depth (requests.filter (·.tokenID = b)) w).1) ∧
    ∀ a, ∃ bound, ∀ depth ≥ bound, ∃ w', exec env.answer (e.destroy depth a) w = (.ok (), w') ∧
      ∀ key, w'.store.lookup key = if e.tokenScope a <+: key then none else w.store.lookup key := by
  refine ⟨fun depth requests b => filter_run hworks depth b requests fun _ _ => rfl, fun a => ?_⟩
  obtain ⟨bound, hbound⟩ := destroy_spec (e := e) hworks hvalid a
  refine ⟨bound, fun depth hdepth => ?_⟩
  obtain ⟨w', hrun, hcleared⟩ := hbound depth hdepth
  refine ⟨w', hrun, fun key => ?_⟩
  split_ifs with hkey
  · exact hcleared.gone key hkey
  · rcases hcleared.pruned key with hkept | ⟨hin, -⟩
    · exact hkept
    · exact absurd hin hkey

/-- The engine of the vault, with a hash that hides nothing. -/
def Engine.transparent : Engine Bytes where
  sha256 := Hash.transparent 0
  json := ⟨some, some, Kv.DataJson.read_back⟩
  pfx := str "cubbyhole"
  validKey_pfx := by decide +kernel

/-- A second token destroys its cubbyhole between a write and a read of the first. -/
theorem cubbyholes_isolated_between :
    let e := Engine.transparent
    let requests : List (Request Bytes) :=
      [⟨[1], .write (str "a/b") [7]⟩, ⟨[2], .write (str "a/b") [8]⟩, ⟨[2], .destroy⟩,
        ⟨[1], .read (str "a/b")⟩]
    (e.run .faultless 9 requests ⟨∅, 0⟩).1.filter (·.1 = [1])
      = (e.run .faultless 9 (requests.filter (·.tokenID = [1])) ⟨∅, 0⟩).1 :=
  (cubbyholes_isolated Engine.transparent works_faultless ⟨∅, 0⟩ (by simp [Finmap.notMem_empty])).1 9 _ [1]

end UbixVault.Cubbyhole
