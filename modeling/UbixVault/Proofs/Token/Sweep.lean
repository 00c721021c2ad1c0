/-
What a sweep removes.

A sweep revokes tree after tree and leaves a tree it cannot revoke to the next sweep.
`Removal` fixes what a revocation may remove; its invariant is kept by the removal of one
record with its entry, provided that the children of the token have gone before and that
the callback has succeeded.  It is then carried along the children of a token, the levels
of a tree and the names a sweep has listed.
-/
import UbixVault.Proofs.Token.Woven

namespace UbixVault

open Program

/-! ### The outside of a sweep -/

/-- The callback fails exactly for the tokens in `bad`, and nothing else fails. -/
structure Env.FailsCleanup (env : Env) (bad : Bytes → Prop) : Prop where
  cleanup : ∀ n id, env.fails n (.cleanup id) = true ↔ bad id
  others : ∀ n call, (∀ id, call ≠ .cleanup id) → env.fails n call = false

namespace Env.FailsCleanup

variable {env : Env} {bad : Bytes → Prop} {s : World × List Call} {text : String}
  {err : Err → World × List Call → Prop}

theorem get (h : env.FailsCleanup bad) {key : Key} (hv : validKey key = true)
    {ok : Option Bytes → World × List Call → Prop}
    (hok : ok (s.1.store.lookup key) (s.1.next, s.2 ++ [.get key])) :
    Yields (journal env.answer) ((Act.get key).context text) s ok err := by
  refine Act.yields_context ?_
  unfold Yields
  rw [Act.exec_get, journal_eq (Env.answer_get (h.others _ _ nofun) hv)]
  exact hok

theorem list (h : env.FailsCleanup bad) {pfx : Key} (hv : validPrefix pfx = true)
    {ok : List Key → World × List Call → Prop}
    (hok : ok (s.1.store.list pfx) (s.1.next, s.2 ++ [.list pfx])) :
    Yields (journal env.answer) ((Act.list pfx).context text) s ok err := by
  refine Act.yields_context ?_
  unfold Yields
  rw [Act.exec_list, journal_eq (Env.answer_list (h.others _ _ nofun) hv)]
  exact hok

theorem delete (h : env.FailsCleanup bad) {key : Key} (hv : validKey key = true)
    {ok : Unit → World × List Call → Prop}
    (hok : ok () (s.1.write (s.1.store.erase key), s.2 ++ [.delete key])) :
    Yields (journal env.answer) (Act.delete key) s ok err := by
  unfold Yields
  rw [Act.exec_delete, journal_eq (Env.answer_delete (h.others _ _ nofun) hv)]
  exact hok

theorem callback (h : env.FailsCleanup bad) {id : Bytes} {ok : Unit → World × List Call → Prop}
    (hok : ¬ bad id → ok () (s.1.next, s.2 ++ [.cleanup id]))
    (herr : bad id → err .outside (s.1.next, s.2 ++ [.cleanup id])) :
    Yields (journal env.answer) (Act.cleanup id) s ok err := by
  unfold Yields
  rw [Act.exec_cleanup]
  by_cases hbad : bad id
  · have hanswer : env.answer s.1 (.cleanup id) = (.error .outside, s.1.next) :=
      Env.guarded_fail ((h.cleanup _ id).mpr hbad)
    rw [journal_eq hanswer]
    exact herr hbad
  · have hfine : env.fails s.1.tick (.cleanup id) = false := by
      rw [← Bool.not_eq_true, h.cleanup]
      exact hbad
    have hanswer : env.answer s.1 (.cleanup id) = (.ok (), s.1.next) := Env.guarded_ok hfine
    rw [journal_eq hanswer]
    exact hok hbad

end Env.FailsCleanup

/-! ### What may be removed -/

/-- A store before a revocation, and the tokens the revocation may remove. -/
structure Removal where
  tokens : TokenStore
  start : Store
  bad : Bytes → Prop
  cleans : Bool
  may : Token → Prop
  closed : ∀ p t, tokens.ParentOf start p t → may p → may t

namespace Removal

variable {R : Removal} {env : Env} {s s' : World × List Call} {id : Bytes} {t : Token} {n : Nat}

/-- The record of the token is no longer there. -/
def Gone (R : Removal) (s : World × List Call) (id : Bytes) : Prop := R.tokens.storeKey id ∉ s.1.store

/-- A record is only deleted after the callback for its token. -/
def CleanedBefore (R : Removal) (earlier : List Call) (call : Call) : Prop :=
  ∀ id, call = .delete (R.tokens.storeKey id) → .cleanup id ∈ earlier

/-- What holds after any part of a revocation that has removed `n` records. -/
structure Inv (R : Removal) (n : Nat) (s : World × List Call) : Prop where
  woven : R.tokens.Woven s.1.store
  kept : ∀ id, ¬ R.Gone s id → s.1.store.lookup (R.tokens.storeKey id) = R.start.lookup (R.tokens.storeKey id)
  permitted : ∀ t, R.tokens.Stored R.start t → R.Gone s t.id → R.may t
  succeeded : R.cleans = true → ∀ t, R.tokens.Stored R.start t → R.Gone s t.id → ¬ R.bad t.id
  children : ∀ p t, R.tokens.ParentOf R.start p t → R.Gone s p.id → R.Gone s t.id
  cleaned : R.cleans = true → Run.Throughout R.CleanedBefore s.2
  deleted : ∀ id, .delete (R.tokens.storeKey id) ∈ s.2 ↔ R.tokens.storeKey id ∈ R.start ∧ R.Gone s id
  count : n + (TokenStore.recordKeys s.1.store).card = (TokenStore.recordKeys R.start).card

/-- What has gone does not come back. -/
def Shrinks (R : Removal) (s s' : World × List Call) : Prop := ∀ id, R.Gone s id → R.Gone s' id

theorem Shrinks.trans {s'' : World × List Call} (h : R.Shrinks s s') (h' : R.Shrinks s' s'') :
    R.Shrinks s s'' :=
  fun id hid => h' id (h id hid)

namespace Inv

theorem start {w : World} (hwoven : R.tokens.Woven w.store) (hstart : R.start = w.store) :
    R.Inv 0 (w, []) := by
  have hgone : ∀ t, R.tokens.Stored R.start t → ¬ R.Gone (w, []) t.id := by
    intro t ht hgone
    rw [hstart] at ht
    exact hgone ht.mem
  constructor
  case woven => exact hwoven
  case kept =>
    intro id _
    rw [hstart]
  case permitted => exact fun t ht hid => absurd hid (hgone t ht)
  case succeeded => exact fun _ t ht hid => absurd hid (hgone t ht)
  case children => exact fun p t hchild hid => absurd hid (hgone p hchild.1)
  case cleaned => exact fun _ => Run.throughout_nil
  case deleted =>
    intro id
    refine iff_of_false (List.not_mem_nil) fun ⟨hmem, hid⟩ => hid ?_
    rwa [hstart] at hmem
  case count => rw [hstart, Nat.zero_add]

/-- A call that leaves the store alone and deletes no record. -/
theorem silent (h : R.Inv n s) {w : World} {call : Call} (hstore : w.store = s.1.store)
    (hcall : ∀ id, call ≠ .delete (R.tokens.storeKey id)) : R.Inv n (w, s.2 ++ [call]) := by
  have hgone : ∀ id, R.Gone (w, s.2 ++ [call]) id ↔ R.Gone s id := by
    intro id
    unfold Gone
    rw [hstore]
  constructor
  case woven => exact hstore ▸ h.woven
  case kept =>
    intro id hid
    rw [hgone] at hid
    rw [hstore, h.kept id hid]
  case permitted => exact fun t ht hid => h.permitted t ht ((hgone _).mp hid)
  case succeeded => exact fun hcleans t ht hid => h.succeeded hcleans t ht ((hgone _).mp hid)
  case children => exact fun p t hchild hid => (hgone _).mpr (h.children p t hchild ((hgone _).mp hid))
  case cleaned =>
    intro hcleans
    exact Run.throughout_append.mpr ⟨h.cleaned hcleans, fun id heq => absurd heq (hcall id)⟩
  case deleted =>
    intro id
    rw [hgone, List.mem_append, List.mem_singleton, or_iff_left (fun heq => hcall id heq.symm), h.deleted]
  case count => rw [hstore, h.count]

theorem stored (h : R.Inv n s) (ht : R.tokens.Stored s.1.store t) : R.tokens.Stored R.start t :=
  ⟨ht.wf, by rw [← h.kept t.id fun hgone => hgone ht.mem, ht.record]⟩

theorem stored_now (h : R.Inv n s) (ht : R.tokens.Stored R.start t) (hthere : ¬ R.Gone s t.id) :
    R.tokens.Stored s.1.store t :=
  ⟨ht.wf, by rw [h.kept t.id hthere, ht.record]⟩

/-- The step: a token whose children have gone and whose callback has succeeded loses its record and its entry. -/
theorem remove (h : R.Inv n s) {w : World} (ht : R.tokens.Stored s.1.store t) (hmay : R.may t)
    (hchildren : ∀ x, R.tokens.ParentOf R.start t x → R.Gone s x.id)
    (hcleaned : R.cleans = true → ¬ R.bad t.id ∧ .cleanup t.id ∈ s.2)
    (hstore : w.store = R.tokens.without s.1.store t) :
    R.Inv (n + 1) (w, s.2 ++ [.delete (R.tokens.storeKey t.id)]) := by
  have hgone : ∀ id, R.Gone (w, s.2 ++ [.delete (R.tokens.storeKey t.id)]) id ↔ id = t.id ∨ R.Gone s id := by
    intro id
    unfold Gone
    rw [hstore, TokenStore.mem_without]
    tauto
  have hmine : ∀ x, R.tokens.Stored R.start x → x.id = t.id → x = t :=
    fun x hx hid => hx.unique (h.stored ht) hid
  constructor
  case woven => exact hstore ▸ h.woven.remove ht
  case kept =>
    intro id hid
    rw [hgone, not_or] at hid
    rw [hstore, TokenStore.lookup_record_without hid.1, h.kept id hid.2]
  case permitted =>
    intro x hx hid
    rcases (hgone _).mp hid with hid | hid
    · exact hmine x hx hid ▸ hmay
    · exact h.permitted x hx hid
  case succeeded =>
    intro hcleans x hx hid
    rcases (hgone _).mp hid with hid | hid
    · exact hid ▸ (hcleaned hcleans).1
    · exact h.succeeded hcleans x hx hid
  case children =>
    intro p x hchild hid
    rcases (hgone _).mp hid with hid | hid
    · have hp := hmine p hchild.1 hid
      subst hp
      exact (hgone _).mpr (.inr (hchildren x hchild))
    · exact (hgone _).mpr (.inr (h.children p x hchild hid))
  case cleaned =>
    intro hcleans
    refine Run.throughout_append.mpr ⟨h.cleaned hcleans, fun id heq => ?_⟩
    rw [← R.tokens.storeKey_injective (Call.delete.inj heq)]
    exact (hcleaned hcleans).2
  case deleted =>
    intro id
    rw [hgone, List.mem_append, List.mem_singleton, h.deleted, Call.delete.injEq,
      R.tokens.storeKey_injective.eq_iff]
    have hmem : id = t.id → R.tokens.storeKey id ∈ R.start := fun hid => hid ▸ (h.stored ht).mem
    tauto
  case count =>
    rw [hstore, ← h.count, TokenStore.card_recordKeys_without ht]
    omega

end Inv

/-! ### One token -/

theorem Shrinks.of_store (h : s'.1.store = s.1.store) : R.Shrinks s s' := by
  intro id hid
  unfold Gone
  rwa [h]

/-- Children of the token, and the token itself, may be removed. -/
def MayWalk (R : Removal) (id : Bytes) : Prop :=
  ∀ t, R.tokens.Stored R.start t → t.id = id ∨ t.parentHash = R.tokens.hashID id → R.may t

theorem MayWalk.of_may (ht : R.tokens.Stored R.start t) (hmay : R.may t) : R.MayWalk t.id := by
  intro x hx hrel
  rcases hrel with hid | hchild
  · rwa [hx.unique ht hid]
  · exact R.closed t x ⟨ht, hx, hchild⟩ hmay

/-- How a part of a revocation ends, well or not: `base` records had been removed before it. -/
structure Ends (R : Removal) (base n : Nat) (s s' : World × List Call) : Prop where
  inv : R.Inv (base + n) s'
  shrinks : R.Shrinks s s'

variable {bad : Bytes → Prop} {base : Nat}

/-- The callback, if there is one. -/
theorem yields_runCleanup (hfails : env.FailsCleanup R.bad) (h : R.Inv (base + n) s) :
    YieldsState (journal env.answer) (TokenStore.runCleanup (callbackIf R.cleans) id) n s
      (fun _ n' s' => n' = n ∧ R.Inv (base + n) s' ∧ s'.1.store = s.1.store ∧
        (R.cleans = true → ¬ R.bad id ∧ .cleanup id ∈ s'.2))
      (fun _ n' s' => R.Ends base n' s s') := by
  unfold TokenStore.runCleanup callbackIf
  by_cases hcleans : R.cleans = true
  · rw [if_pos hcleans]
    refine YieldsState.stateless (hfails.callback (fun hok => ?_) fun _ => ?_)
    · exact ⟨rfl, h.silent rfl (by simp), rfl, fun _ => ⟨hok, by simp⟩⟩
    · exact ⟨h.silent rfl (by simp), .of_store rfl⟩
  · rw [if_neg hcleans]
    exact ⟨rfl, h, rfl, fun hc => absurd hc hcleans⟩

/-- The record and then the entry are deleted, and the token is counted. -/
theorem yields_deleteRecord (hfails : env.FailsCleanup R.bad) (h : R.Inv (base + n) s)
    (ht : R.tokens.Stored s.1.store t) (hdescends : R.tokens.Descends t) (hmay : R.may t)
    (hchildren : ∀ x, R.tokens.ParentOf R.start t x → R.Gone s x.id)
    (hcleaned : R.cleans = true → ¬ R.bad t.id ∧ .cleanup t.id ∈ s.2) {text : String} :
    YieldsState (journal env.answer) (do
        Program.stateless ((Act.delete (R.tokens.storeKey t.id)).context text)
        TokenStore.unindex t.parentHash (R.tokens.hashID t.id)
        modify (· + 1)) n s
      (fun _ n' s' => R.Ends base n' s s' ∧ R.Gone s' t.id)
      (fun _ n' s' => R.Ends base n' s s') := by
  have hends : ∀ w, w.store = R.tokens.without s.1.store t → ∀ log,
      R.Inv (base + n + 1) (w, log) → R.Ends base (n + 1) s (w, log) ∧ R.Gone (w, log) t.id := by
    intro w hstore log hinv
    have hgone : ∀ id, R.Gone (w, log) id ↔ id = t.id ∨ R.Gone s id := by
      intro id
      unfold Gone
      rw [hstore, TokenStore.mem_without]
      tauto
    exact ⟨⟨hinv, fun id hid => (hgone id).mpr (.inr hid)⟩, (hgone _).mpr (.inl rfl)⟩
  refine YieldsState.bind (YieldsState.stateless (Act.yields_context
    (hfails.delete (R.tokens.validKey_storeKey t.id) ?_)))
  unfold TokenStore.unindex
  rcases hdescends with hparent | ⟨p, hparent⟩
  · rw [if_neg (not_not.mpr hparent)]
    have hstore : s.1.store.erase (R.tokens.storeKey t.id) = R.tokens.without s.1.store t := by
      rw [TokenStore.without, if_neg (not_not.mpr hparent)]
    exact hends _ hstore _ (h.remove ht hmay hchildren hcleaned hstore)
  · have hne : t.parentHash ≠ [] := hparent ▸ R.tokens.hashID_ne_nil p
    rw [if_pos hne]
    have hstore : (s.1.store.erase (R.tokens.storeKey t.id)).erase
        (childKey t.parentHash (R.tokens.hashID t.id)) =
        R.tokens.without s.1.store t := by
      rw [TokenStore.without, if_pos hne]
    have hv : validKey (childKey t.parentHash (R.tokens.hashID t.id)) = true :=
      hparent ▸ R.tokens.validKey_indexKey p t.id
    refine YieldsState.bind (YieldsState.attempt (hfails.delete hv ?_))
    have hinv := h.remove (w := s.1.write (R.tokens.without s.1.store t)) ht hmay hchildren hcleaned rfl
    refine hends _ hstore _ (hinv.silent hstore fun id heq => ?_)
    exact TokenStore.childKey_ne_storeKey _ _ _ (Call.delete.inj heq)

/-- The record of a token goes, once its children have gone. -/
theorem yields_revokeRecord (hfails : env.FailsCleanup R.bad) (h : R.Inv (base + n) s) (hmay : R.MayWalk id)
    (hchildren : ∀ x, R.tokens.Stored R.start x → x.parentHash = R.tokens.hashID id → R.Gone s x.id) :
    YieldsState (journal env.answer) (R.tokens.revokeRecord (callbackIf R.cleans) id (R.tokens.hashID id)) n s
      (fun _ n' s' => R.Ends base n' s s' ∧ R.Gone s' id)
      (fun _ n' s' => R.Ends base n' s s') := by
  unfold TokenStore.revokeRecord
  refine YieldsState.bind (YieldsState.stateless (hfails.get (R.tokens.validKey_storeKey id) ?_))
  by_cases hgone : R.Gone s id
  · have hnone : s.1.store.lookup (R.tokens.storeKey id) = none := by
      rw [Finmap.lookup_eq_none]
      exact hgone
    rw [show storePrefix ++ R.tokens.hashID id = R.tokens.storeKey id from rfl, hnone]
    exact ⟨⟨h.silent rfl (by simp), .of_store rfl⟩, hgone⟩
  · obtain ⟨t, ht, rfl, hne, hdescends⟩ := h.woven.exists_stored (not_not.mp hgone)
    rw [show storePrefix ++ R.tokens.hashID t.id = R.tokens.storeKey t.id from rfl, ht.record]
    have hread : R.Inv (base + n) (s.1.next, s.2 ++ [.get (R.tokens.storeKey t.id)]) := h.silent rfl (by simp)
    refine YieldsState.bind ((yields_runCleanup hfails hread).mono ?_ ?_)
    · rintro - n' s' ⟨rfl, hinv, hstore, hcleaned⟩
      have hshrinks : R.Shrinks s s' := .of_store hstore
      rw [R.tokens.json.unmarshal_marshal t ht.wf]
      refine (yields_deleteRecord hfails hinv (hstore ▸ ht) hdescends
        (hmay t (h.stored ht) (.inl rfl)) ?_ hcleaned).mono
        ?_ ?_
      · exact fun x hchild => hshrinks _ (hchildren x hchild.2.1 hchild.2.2)
      · exact fun _ _ _ hends => ⟨⟨hends.1.inv, hshrinks.trans hends.1.shrinks⟩, hends.2⟩
      · exact fun _ _ _ hends => ⟨hends.inv, hshrinks.trans hends.shrinks⟩
    · exact fun _ n' s' hends => ⟨hends.inv, Shrinks.trans (.of_store rfl) hends.shrinks⟩

/-! ### A tree -/

/-- A token is revoked with everything below it, as far as the callback succeeds. -/
def Revokes (R : Removal) (env : Env) (walk : Bytes → Bytes → TokenStore.RevokeM Unit) : Prop :=
  ∀ base n s id, R.Inv (base + n) s → R.MayWalk id →
    YieldsState (journal env.answer) (walk id (R.tokens.hashID id)) n s
      (fun _ n' s' => R.Ends base n' s s' ∧ R.Gone s' id)
      (fun _ n' s' => R.Ends base n' s s')

/-- The children that were listed go one by one, each with its entry. -/
theorem yields_revokeChildren (hfails : env.FailsCleanup R.bad)
    {walk : Bytes → Bytes → TokenStore.RevokeM Unit}
    (hwalk : R.Revokes env walk) (hmay : R.MayWalk id) :
    ∀ (names : List Key) (n : Nat) (s : World × List Call),
    R.Inv (base + n) s → (∀ name ∈ names, ∃ c, name = R.tokens.hashID c ∧
      ∀ x, R.tokens.Stored R.start x → x.id = c → x.parentHash = R.tokens.hashID id) →
    YieldsState (journal env.answer) (R.tokens.revokeChildren walk (R.tokens.hashID id) names) n s
      (fun _ n' s' => R.Ends base n' s s' ∧ ∀ c, R.tokens.hashID c ∈ names → R.Gone s' c)
      (fun _ n' s' => R.Ends base n' s s')
  | [], n, s, h, _ => ⟨⟨h, fun _ hid => hid⟩, fun c hc => absurd hc List.not_mem_nil⟩
  | name :: rest, n, s, h, hnames => by
      obtain ⟨⟨c, rfl, hparent⟩, hrest⟩ := List.forall_mem_cons.mp hnames
      unfold TokenStore.revokeChildren
      refine YieldsState.bind (YieldsState.stateless (hfails.get (R.tokens.validKey_storeKey c) ?_))
      have hread : R.Inv (base + n) (s.1.next, s.2 ++ [.get (R.tokens.storeKey c)]) := h.silent rfl (by simp)
      have hsub : YieldsState (journal env.answer) (R.tokens.revokeStored walk (R.tokens.hashID c)
          (s.1.store.lookup (R.tokens.storeKey c))) n (s.1.next, s.2 ++ [.get (R.tokens.storeKey c)])
          (fun _ n' s' => R.Ends base n' s s' ∧ R.Gone s' c) (fun _ n' s' => R.Ends base n' s s') := by
        unfold TokenStore.revokeStored
        by_cases hgone : R.Gone s c
        · rw [Finmap.lookup_eq_none.mpr hgone]
          exact ⟨⟨hread, .of_store rfl⟩, hgone⟩
        · obtain ⟨t, ht, rfl, hne, -⟩ := h.woven.exists_stored (not_not.mp hgone)
          rw [ht.record, Option.bind_some, R.tokens.json.unmarshal_marshal t ht.wf]
          dsimp only
          rw [if_pos hne]
          have hstart := h.stored ht
          have hchild : R.MayWalk t.id := .of_may hstart (hmay t hstart (.inr (hparent t hstart rfl)))
          refine (hwalk base n _ t.id hread hchild).mono ?_ ?_
          · exact fun _ _ _ hends => ⟨⟨hends.1.inv, Shrinks.trans (.of_store rfl) hends.1.shrinks⟩, hends.2⟩
          · exact fun _ _ _ hends => ⟨hends.inv, Shrinks.trans (.of_store rfl) hends.shrinks⟩
      refine YieldsState.bind (hsub.mono ?_ fun _ _ _ hends => hends)
      rintro - n' s' ⟨hends, hgone⟩
      refine YieldsState.bind (YieldsState.stateless (Act.yields_context
        (hfails.delete (R.tokens.validKey_indexKey id c) ?_)))
      have hsame : s'.1.store.erase (R.tokens.indexKey id c) = s'.1.store := hends.inv.woven.erase_entry hgone
      have hinv : R.Inv (base + n') (s'.1.write (s'.1.store.erase (R.tokens.indexKey id c)),
          s'.2 ++ [.delete (R.tokens.indexKey id c)]) :=
        hends.inv.silent hsame fun x heq => TokenStore.indexKey_ne_storeKey _ _ _ (Call.delete.inj heq)
      have hstep : R.Shrinks s' (s'.1.write (s'.1.store.erase (R.tokens.indexKey id c)),
          s'.2 ++ [.delete (R.tokens.indexKey id c)]) := .of_store hsame
      have hshrinks := hends.shrinks.trans hstep
      refine (yields_revokeChildren hfails hwalk hmay rest n' _ hinv hrest).mono ?_ ?_
      · rintro - n'' s'' ⟨hends', hgone'⟩
        refine ⟨⟨hends'.inv, hshrinks.trans hends'.shrinks⟩, fun c' hc' => ?_⟩
        rcases List.mem_cons.mp hc' with heq | hc'
        · rw [R.tokens.hashID_injective heq]
          exact hends'.shrinks _ (hstep _ hgone)
        · exact hgone' c' hc'
      · exact fun _ _ _ hends' => ⟨hends'.inv, hshrinks.trans hends'.shrinks⟩

/-- The levels of a tree. -/
theorem revokes_revokeTree (hfails : env.FailsCleanup R.bad) :
    ∀ fuel, R.Revokes env (R.tokens.revokeTree (callbackIf R.cleans) fuel)
  | 0, base, n, s, id, h, _ => ⟨h, fun _ hid => hid⟩
  | fuel + 1, base, n, s, id, h, hmay => by
      unfold TokenStore.revokeTree
      refine YieldsState.bind (YieldsState.stateless (hfails.list (R.tokens.validPrefix_indexPrefix id) ?_))
      have hread : R.Inv (base + n) (s.1.next, s.2 ++ [.list (R.tokens.indexPrefix id)]) :=
        h.silent rfl (by simp)
      have hlisted : ∀ name, name ∈ s.1.store.list (R.tokens.indexPrefix id) ↔
          ∃ c, name = R.tokens.hashID c ∧ R.tokens.indexKey id c ∈ s.1.store :=
        fun name => TokenStore.mem_list_indexPrefix h.woven.indexed
      refine YieldsState.bind
        ((yields_revokeChildren hfails (revokes_revokeTree hfails fuel) hmay _ n _ hread ?_).mono
        ?_ fun _ _ _ hends => ⟨hends.inv, Shrinks.trans (.of_store rfl) hends.shrinks⟩)
      · intro name hname
        obtain ⟨c, rfl, hentry⟩ := (hlisted name).mp hname
        refine ⟨c, rfl, fun x hx hid => ?_⟩
        obtain ⟨x', hx', hid', hparent⟩ := (h.woven.index id c).mp hentry
        rwa [hx.unique (h.stored hx') (hid.trans hid'.symm)]
      · rintro - n' s' ⟨hends, hgone⟩
        -- A child that is still there was listed, so it is not there.
        refine (yields_revokeRecord hfails hends.inv hmay fun x hx hparent => ?_).mono ?_ ?_
        · by_contra hthere
          have hbefore : ¬ R.Gone s x.id := fun hx' => hthere (hends.shrinks _ hx')
          have hentry := (h.woven.index id x.id).mpr ⟨x, h.stored_now hx hbefore, rfl, hparent⟩
          exact hthere (hgone x.id ((hlisted _).mpr ⟨x.id, rfl, hentry⟩))
        · exact fun _ _ _ h' =>
            ⟨⟨h'.1.inv, (Shrinks.of_store rfl).trans (hends.shrinks.trans h'.1.shrinks)⟩, h'.2⟩
        · exact fun _ _ _ h' => ⟨h'.inv, (Shrinks.of_store rfl).trans (hends.shrinks.trans h'.shrinks)⟩

/-- A revocation from anywhere, whether it succeeds or not. -/
theorem Inv.revokeTree (hfails : env.FailsCleanup R.bad) (h : R.Inv base s) (hmay : R.MayWalk id)
    (fuel : Nat) :
    let run := ((R.tokens.revokeTree (callbackIf R.cleans) fuel id (R.tokens.hashID id)).run.run 0).run
      (journal env.answer) s
    R.Inv (base + run.1.2) run.2 := by
  have hyields : YieldsState (journal env.answer)
      (R.tokens.revokeTree (callbackIf R.cleans) fuel id (R.tokens.hashID id)) 0 s
      (fun _ n' s' => R.Inv (base + n') s') (fun _ n' s' => R.Inv (base + n') s') :=
    (revokes_revokeTree hfails fuel base 0 s id h hmay).mono (fun _ _ _ h' => h'.1.inv) fun _ _ _ h' => h'.inv
  exact YieldsState.outcome_holds (O := fun _ n' s' => R.Inv (base + n') s') hyields

/-! ### A sweep -/

/-- The trees below the names that were listed are revoked one by one. -/
theorem sweepEach_spec (hfails : env.FailsCleanup R.bad) {limit : Int} {now : Time}
    (hmay : ∀ t, R.tokens.Stored R.start t → t.expired now = true → R.may t) :
    ∀ (names : List Key) (removed : Nat) (s : World × List Call), R.Inv removed s →
      (∀ name ∈ names, ∃ id, name = R.tokens.hashID id) → ∃ removed' s',
        (R.tokens.sweepEach limit (callbackIf R.cleans) now names removed).run (journal env.answer) s =
          ((.ok (), removed'), s') ∧ R.Inv removed' s'
  | [], removed, s, h, _ => ⟨removed, s, rfl, h⟩
  | name :: names, removed, s, h, hnames => by
      obtain ⟨⟨id, rfl⟩, hrest⟩ := List.forall_mem_cons.mp hnames
      unfold TokenStore.sweepEach
      by_cases hlimit : 0 < limit ∧ limit ≤ removed
      · rw [if_pos hlimit]
        exact ⟨removed, s, rfl, h⟩
      rw [if_neg hlimit]
      have hread : R.Inv removed (s.1.next, s.2 ++ [.get (R.tokens.storeKey id)]) := h.silent rfl (by simp)
      have hget : Program.exec (journal env.answer)
          ((Act.get (R.tokens.storeKey id)).context "token: read") s =
          (.ok (s.1.store.lookup (R.tokens.storeKey id)),
            (s.1.next, s.2 ++ [.get (R.tokens.storeKey id)])) := by
        obtain ⟨_, _, hrun, rfl, rfl⟩ := (hfails.get (R.tokens.validKey_storeKey id) ⟨rfl, rfl⟩ :
          Yields (journal env.answer) ((Act.get (R.tokens.storeKey id)).context "token: read") s
            (fun r s' => r = s.1.store.lookup (R.tokens.storeKey id) ∧
              s' = (s.1.next, s.2 ++ [.get (R.tokens.storeKey id)])) fun _ _ => False).returns
        exact hrun
      rw [run_bind]
      have hrun : (((Act.get (storePrefix ++ R.tokens.hashID id)).context "token: read").run).run
          (journal env.answer) s = _ := hget
      rw [hrun]
      dsimp only
      by_cases hgone : R.Gone s id
      · rw [Finmap.lookup_eq_none.mpr hgone]
        exact sweepEach_spec hfails hmay names removed _ hread hrest
      obtain ⟨t, ht, rfl, -, -⟩ := h.woven.exists_stored (not_not.mp hgone)
      rw [ht.record, Option.bind_some, R.tokens.json.unmarshal_marshal t ht.wf]
      dsimp only
      by_cases hexpired : t.expired now = true
      · have hstart := h.stored ht
        have hinv := hread.revokeTree hfails (.of_may hstart (hmay t hstart hexpired))
            (TokenStore.maxTreeDepth + 1)
        rw [hexpired, Bool.not_true, if_neg Bool.false_ne_true, run_bind]
        exact sweepEach_spec hfails hmay names _ _ hinv hrest
      · rw [Bool.not_eq_true] at hexpired
        rw [hexpired]
        exact sweepEach_spec hfails hmay names removed _ hread hrest

/-- A sweep removes what the tokens it finds expired allow. -/
theorem Inv.sweepExpired (hfails : env.FailsCleanup R.bad) (h : R.Inv 0 s) (limit : Int)
    (hmay : ∀ t, R.tokens.Stored R.start t → t.expired (env.clock (s.1.tick + 1)) = true → R.may t) :
    ∃ removed s', (R.tokens.sweepExpired limit (callbackIf R.cleans)).run (journal env.answer) s =
      ((.ok (), removed), s') ∧ R.Inv removed s' := by
  obtain ⟨_, _, hlist, rfl, rfl⟩ := (hfails.list (by decide_cbv) ⟨rfl, rfl⟩ :
    Yields (journal env.answer) ((Act.list storePrefix).context "token: list") s
      (fun r s' => r = s.1.store.list storePrefix ∧ s' = (s.1.next, s.2 ++ [.list storePrefix]))
      fun _ _ => False).returns
  have hrun : (((Act.list storePrefix).context "token: list").run).run (journal env.answer) s = _ := hlist
  unfold TokenStore.sweepExpired
  rw [run_bind, hrun]
  dsimp only
  rw [run_bind, run_perform]
  have hlisted : R.Inv 0 (s.1.next, s.2 ++ [.list storePrefix]) := h.silent rfl (by simp)
  have hread : R.Inv 0 ((env.answer s.1.next .now).2, s.2 ++ [.list storePrefix] ++ [.now]) :=
    hlisted.silent rfl (by simp)
  exact sweepEach_spec hfails hmay _ 0 _ hread fun name hname => h.woven.mem_list_records hname

end Removal

/-! ### Every store that is reached -/

variable {aliaser : Option Aliaser} {env : Env} {bad : Bytes → Prop} {s s' : TokenState}

/-- The removal that may take anything. -/
def Removal.anything (st : TokenStore) (store : Store) (bad : Bytes → Prop) (cleans : Bool) : Removal :=
  ⟨st, store, bad, cleans, fun _ => True, fun _ _ _ _ => trivial⟩

/-- Storage works, new identifiers are new, and callbacks fail for a fixed set of tokens. -/
def TokenOperation.Fair (s : TokenState) : TokenOperation → Prop
  | .call a => a.Fresh s
  | .revoke env _ _ => ∃ bad, env.FailsCleanup bad
  | .sweep env _ => ∃ bad, env.FailsCleanup bad

/-- The states that fair operations lead to from an empty store. -/
def TokenState.Reached (aliaser : Option Aliaser) (st : TokenStore) (tick : Nat) : TokenState → Prop :=
  Run.Reachable (fun s op s' => s' = s.operate aliaser op) (fun s op => op.Fair s) ⟨st, ⟨∅, tick⟩⟩

namespace TokenStore.Woven

theorem revokeAll (h : s.tokens.Woven s.world.store) (hfails : env.FailsCleanup bad) (id : Bytes)
    (cleans : Bool) :
    s.tokens.Woven ((s.tokens.revokeAll id (callbackIf cleans)).run env.answer s.world).2.store := by
  let R := Removal.anything s.tokens s.world.store bad cleans
  have hstart : R.Inv 0 (s.world, []) := .start h rfl
  have hinv := hstart.revokeTree hfails (fun _ _ _ => trivial : R.MayWalk id) (maxTreeDepth + 1)
  rw [run_journal] at hinv
  exact hinv.woven

theorem sweepExpired (h : s.tokens.Woven s.world.store) (hfails : env.FailsCleanup bad) (limit : Int) :
    s.tokens.Woven ((s.tokens.sweepExpired limit (callbackIf true)).run env.answer s.world).2.store := by
  let R := Removal.anything s.tokens s.world.store bad true
  have hstart : R.Inv 0 (s.world, []) := .start h rfl
  obtain ⟨removed, s', hrun, hinv⟩ := hstart.sweepExpired hfails limit fun _ _ _ => trivial
  rw [run_journal] at hrun
  obtain rfl := (Prod.mk.inj hrun).2
  exact hinv.woven

/-- Every operation that completes keeps records and entries together. -/
theorem operate (hapart : ∀ a ∈ aliaser, a.Apart) (h : s.tokens.Woven s.world.store) {op : TokenOperation}
    (hfair : op.Fair s) : (s.operate aliaser op).tokens.Woven (s.operate aliaser op).world.store := by
  cases op with
  | call a => exact (h.step hapart hfair).configure a.call
  | revoke env id cleans =>
    obtain ⟨bad, hfails⟩ := hfair
    exact h.revokeAll hfails id cleans
  | sweep env limit =>
    obtain ⟨bad, hfails⟩ := hfair
    exact h.sweepExpired hfails limit

end TokenStore.Woven

theorem TokenState.Reached.woven {st : TokenStore} {tick : Nat} (hapart : ∀ a ∈ aliaser, a.Apart)
    (h : TokenState.Reached aliaser st tick s) : s.tokens.Woven s.world.store := by
  induction h with
  | start => exact .empty
  | step _ hfair hstep ih =>
    subst hstep
    exact ih.operate hapart hfair

/-! ### The result -/

namespace TokenStore

/-- The token had expired, or an ancestor of it had. -/
def Sweepable (st : TokenStore) (store : Store) (now : Time) (t : Token) : Prop :=
  ∃ a, st.Stored store a ∧ a.expired now = true ∧ Relation.ReflTransGen (st.ParentOf store) a t

/-- What a sweep that made `calls` and returned `removed` has done. -/
structure Swept (st : TokenStore) (bad : Bytes → Prop) (now : Time) (before after : Store) (calls : List Call)
    (removed : Nat) : Prop where
  permitted : ∀ key ∈ recordKeys before, key ∉ after →
    ∃ t, st.Stored before t ∧ key = st.storeKey t.id ∧ st.Sweepable before now t
  deleted : ∀ id, .delete (st.storeKey id) ∈ calls ↔ st.storeKey id ∈ before ∧ st.storeKey id ∉ after
  cleaned : ∀ earlier id later, calls = earlier ++ .delete (st.storeKey id) :: later →
    .cleanup id ∈ earlier ∧ ¬ bad id
  failed : ∀ t, st.Stored before t → bad t.id → ∀ a, Relation.ReflTransGen (st.ParentOf before) a t →
    after.lookup (st.storeKey a.id) = before.lookup (st.storeKey a.id)
  kept : ∀ key ∈ recordKeys after, after.lookup key = before.lookup key
  count : removed = (recordKeys before \ recordKeys after).card

end TokenStore

/-- What a sweep may remove from a store. -/
def Removal.sweep (st : TokenStore) (store : Store) (bad : Bytes → Prop) (now : Time) : Removal where
  tokens := st
  start := store
  bad := bad
  cleans := true
  may := st.Sweepable store now
  closed p t hchild hp := by
    obtain ⟨a, ha, hexpired, hchain⟩ := hp
    exact ⟨a, ha, hexpired, hchain.tail hchild⟩

namespace Removal.Inv

variable {R : Removal} {n : Nat} {s : World × List Call}

/-- With a token everything below it has gone. -/
theorem descendants (h : R.Inv n s) {p t : Token}
    (hchain : Relation.ReflTransGen (R.tokens.ParentOf R.start) p t)
    (hgone : R.Gone s p.id) : R.Gone s t.id := by
  induction hchain with
  | refl => exact hgone
  | tail _ hchild ih => exact h.children _ _ hchild ih

theorem recordKeys_subset (h : R.Inv n s) :
    TokenStore.recordKeys s.1.store ⊆ TokenStore.recordKeys R.start := by
  intro key hkey
  obtain ⟨hmem, hpfx⟩ := TokenStore.mem_recordKeys.mp hkey
  obtain ⟨id, rfl⟩ := h.woven.named key hmem hpfx
  refine TokenStore.mem_recordKeys.mpr ⟨?_, hpfx⟩
  rwa [← Finmap.lookup_isSome, ← h.kept id (not_not.mpr hmem), Finmap.lookup_isSome]

/-- The invariant of a sweep says what the sweep has done. -/
theorem swept {st : TokenStore} {store : Store} {bad : Bytes → Prop} {now : Time} (hwoven : st.Woven store)
    (h : (Removal.sweep st store bad now).Inv n s) : st.Swept bad now store s.1.store s.2 n where
  permitted key hkey hgone := by
    obtain ⟨hmem, hpfx⟩ := TokenStore.mem_recordKeys.mp hkey
    obtain ⟨id, rfl⟩ := hwoven.named key hmem hpfx
    obtain ⟨t, ht, rfl, -⟩ := hwoven.exists_stored hmem
    exact ⟨t, ht, rfl, h.permitted t ht hgone⟩
  deleted := h.deleted
  cleaned earlier id later hcalls := by
    refine ⟨h.cleaned rfl earlier _ later hcalls id rfl, ?_⟩
    have hdeleted := (h.deleted id).mp (by simp [hcalls, sweep])
    obtain ⟨t, ht, rfl, -⟩ := hwoven.exists_stored hdeleted.1
    exact h.succeeded rfl t ht hdeleted.2
  failed t ht hbad a hchain :=
    h.kept a.id fun hgone => h.succeeded rfl t ht (h.descendants hchain hgone) hbad
  kept key hkey := by
    obtain ⟨hmem, hpfx⟩ := TokenStore.mem_recordKeys.mp hkey
    obtain ⟨id, rfl⟩ := h.woven.named key hmem hpfx
    exact h.kept id (not_not.mpr hmem)
  count := by
    have hcount := h.count
    have hcard := Finset.card_sdiff_of_subset h.recordKeys_subset
    have hstart : (Removal.sweep st store bad now).start = store := rfl
    rw [hstart] at hcount hcard
    omega

end Removal.Inv

/--
**A sweep removes only what it may.**  In every store that fair operations lead to, whatever
the time and the limit and whichever callbacks fail: what is deleted had expired or
descends from something that had, its callback had succeeded before, a token whose
callback fails keeps its record and so do its ancestors, and the sweep returns how many
records it has deleted.
-/
theorem sweep_removes_only {st : TokenStore} {tick : Nat} (hapart : ∀ a ∈ aliaser, a.Apart)
    (hreached : TokenState.Reached aliaser st tick s) (hfails : env.FailsCleanup bad) (limit : Int) :
    let sweep := s.tokens.sweepExpired limit (callbackIf true)
    ∃ removed, (sweep.run env.answer s.world).1 = (.ok (), removed) ∧
      s.tokens.Swept bad (env.clock (s.world.tick + 1)) s.world.store (sweep.run env.answer s.world).2.store
        (sweep.trace env.answer s.world) removed := by
  intro sweep
  have hwoven := hreached.woven hapart
  let R := Removal.sweep s.tokens s.world.store bad (env.clock (s.world.tick + 1))
  have hstart : R.Inv 0 (s.world, []) := .start hwoven rfl
  obtain ⟨removed, s', hrun, hinv⟩ := hstart.sweepExpired hfails limit fun t ht hexpired =>
    ⟨t, ht, hexpired, .refl⟩
  rw [run_journal, List.nil_append] at hrun
  obtain ⟨hresult, rfl⟩ := Prod.mk.inj hrun
  exact ⟨removed, hresult, hinv.swept hwoven⟩

/-! ### A token with a child, and one whose callback fails -/

/-- The callback fails for one token, and the time is five. -/
def Env.keeping (id : Bytes) : Env :=
  { Env.failing fun _ call => decide (call = .cleanup id) with clock := fun _ => 5 }

theorem failsCleanup_keeping (id : Bytes) : (Env.keeping id).FailsCleanup (· = id) where
  cleanup n id' := by
    show decide (Call.cleanup id' = .cleanup id) = true ↔ _
    simp
  others n call hcall := decide_eq_false (hcall id)

/-- The first token, which expires at one. -/
def shortLived : Token := ⟨constantID 0, ["dev"], "", 0, 1, defaultMaxTTL, []⟩

/-- A token that expires, a child of it that does not, and another token that expires. -/
def family : List TokenOperation :=
  [.call ⟨.constant 0, .createWithTTL ["dev"] 1⟩, .call ⟨.constant 1, .createChild shortLived ["dev"] 0⟩,
    .call ⟨.constant 2, .createWithTTL ["dev"] 1⟩]

/-- The state after some of these operations. -/
def afterFamily (n : Nat) : TokenState :=
  (family.take n).foldl (TokenState.operate none) ⟨Platform.transparent.tokens, ⟨∅, 0⟩⟩

theorem reached_family : TokenState.Reached none Platform.transparent.tokens 0 (afterFamily 3) := by
  have hunused : ∀ n < 3, (afterFamily n).tokens.storeKey (constantID n) ∉ (afterFamily n).world.store := by
    decide +kernel
  have hstep : ∀ n < 3, ∀ call,
      TokenState.Reached none Platform.transparent.tokens 0 (afterFamily n) →
      TokenState.Reached none Platform.transparent.tokens 0
        ((afterFamily n).operate none (.call ⟨.constant (BitVec.ofNat 8 n), call⟩)) :=
    fun n hn call h => h.step (e := .call ⟨.constant (BitVec.ofNat 8 n), call⟩)
      ⟨fun _ _ => rfl, fun _ => hunused n hn⟩ rfl
  exact hstep 2 (by decide) _ (hstep 1 (by decide) _ (hstep 0 (by decide) _ .start))

/-- The first token goes with its child, and the last one, whose callback fails, stays. -/
theorem sweep_removes_only_family :
    let s := afterFamily 3
    let env := Env.keeping (constantID 2)
    let sweep := s.tokens.sweepExpired 0 (callbackIf true)
    let after := (sweep.run env.answer s.world).2.store
    (sweep.run env.answer s.world).1 = (.ok (), 2) ∧
      s.tokens.Swept (· = constantID 2) 5 s.world.store after (sweep.trace env.answer s.world) 2 ∧
      TokenStore.recordKeys s.world.store
        = {s.tokens.storeKey (constantID 0), s.tokens.storeKey (constantID 1),
          s.tokens.storeKey (constantID 2)} ∧
      TokenStore.recordKeys after = {s.tokens.storeKey (constantID 2)} := by
  have hrun : (((afterFamily 3).tokens.sweepExpired 0 (callbackIf true)).run
      (Env.keeping (constantID 2)).answer (afterFamily 3).world).1 = (.ok (), 2) := by decide +kernel
  obtain ⟨removed, hremoved, hswept⟩ := sweep_removes_only (fun a ha => absurd ha (Option.not_mem_none a))
    reached_family (failsCleanup_keeping (constantID 2)) 0
  cases hrun.symm.trans hremoved
  exact ⟨hrun, hswept, by decide +kernel, by decide +kernel⟩

end UbixVault
