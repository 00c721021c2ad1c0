/-
What the calls on tokens do under the discipline of a revocation.

Every call of a program happens at some moment, after the others have done what
they do, and is followed by more of that.  `Moment` is that picture of one call,
and each program is checked call by call against it.  The walk of a revocation is
checked by induction on the levels that are still allowed, and within a level by
induction on the children that were listed.
-/
import UbixVault.Proofs.Token.Revoke
import UbixVault.TokenMachine

namespace UbixVault

open Program

namespace Cascade

variable {R : Cascade} {env : Env} (hworks : env.Works) {G : World × List Call → Call → Prop}
  {s : World × List Call} {id c : Bytes}

/-! ### One call among others -/

/-- A call that is performed in state `at'`, some time after `log`, and the time since. -/
structure Moment (R : Cascade) (log : List Call) (call : Call) (at' now : World × List Call) :
    Prop where
  before : R.Grows log at'.2
  inv : R.Inv at'
  step : R.Grows at'.2 (at'.2 ++ [call])
  after : R.Grows (at'.2 ++ [call]) now.2
  holds : R.Inv now

namespace Moment

variable {log : List Call} {call : Call} {at' now now' : World × List Call}

theorem since (m : R.Moment log call at' now) : R.Grows at'.2 now.2 := m.step.trans m.after

theorem grows (m : R.Moment log call at' now) : R.Grows log now.2 := m.before.trans m.since

theorem mem (m : R.Moment log call at' now) : call ∈ now.2 :=
  m.after.journal (List.mem_append_right _ (List.mem_singleton_self call))

theorem later (m : R.Moment log call at' now) (h : R.Grows now.2 now'.2) (hinv : R.Inv now') :
    R.Moment log call at' now' := { m with after := m.after.trans h, holds := hinv }

end Moment

/-- One call, whatever its reply. -/
theorem safe_perform {call : Call} {Q : Reply call → World × List Call → Prop}
    (hG : ∀ s', R.Grows s.2 s'.2 → R.Inv s' → G s' call)
    (hQ : ∀ at' now, R.Moment s.2 call at' now → Q (env.answer at'.1 call).1 now) :
    Safe (R.discipline hworks) G (perform call) Q s :=
  Safe.perform fun s' hs hinv => ⟨hG s' hs hinv, fun hallowed s'' hs' hinv' =>
    hQ s' s'' ⟨hs, hinv, hallowed.grows, hs', hinv'⟩⟩

variable {α : Type} {n : Nat} {text : String}

section Calls

variable {err : Err → World × List Call → Prop}

theorem safe_get {key : Key} {ok : Option Bytes → World × List Call → Prop}
    (hv : validKey key = true) (hG : ∀ s', R.Grows s.2 s'.2 → R.Inv s' → G s' (.get key))
    (hok : ∀ at' now, R.Moment s.2 (.get key) at' now → ok (at'.1.store.lookup key) now) :
    SafeExcept (R.discipline hworks) G ((Act.get key).context text) s ok err := by
  refine SafeExcept.adapt (safe_perform hworks hG fun at' now m => ?_)
  rw [Env.answer_get (hworks _ _) hv]
  exact fun now' hs hinv => hok at' now' (m.later hs hinv)

theorem safe_list {pfx : Key} {ok : List Key → World × List Call → Prop}
    (hv : validPrefix pfx = true) (hG : ∀ s', R.Grows s.2 s'.2 → R.Inv s' → G s' (.list pfx))
    (hok : ∀ at' now, R.Moment s.2 (.list pfx) at' now → ok (at'.1.store.list pfx) now) :
    SafeExcept (R.discipline hworks) G ((Act.list pfx).context text) s ok err := by
  refine SafeExcept.adapt (safe_perform hworks hG fun at' now m => ?_)
  rw [Env.answer_list (hworks _ _) hv]
  exact fun now' hs hinv => hok at' now' (m.later hs hinv)

theorem safe_delete {key : Key} {ok : Unit → World × List Call → Prop}
    (hv : validKey key = true) (hG : ∀ s', R.Grows s.2 s'.2 → R.Inv s' → G s' (.delete key))
    (hok : ∀ at' now, R.Moment s.2 (.delete key) at' now → ok () now) :
    SafeExcept (R.discipline hworks) G ((Act.delete key).context text) s ok err := by
  refine SafeExcept.adapt (safe_perform hworks hG fun at' now m => ?_)
  rw [Env.answer_delete (hworks _ _) hv]
  exact fun now' hs hinv => hok at' now' (m.later hs hinv)

theorem safe_put {key : Key} {value : Bytes} {ok : Unit → World × List Call → Prop}
    (hv : validKey key = true) (hG : ∀ s', R.Grows s.2 s'.2 → R.Inv s' → G s' (.put key value))
    (hok : ∀ at' now, R.Moment s.2 (.put key value) at' now → ok () now) :
    SafeExcept (R.discipline hworks) G ((Act.put key value).context text) s ok err := by
  refine SafeExcept.adapt (safe_perform hworks hG fun at' now m => ?_)
  rw [Env.answer_put (hworks _ _) hv]
  exact fun now' hs hinv => hok at' now' (m.later hs hinv)

theorem safe_cleanup {ok : Unit → World × List Call → Prop}
    (hG : ∀ s', R.Grows s.2 s'.2 → R.Inv s' → G s' (.cleanup id))
    (hok : ∀ at' now, R.Moment s.2 (.cleanup id) at' now → ok () now) :
    SafeExcept (R.discipline hworks) G (Act.cleanup id) s ok err := by
  refine safe_perform hworks hG fun at' now m => ?_
  rw [show (env.answer at'.1 (.cleanup id)).1 = .ok () by
    simp [Env.answer, Env.guarded, hworks _ _]]
  exact hok at' now m

theorem safe_now {ok : Time → World × List Call → Prop}
    (hG : ∀ s', R.Grows s.2 s'.2 → R.Inv s' → G s' .now)
    (hok : ∀ at' now, R.Moment s.2 .now at' now → ok (env.clock at'.1.tick) now) :
    SafeExcept (R.discipline hworks) G Act.now s ok err := by
  show Safe _ _ (Except.ok <$> perform Call.now) _ _
  rw [← bind_pure_comp]
  refine Safe.bind (safe_perform hworks hG fun at' now m => ?_)
  exact fun now' hs hinv => hok at' now' (m.later hs hinv)

end Calls

/-! ### The walk -/

/-- Every chain of links below the token is shorter than `n`. -/
def Within (R : Cascade) : Nat → Bytes → Prop
  | 0, _ => False
  | n + 1, id => ∀ c, R.Link id c → R.Within n c

/-- The token revoked, or one that has a record. -/
def Known (R : Cascade) (log : List Call) (id : Bytes) : Prop := id = R.root ∨ R.Issued log id

/-- A revocation writes nothing. -/
def Revokes (R : Cascade) (s : World × List Call) (call : Call) : Prop :=
  R.Admitted s call ∧ ∀ k v, call ≠ .put k v

theorem Revokes.reads {call : Call} (h : call.Reads) : R.Revokes s call := ⟨.reads h, h.1⟩

theorem Inv.deleted_of_absent (hinv : R.Inv s) (hissued : R.Issued s.2 id)
    (habsent : s.1.store.lookup (R.tokens.storeKey id) = none) : R.Deleted s.2 id := by
  refine (hinv.live id hissued).resolve_left ?_
  rw [← Finmap.lookup_isSome, habsent]
  simp

theorem Inv.gone_of_absent (hinv : R.Inv s) (hknown : R.Known s.2 id)
    (habsent : s.1.store.lookup (R.tokens.storeKey id) = none) : R.Gone s.2 id := by
  rcases hknown with rfl | hissued
  · by_cases hstart : R.tokens.storeKey R.root ∈ R.start
    · exact .inl (hinv.deleted_of_absent (.inl hstart) habsent)
    · exact .inr ⟨rfl, hstart⟩
  · exact .inl (hinv.deleted_of_absent hissued habsent)

/-- `SafeState` for the programs of a revocation, which never fail. -/
abbrev Walks (R : Cascade) (x : TokenStore.RevokeM α) (n : Nat) (s : World × List Call)
    (ok : World × List Call → Prop) : Prop :=
  SafeState (R.discipline hworks) R.Revokes x n s (fun _ _ s' => ok s') (fun _ _ _ => False)

/-- What comes next starts later, in a state in which the invariant holds. -/
theorem Walks.bind {x : TokenStore.RevokeM α} {f : α → TokenStore.RevokeM Unit}
    {ok : World × List Call → Prop}
    (hx : SafeState (R.discipline hworks) R.Revokes x n s
      (fun a n' s' => R.Grows s.2 s'.2 → R.Inv s' → R.Walks hworks (f a) n' s' ok)
      (fun _ _ _ => False)) :
    R.Walks hworks (x >>= f) n s ok := by
  refine SafeState.bind ((hx.since fun _ _ h => h.1).mono ?_ fun _ _ _ _ h => h.2.elim)
  exact fun a n' s' hinv h => h.2 h.1 hinv

theorem Walks.pure {ok : World × List Call → Prop}
    (h : ∀ s', R.Grows s.2 s'.2 → R.Inv s' → ok s') :
    R.Walks hworks (Pure.pure ()) n s ok := SafeState.pure h

theorem reads_get (key : Key) : (Call.get key).Reads := ⟨by simp, by simp⟩

theorem reads_list (pfx : Key) : (Call.list pfx).Reads := ⟨by simp, by simp⟩

theorem reads_cleanup (id : Bytes) : (Call.cleanup id).Reads := ⟨by simp, by simp⟩

theorem reads_now : Call.now.Reads := ⟨by simp, by simp⟩

theorem reads_randRead (n : Nat) : (Call.randRead n).Reads := ⟨by simp, by simp⟩

section Level

variable {recurse : Bytes → Bytes → TokenStore.RevokeM Unit}

/-- A stored child is dead afterwards, whether it still had a record or not. -/
theorem walks_revokeStored {at' : World × List Call}
    (hrecurse : ∀ s n, R.Grows at'.2 s.2 →
      R.Walks hworks (recurse c (R.tokens.hashID c)) n s fun s' => R.Dead s'.2 c)
    (hinv : R.Inv at') (hissued : R.Issued at'.2 c) (hs : R.Grows at'.2 s.2) :
    R.Walks hworks (R.tokens.revokeStored recurse (R.tokens.hashID c)
      (at'.1.store.lookup (R.tokens.storeKey c))) n s fun s' => R.Dead s'.2 c := by
  unfold TokenStore.revokeStored
  cases hentry : at'.1.store.lookup (R.tokens.storeKey c) with
  | none =>
    have hdead := hinv.dead c (hinv.deleted_of_absent hissued hentry)
    exact Walks.pure hworks fun s' hs' _ => (hs.trans hs').dead hdead
  | some blob =>
    obtain ⟨t, rfl, hwf, rfl, hne⟩ := hinv.records c blob hentry
    simp only [Option.bind_some, R.tokens.json.unmarshal_marshal t hwf, ne_eq, hne,
      not_false_eq_true, if_true]
    exact hrecurse s n hs

theorem walks_revokeChildren
    (hrecurse : ∀ c s n, R.Link id c → R.Issued s.2 c →
      R.Walks hworks (recurse c (R.tokens.hashID c)) n s fun s' => R.Dead s'.2 c) :
    ∀ (names : List Key) (s : World × List Call) (n : Nat),
      (∀ name ∈ names, ∃ c, name = R.tokens.hashID c ∧ R.Edge s.2 id c) →
      R.Walks hworks (R.tokens.revokeChildren recurse (R.tokens.hashID id) names) n s
        fun s' => ∀ c, R.tokens.hashID c ∈ names → R.Dead s'.2 c := by
  intro names
  induction names with
  | nil => exact fun s n _ => Walks.pure hworks fun s' _ _ c hc => absurd hc List.not_mem_nil
  | cons name rest ih =>
    intro s n hnames
    obtain ⟨c, rfl, hedge⟩ := hnames name List.mem_cons_self
    refine Walks.bind hworks (SafeState.stateless (safe_get hworks
      (R.tokens.validKey_storeKey c) (fun _ _ _ => .reads (reads_get _)) ?_))
    intro at' s₁ m s₁' hs₁ hinv₁ hgrow₁ _
    have hedge' : R.Edge at'.2 id c := m.before.edge hedge
    have hissued : R.Issued at'.2 c := m.inv.known id c hedge'
    have hlink : R.Link id c := hedge'.link m.inv.only
    refine Walks.bind hworks (SafeState.mono (walks_revokeStored hworks
      (fun s n hs => hrecurse c s n hlink (hs.issued hissued)) m.inv hissued
      (m.since.trans hs₁)) ?_ fun _ _ _ _ h => h)
    intro _ n₂ s₂ hinv₂ hdead hgrow₂ _
    -- The child is dead, so its entry may go.
    refine Walks.bind hworks (SafeState.stateless (safe_delete hworks
      (R.tokens.validKey_indexKey id c) (fun s' hs' _ => ⟨.deleteIndex _ c (hs'.dead hdead), ?_⟩)
      ?_))
    · exact fun k v h => nomatch h
    · intro at₃ s₃ m₃ s₃' hs₃ hinv₃ hgrow₃ _
      have hall : R.Grows s.2 s₃'.2 := hgrow₁.trans (hgrow₂.trans hgrow₃)
      refine SafeState.mono (SafeState.since (fun _ _ h => h.1) (ih s₃' n₂ fun name hname => ?_))
        ?_ fun _ _ _ _ h => h.2
      · obtain ⟨c', rfl, hc'⟩ := hnames name (List.mem_cons_of_mem _ hname)
        exact ⟨c', rfl, hall.edge hc'⟩
      · rintro _ _ s₄ - ⟨hgrow₄, hrest⟩ c' hc'
        rcases List.mem_cons.mp hc' with heq | hc'
        · rw [R.tokens.hashID_injective heq]
          exact hgrow₄.dead (hgrow₃.dead hdead)
        · exact hrest c' hc'

theorem walks_runCleanup :
    R.Walks hworks (TokenStore.runCleanup (callbackIf R.cleans) id) n s
      fun s' => R.cleans = true → .cleanup id ∈ s'.2 := by
  unfold callbackIf TokenStore.runCleanup
  cases hcleans : R.cleans with
  | false =>
    exact Walks.pure hworks fun s' _ _ h => nomatch h
  | true =>
    refine SafeState.stateless (safe_cleanup hworks (fun _ _ _ => .reads (reads_cleanup id)) ?_)
    exact fun at' now m now' hs _ _ => hs.journal m.mem

/-- The index entry of a dead token goes, if it has one. -/
theorem walks_unindex {parentHash : Bytes} (hdead : R.Dead s.2 id) :
    R.Walks hworks (TokenStore.unindex parentHash (R.tokens.hashID id)) n s
      fun s' => R.Dead s'.2 id := by
  unfold TokenStore.unindex
  split_ifs
  · refine SafeState.attempt (safe_perform hworks (fun s' hs _ => ⟨.deleteIndex _ id (hs.dead hdead),
      fun k v h => nomatch h⟩) ?_)
    exact fun at' now m now' hs _ => (m.grows.trans hs).dead hdead
  · exact Walks.pure hworks fun s' hs _ => hs.dead hdead

/-- With all children dead, the record goes and the token is dead. -/
theorem walks_revokeRecord (hlisted : R.Listed s.2 id)
    (hchildren : ∀ c, R.Edge s.2 id c → R.Dead s.2 c)
    (hreached : Relation.ReflTransGen R.Link R.root id) (hknown : R.Known s.2 id) :
    R.Walks hworks (R.tokens.revokeRecord (callbackIf R.cleans) id (R.tokens.hashID id)) n s
      fun s' => R.Dead s'.2 id := by
  have hbelow : ∀ {s' : World × List Call}, R.Grows s.2 s'.2 → ∀ c, R.Edge s'.2 id c → R.Dead s'.2 c :=
    fun hs c hc => hs.dead (hchildren c (hs.closed id c hlisted hc))
  unfold TokenStore.revokeRecord
  refine Walks.bind hworks (SafeState.stateless (safe_get hworks (R.tokens.validKey_storeKey id)
    (fun _ _ _ => .reads (reads_get _)) ?_))
  intro at' s₁ m s₁' hs₁ _ hgrow₁ _
  cases hentry : at'.1.store.lookup (storePrefix ++ R.tokens.hashID id) with
  | none =>
    have hgone : R.Gone at'.2 id :=
      m.inv.gone_of_absent (hknown.imp_right m.before.issued) hentry
    have hdead : R.Dead at'.2 id := .intro (m.before.journal hlisted) hgone (hbelow m.before)
    exact Walks.pure hworks fun s' hs _ => (m.since.trans (hs₁.trans hs)).dead hdead
  | some blob =>
    refine Walks.bind hworks (SafeState.mono (walks_runCleanup hworks) ?_ fun _ _ _ _ h => h)
    intro _ n₂ s₂ _ hcleaned hgrow₂ _
    have hall : R.Grows s.2 s₂.2 := hgrow₁.trans hgrow₂
    refine Walks.bind hworks (SafeState.stateless (safe_delete hworks
      (R.tokens.validKey_storeKey id) (fun s' hs _ => ⟨.deleteRecord id
        ((hall.trans hs).journal hlisted) (hbelow (hall.trans hs)) hreached
        fun hc => hs.journal (hcleaned hc), fun k v h => nomatch h⟩) ?_))
    intro at₃ s₃ m₃ s₃' hs₃ hinv₃ _ _
    have hdead : R.Dead s₃'.2 id := hinv₃.dead id (hs₃.journal m₃.mem)
    refine Walks.bind hworks (SafeState.mono (walks_unindex hworks hdead) ?_
      fun _ _ _ _ h => h)
    intro _ n₄ s₄ _ hdead₄ _ _
    exact SafeState.modifyState fun s' hs _ => hs.dead hdead₄

end Level

/-- **A revocation that is deep enough leaves its token dead.** -/
theorem walks_revokeTree : ∀ (fuel : Nat) (id : Bytes) (s : World × List Call) (n : Nat),
    R.Within fuel id → Relation.ReflTransGen R.Link R.root id → R.Known s.2 id →
    R.Walks hworks (R.tokens.revokeTree (callbackIf R.cleans) fuel id (R.tokens.hashID id)) n s
      fun s' => R.Dead s'.2 id := by
  intro fuel
  induction fuel with
  | zero => exact fun id s n hwithin => hwithin.elim
  | succ fuel ih =>
    intro id s n hwithin hreached hknown
    unfold TokenStore.revokeTree
    refine Walks.bind hworks (SafeState.stateless (safe_list hworks
      (R.tokens.validPrefix_indexPrefix id) (fun _ _ _ => .reads (reads_list _)) ?_))
    intro at' s₁ m s₁' hs₁ _ hgrow₁ _
    have hlist : ∀ {name}, name ∈ at'.1.store.list (R.tokens.indexPrefix id) ↔
        ∃ c, name = R.tokens.hashID c ∧ R.tokens.indexKey id c ∈ at'.1.store :=
      TokenStore.mem_list_indexPrefix m.inv.indexed
    refine Walks.bind hworks (SafeState.mono (walks_revokeChildren hworks ?_ _ s₁' n ?_) ?_
      fun _ _ _ _ h => h)
    · intro c s n hlink hissued
      exact ih c s n (hwithin c hlink) (hreached.tail hlink) (.inr hissued)
    · intro name hname
      obtain ⟨c, rfl, hkey⟩ := hlist.mp hname
      exact ⟨c, rfl, (m.since.trans hs₁).edge (m.inv.entries id c hkey)⟩
    · intro _ n₂ s₂ _ hdead hgrow₂ _
      have hsince : R.Grows (at'.2 ++ [.list (R.tokens.indexPrefix id)]) s₂.2 :=
        m.after.trans (hs₁.trans hgrow₂)
      have hlisted : R.Listed (at'.2 ++ [.list (R.tokens.indexPrefix id)]) id :=
        List.mem_append_right _ (List.mem_singleton_self _)
      refine walks_revokeRecord hworks (hsince.journal hlisted) (fun c hc => ?_) hreached
        (hknown.imp_right (hgrow₁.trans hgrow₂).issued)
      -- Nothing is indexed after the listing, so the child was listed or dead already.
      have hedge : R.Edge at'.2 id c :=
        (edge_append_of_ne (by simp)).mp (hsince.closed id c hlisted hc)
      rcases m.inv.edges id c hedge with hkey | hd
      · exact hdead c (hlist.mpr ⟨c, rfl, hkey⟩)
      · exact (m.since.trans (hs₁.trans hgrow₂)).dead hd

end Cascade

end UbixVault
