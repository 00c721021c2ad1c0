/-
Programs that only read.

What such a program returns depends on the keys it may read, unless a call failed;
and a call that failed shows in the error, which no check for a missing record takes
for one.  So an answer that was given once is given again wherever those keys hold
the same.
-/
import UbixVault.Proofs.Outside
import UbixVault.Proofs.Storage

namespace UbixVault

open Program

variable {α β : Type}

/-! ### Errors of the outside -/

/-- A call that failed, under contexts. -/
def Err.isFault : Err → Bool
  | .outside => true
  | .wrap _ cause => cause.isFault
  | _ => false

/-- A failed call is not a missing record. -/
theorem Err.not_is_of_isFault {e target : Err} (he : e.isFault = true)
    (houtside : target ≠ .outside) (hwrap : ∀ context cause, target ≠ .wrap context cause) :
    e.is target = false := by
  induction e with
  | outside => simpa [Err.is] using houtside.symm
  | wrap context cause ih =>
    have hne : Err.wrap context cause ≠ target := (hwrap context cause).symm
    simp [Err.is, ih he, hne]
  | _ => cases he

/-! ### Answers that are given again -/

/-- The keys of a kind hold the same in both stores. -/
def SameOn (reads : Key → Prop) (store store' : Store) : Prop :=
  ∀ key, reads key → store'.lookup key = store.lookup key

theorem SameOn.refl {reads : Key → Prop} (store : Store) : SameOn reads store store :=
  fun _ _ => rfl

/-- A listing depends on the keys under its prefix. -/
theorem SameOn.list {reads : Key → Prop} {store store' : Store} {pfx : Key}
    (h : SameOn reads store store') (hpfx : ∀ key, pfx <+: key → reads key) :
    store'.list pfx = store.list pfx := by
  have hchild : ∀ key child, childUnder pfx key = some child → (key ∈ store' ↔ key ∈ store) := by
    intro key child hchild
    have hkey : pfx <+: key := by
      by_contra hnot
      simp [childUnder, hnot] at hchild
    rw [← Finmap.lookup_isSome, ← Finmap.lookup_isSome, h key (hpfx key hkey)]
  unfold Store.list
  congr 1
  ext child
  simp only [Finset.mem_biUnion, Finmap.mem_keys, Option.mem_toFinset, Option.mem_def]
  exact exists_congr fun key => and_congr_left (hchild key child)

/-- Wherever the keys hold the same and nothing fails, the answer is `r`. -/
def Repeats (reads : Key → Prop) (x : Act α) (store : Store) (r : Except Err α) : Prop :=
  ∀ (env : Env) (w : World), env.Works → SameOn reads store w.store →
    ∃ w', exec env.answer x w = (r, w') ∧ w'.store = w.store

/-- The program changes nothing, and what it answers it answers again, faults apart. -/
structure Steady (reads : Key → Prop) (x : Act α) : Prop where
  store : ∀ (env : Env) (w : World), (exec env.answer x w).2.store = w.store
  repeats : ∀ (env : Env) (w : World), Repeats reads x w.store (exec env.answer x w).1 ∨
    ∃ e, (exec env.answer x w).1 = .error e ∧ e.isFault = true

namespace Steady

variable {reads : Key → Prop} {x : Act α} {f : α → Act β}

theorem of_exec {r : Except Err α} (h : ∀ (env : Env) (w : World), exec env.answer x w = (r, w)) :
    Steady reads x where
  store env w := by rw [h]
  repeats env w := .inl fun env' w' _ _ => ⟨w', by rw [h, h], rfl⟩

theorem pure (a : α) : Steady reads (Pure.pure a : Act α) := of_exec (r := .ok a) fun _ _ => rfl

theorem throw (e : Err) : Steady reads (MonadExcept.throw e : Act α) :=
  of_exec (r := .error e) fun _ _ => rfl

theorem ofExcept (r : Except Err α) : Steady reads (Act.ofExcept r) := of_exec fun _ _ => rfl

/-- A call whose reply depends on the store. -/
theorem of_guarded (call : Call) (valid : Bool) (reply : Store → α)
    (hreply : ∀ store store', SameOn reads store store' → reply store' = reply store)
    (h : ∀ (env : Env) (w : World),
      exec env.answer x w = env.guarded w call valid (.ok (reply w.store), w.next)) : Steady reads x := by
  constructor
  · intro env w
    rw [h]
    unfold Env.guarded
    split_ifs <;> rfl
  · intro env w
    by_cases hf : env.fails w.tick call = true
    · refine .inr ⟨.outside, ?_, rfl⟩
      rw [h, Env.guarded_fail hf]
    · refine .inl fun env' w' hworks hw' => ⟨w'.next, ?_, rfl⟩
      rw [h, h]
      unfold Env.guarded
      rw [if_neg hf, if_neg (by simp [hworks w'.tick call]), hreply _ _ hw']
      split_ifs <;> rfl

theorem get {key : Key} (hkey : reads key) : Steady reads (Act.get key) :=
  of_guarded (.get key) (validKey key) (fun s => s.lookup key) (fun _ _ h => h key hkey)
    fun _ _ => rfl

theorem list {pfx : Key} (hpfx : ∀ key, pfx <+: key → reads key) :
    Steady reads (Act.list pfx) :=
  of_guarded (.list pfx) (validPrefix pfx) (fun s => s.list pfx) (fun _ _ h => h.list hpfx)
    fun _ _ => rfl

/-- What is answered in one run. -/
theorem cases (hx : Steady reads x) (env : Env) (w : World) :
    (∃ a w', exec env.answer x w = (.ok a, w') ∧ w'.store = w.store ∧ Repeats reads x w.store (.ok a)) ∨
      ∃ e w', exec env.answer x w = (.error e, w') ∧ w'.store = w.store ∧
        (Repeats reads x w.store (.error e) ∨ e.isFault = true) := by
  have hstore := hx.store env w
  have hrepeats := hx.repeats env w
  rcases hrun : exec env.answer x w with ⟨r, w'⟩
  rw [hrun] at hstore hrepeats
  cases r with
  | ok a =>
    refine .inl ⟨a, w', rfl, hstore, ?_⟩
    rcases hrepeats with h | ⟨e, h, -⟩
    · exact h
    · cases h
  | error e =>
    refine .inr ⟨e, w', rfl, hstore, ?_⟩
    rcases hrepeats with h | ⟨e', h, hfault⟩
    · exact .inl h
    · cases h
      exact .inr hfault

theorem bind (hx : Steady reads x) (hf : ∀ a, Steady reads (f a)) : Steady reads (x >>= f) := by
  constructor
  · intro env w
    rcases hx.cases env w with ⟨a, w₁, hrun, hs, -⟩ | ⟨e, w₁, hrun, hs, -⟩
    · rw [exec_bind_ok env.answer hrun, (hf a).store, hs]
    · rw [exec_bind_error env.answer hrun, hs]
  · intro env w
    rcases hx.cases env w with ⟨a, w₁, hrun, hs, hrep⟩ | ⟨e, w₁, hrun, -, hrep⟩
    · rw [exec_bind_ok env.answer hrun]
      refine ((hf a).repeats env w₁).imp_left fun hfa env' w' hworks hw' => ?_
      obtain ⟨w'₁, hrun', hs'⟩ := hrep env' w' hworks hw'
      rw [exec_bind_ok env'.answer hrun']
      rw [hs] at hfa
      obtain ⟨w'₂, hrun₂, hs₂⟩ := hfa env' w'₁ hworks (by rwa [hs'])
      exact ⟨w'₂, hrun₂, hs₂.trans hs'⟩
    · rw [exec_bind_error env.answer hrun]
      refine hrep.imp (fun hrep env' w' hworks hw' => ?_) fun hfault => ⟨e, rfl, hfault⟩
      obtain ⟨w'₁, hrun', hs'⟩ := hrep env' w' hworks hw'
      exact ⟨w'₁, exec_bind_error env'.answer hrun' f, hs'⟩

theorem context (hx : Steady reads x) (text : String) : Steady reads (x.context text) := by
  constructor
  · intro env w
    rcases hx.cases env w with ⟨a, w₁, hrun, hs, -⟩ | ⟨e, w₁, hrun, hs, -⟩
    · rw [Act.exec_context, hrun, hs]
    · rw [Act.exec_context, hrun, hs]
  · intro env w
    rcases hx.cases env w with ⟨a, w₁, hrun, -, hrep⟩ | ⟨e, w₁, hrun, -, hrep⟩
    · rw [Act.exec_context, hrun]
      refine .inl fun env' w' hworks hw' => ?_
      obtain ⟨w'₁, hrun', hs'⟩ := hrep env' w' hworks hw'
      exact ⟨w'₁, by rw [Act.exec_context, hrun'], hs'⟩
    · rw [Act.exec_context, hrun]
      refine hrep.imp (fun hrep env' w' hworks hw' => ?_) fun hfault => ⟨_, rfl, hfault⟩
      obtain ⟨w'₁, hrun', hs'⟩ := hrep env' w' hworks hw'
      exact ⟨w'₁, by rw [Act.exec_context, hrun'], hs'⟩

/-- Only a missing record is passed over. -/
theorem optional {missing : Err} (hx : Steady reads x) (houtside : missing ≠ .outside)
    (hwrap : ∀ context cause, missing ≠ .wrap context cause) : Steady reads (Act.optional x missing) := by
  constructor
  · intro env w
    rcases hx.cases env w with ⟨a, w₁, hrun, hs, -⟩ | ⟨e, w₁, hrun, hs, -⟩
    · rw [Act.exec_optional, hrun, hs]
    · rw [Act.exec_optional, hrun, hs]
  · intro env w
    rcases hx.cases env w with ⟨a, w₁, hrun, -, hrep⟩ | ⟨e, w₁, hrun, -, hrep⟩
    · rw [Act.exec_optional, hrun]
      refine .inl fun env' w' hworks hw' => ?_
      obtain ⟨w'₁, hrun', hs'⟩ := hrep env' w' hworks hw'
      exact ⟨w'₁, by rw [Act.exec_optional, hrun'], hs'⟩
    · rw [Act.exec_optional, hrun]
      refine hrep.imp (fun hrep env' w' hworks hw' => ?_) fun hfault => ?_
      · obtain ⟨w'₁, hrun', hs'⟩ := hrep env' w' hworks hw'
        exact ⟨w'₁, by rw [Act.exec_optional, hrun'], hs'⟩
      · dsimp only
        rw [Err.not_is_of_isFault hfault houtside hwrap]
        exact ⟨e, rfl, hfault⟩

theorem yields (hx : Steady reads x) (env : Env) (w : World) :
    Yields env.answer x w (fun _ w' => w'.store = w.store) fun _ w' => w'.store = w.store := by
  have hstore := hx.store env w
  unfold Yields
  rcases hrun : exec env.answer x w with ⟨r, w'⟩
  rw [hrun] at hstore
  cases r <;> exact hstore

/-- What was answered is answered again. -/
theorem again (hx : Steady reads x) {env env' : Env} {w w₁ w' : World} {a : α}
    (hrun : exec env.answer x w = (.ok a, w₁)) (hworks : env'.Works)
    (hsame : SameOn reads w.store w'.store) : ∃ w'₁, exec env'.answer x w' = (.ok a, w'₁) := by
  rcases hx.cases env w with ⟨a', w₂, hrun', -, hrep⟩ | ⟨e, w₂, hrun', -⟩
  · rw [hrun'] at hrun
    cases hrun
    obtain ⟨w'₁, h, -⟩ := hrep env' w' hworks hsame
    exact ⟨w'₁, h⟩
  · rw [hrun'] at hrun
    cases hrun

end Steady

end UbixVault
