/-
Programs of several threads over one shared state.

A scheduler lets one thread after the other perform its next operation.  What holds
of every schedule is proved thread by thread: `Safe` says that a program, whatever
the others do between its operations, performs only operations it may perform and
ends as promised.  The others are known through a discipline only: an invariant that
all keep, and a relation in which the state may change meanwhile.

A journal of the operations performed is part of the state where the invariant needs
to speak about the past.
-/
import UbixVault.Lib.Program

namespace Program

variable {Op : Type} {Res : Op → Type} {α β ε τ σ ι : Type}

/-! ### A journal -/

/-- Answer as `h` does, and write down what was asked. -/
def journal (h : Handler Op Res σ) : Handler Op Res (σ × List Op) :=
  fun s op => ((h s.1 op).1, ((h s.1 op).2, s.2 ++ [op]))

theorem journal_eq {h : Handler Op Res σ} {s s' : σ} {op : Op} {r : Res op}
    (hanswer : h s op = (r, s')) (log : List Op) :
    journal h (s, log) op = (r, (s', log ++ [op])) := by
  unfold journal
  rw [hanswer]

/-- The journal of a run is its trace. -/
theorem run_journal (h : Handler Op Res σ) (p : Program Op Res α) (s : σ) (log : List Op) :
    p.run (journal h) (s, log) = ((p.run h s).1, ((p.run h s).2, log ++ p.trace h s)) := by
  induction p generalizing s log with
  | ret a => simp
  | step op next ih =>
    rw [run_step, run_step, trace_step]
    show (next (h s op).1).run (journal h) ((h s op).2, log ++ [op]) = _
    rw [ih, List.append_assoc]
    rfl

/-! ### Scripts

A script is a list of operations with their replies.  It says what a program does
when it gets these replies, without a handler.
-/

/-- Given the replies of the script, `p` performs its operations and goes on as `q`. -/
def Follows : Program Op Res α → List ((op : Op) × Res op) → Program Op Res α → Prop
  | p, [], q => p = q
  | p, ⟨op, r⟩ :: rest, q => ∃ next, p = .step op next ∧ Follows (next r) rest q

/-- From `s` the handler gives the replies of the script, which are allowed, and ends in `s'`. -/
def Replies (h : Handler Op Res σ) (allowed : σ → Op → Prop) :
    σ → List ((op : Op) × Res op) → σ → Prop
  | s, [], s' => s = s'
  | s, ⟨op, r⟩ :: rest, s' => allowed s op ∧ ∃ s₁, h s op = (r, s₁) ∧ Replies h allowed s₁ rest s'

namespace Follows

variable {p q : Program Op Res α} {k l : List ((op : Op) × Res op)}

/-- A script may be interrupted. -/
theorem split : ∀ {k : List ((op : Op) × Res op)} {p : Program Op Res α},
    Follows p (k ++ l) q → ∃ p', Follows p k p' ∧ Follows p' l q := by
  intro k
  induction k with
  | nil => exact fun h => ⟨_, rfl, h⟩
  | cons step rest ih =>
    rintro p ⟨next, rfl, hnext⟩
    obtain ⟨p', hp, hp'⟩ := ih hnext
    exact ⟨p', ⟨next, rfl, hp⟩, hp'⟩

end Follows

/-! ### Threads -/

/-- Threads and the state they share. -/
structure Pool (Op : Type) (Res : Op → Type) (β ι σ : Type) where
  threads : ι → Program Op Res β
  state : σ

namespace Pool

/-- The operation a thread would perform next. -/
def next (pool : Pool Op Res β ι σ) (i : ι) : Option Op :=
  match pool.threads i with
  | .ret _ => none
  | .step op _ => some op

/-- What a thread has returned. -/
def result (pool : Pool Op Res β ι σ) (i : ι) : Option β :=
  match pool.threads i with
  | .ret b => some b
  | .step _ _ => none

theorem threads_eq_ret_iff {pool : Pool Op Res β ι σ} {i : ι} {b : β} :
    pool.threads i = .ret b ↔ pool.result i = some b := by
  unfold result
  cases pool.threads i with
  | ret b => simp
  | step op next => simp

/-- Every thread has returned. -/
def Finished (pool : Pool Op Res β ι σ) : Prop := ∀ i, ∃ b, pool.threads i = .ret b

theorem finished_iff {pool : Pool Op Res β ι σ} :
    pool.Finished ↔ ∀ i, (pool.result i).isSome := by
  simp only [Finished, threads_eq_ret_iff, Option.isSome_iff_exists]

variable [DecidableEq ι] (h : Handler Op Res σ)

/-- Let one thread perform its next operation; a thread that has returned does nothing. -/
def step (pool : Pool Op Res β ι σ) (i : ι) : Pool Op Res β ι σ :=
  match pool.threads i with
  | .ret _ => pool
  | .step op next =>
    { threads := Function.update pool.threads i (next (h pool.state op).1)
      state := (h pool.state op).2 }

/-- Follow a schedule. -/
def run (pool : Pool Op Res β ι σ) (schedule : List ι) : Pool Op Res β ι σ :=
  schedule.foldl (step h) pool

/-- Every operation is allowed in the state in which it is performed. -/
def Obeys (allowed : σ → Op → Prop) : Pool Op Res β ι σ → List ι → Prop
  | _, [] => True
  | pool, i :: rest =>
    (∀ op, pool.next i = some op → allowed pool.state op) ∧ Obeys allowed (pool.step h i) rest

instance decidableObeys {allowed : σ → Op → Prop} [∀ s op, Decidable (allowed s op)] :
    ∀ (pool : Pool Op Res β ι σ) (schedule : List ι), Decidable (pool.Obeys h allowed schedule)
  | _, [] => isTrue trivial
  | pool, i :: rest => @instDecidableAnd _ _
      (inferInstanceAs (Decidable (∀ op ∈ pool.next i, allowed pool.state op)))
      (decidableObeys (pool.step h i) rest)

theorem Obeys.and {h : Handler Op Res σ} {allowed allowed' : σ → Op → Prop} {schedule : List ι} :
    ∀ {pool : Pool Op Res β ι σ}, pool.Obeys h allowed schedule → pool.Obeys h allowed' schedule →
      pool.Obeys h (fun s op => allowed s op ∧ allowed' s op) schedule := by
  induction schedule with
  | nil => intro pool _ _; trivial
  | cons i rest ih =>
    intro pool hall hall'
    exact ⟨fun op hop => ⟨hall.1 op hop, hall'.1 op hop⟩, ih hall.2 hall'.2⟩

theorem Obeys.mono {h : Handler Op Res σ} {allowed allowed' : σ → Op → Prop} {schedule : List ι}
    (himp : ∀ s op, allowed s op → allowed' s op) :
    ∀ {pool : Pool Op Res β ι σ}, pool.Obeys h allowed schedule → pool.Obeys h allowed' schedule := by
  induction schedule with
  | nil => intro pool _; trivial
  | cons i rest ih =>
    intro pool hall
    exact ⟨fun op hop => himp _ op (hall.1 op hop), ih hall.2⟩

/-- A thread that has a step to do does it. -/
theorem step_of {h : Handler Op Res σ} {pool : Pool Op Res β ι σ} {i : ι} {op : Op}
    {next : Res op → Program Op Res β} {r : Res op} {s : σ}
    (hthread : pool.threads i = .step op next) (hanswer : h pool.state op = (r, s)) :
    pool.step h i = ⟨Function.update pool.threads i (next r), s⟩ := by
  unfold step
  rw [hthread]
  dsimp only
  rw [hanswer]

theorem step_cases {h : Handler Op Res σ} (pool : Pool Op Res β ι σ) (i : ι) :
    pool.next i = none ∧ pool.step h i = pool ∨
      ∃ op next, pool.threads i = .step op next ∧ pool.next i = some op ∧
        pool.step h i = ⟨Function.update pool.threads i (next (h pool.state op).1),
          (h pool.state op).2⟩ := by
  unfold Pool.next Pool.step
  cases pool.threads i with
  | ret b => exact .inl ⟨rfl, rfl⟩
  | step op next => exact .inr ⟨op, next, rfl, rfl, rfl⟩

/-- The journal only grows. -/
theorem journal_grows {h : Handler Op Res σ} (schedule : List ι) :
    ∀ pool : Pool Op Res β ι (σ × List Op),
      pool.state.2 <+: (pool.run (journal h) schedule).state.2 := by
  induction schedule with
  | nil => intro pool; exact List.prefix_rfl
  | cons i rest ih =>
    intro pool
    refine List.IsPrefix.trans ?_ (ih (pool.step (journal h) i))
    rcases step_cases (h := journal h) pool i with ⟨-, heq⟩ | ⟨op, next, -, -, heq⟩
    · rw [heq]
    · rw [heq]
      exact List.prefix_append _ _

/-- What is performed stands in the journal in the end. -/
theorem obeys_journal {h : Handler Op Res σ} (schedule : List ι) :
    ∀ pool : Pool Op Res β ι (σ × List Op), pool.Obeys (journal h)
      (fun _ op => op ∈ (pool.run (journal h) schedule).state.2) schedule := by
  induction schedule with
  | nil => intro pool; trivial
  | cons i rest ih =>
    intro pool
    refine ⟨fun op hop => ?_, ih _⟩
    refine (journal_grows rest (pool.step (journal h) i)).subset ?_
    rcases step_cases (h := journal h) pool i with ⟨hnone, -⟩ | ⟨op', next, -, hsome, heq⟩
    · rw [hnone] at hop
      cases hop
    · rw [hsome, Option.some.injEq] at hop
      rw [heq]
      exact List.mem_append_right _ (List.mem_singleton.mpr hop.symm)

end Pool

/-! ### A discipline that all threads keep -/

/-- What threads may rely on, and what they owe each other. -/
structure Discipline (h : Handler Op Res σ) where
  inv : σ → Prop
  /-- How the state may change while a thread waits. -/
  rely : σ → σ → Prop
  /-- What is assumed of the operations of a schedule. -/
  allowed : σ → Op → Prop
  /-- What every thread sees to itself. -/
  guarantee : σ → Op → Prop
  rely_refl : ∀ s, rely s s
  rely_trans : ∀ {a b c}, rely a b → rely b c → rely a c
  step : ∀ s op, inv s → guarantee s op → allowed s op → inv (h s op).2 ∧ rely s (h s op).2

variable {h : Handler Op Res σ} (D : Discipline h) (G : σ → Op → Prop)

/--
Whatever the other threads do in between, the program performs only operations in
`G`, and when it returns `a` then `Q a` holds from then on.
-/
def Safe : Program Op Res α → (α → σ → Prop) → σ → Prop
  | .ret a, Q, s => ∀ s', D.rely s s' → D.inv s' → Q a s'
  | .step op next, Q, s => ∀ s', D.rely s s' → D.inv s' →
      G s' op ∧ (D.allowed s' op → Safe (next (h s' op).1) Q (h s' op).2)

namespace Safe

variable {D G} {p : Program Op Res α} {Q Q' : α → σ → Prop} {s s' : σ}

/-- Waiting does no harm. -/
theorem wait (hp : Safe D G p Q s) (hs : D.rely s s') : Safe D G p Q s' := by
  cases p with
  | ret a => exact fun s'' hs' => hp s'' (D.rely_trans hs hs')
  | step op next => exact fun s'' hs' => hp s'' (D.rely_trans hs hs')

/-- It is enough to look at the state in which the program goes on. -/
theorem of_forall (hp : ∀ s', D.rely s s' → D.inv s' → Safe D G p Q s') : Safe D G p Q s := by
  cases p with
  | ret a => exact fun s' hs hinv => hp s' hs hinv s' (D.rely_refl s') hinv
  | step op next => exact fun s' hs hinv => hp s' hs hinv s' (D.rely_refl s') hinv

theorem mono (hp : Safe D G p Q s) (hQ : ∀ a s', D.inv s' → Q a s' → Q' a s') :
    Safe D G p Q' s := by
  induction p generalizing s with
  | ret a => exact fun s' hs hinv => hQ a s' hinv (hp s' hs hinv)
  | step op next ih =>
    intro s' hs hinv
    obtain ⟨hG, hnext⟩ := hp s' hs hinv
    exact ⟨hG, fun hallowed => ih _ (hnext hallowed)⟩

theorem bind {f : α → Program Op Res β} {Q : β → σ → Prop}
    (hp : Safe D G p (fun a s' => Safe D G (f a) Q s') s) : Safe D G (p >>= f) Q s := by
  induction p generalizing s with
  | ret a => exact of_forall hp
  | step op next ih =>
    intro s' hs hinv
    obtain ⟨hG, hnext⟩ := hp s' hs hinv
    exact ⟨hG, fun hallowed => ih _ (hnext hallowed)⟩

theorem perform {op : Op} {Q : Res op → σ → Prop}
    (hop : ∀ s', D.rely s s' → D.inv s' → G s' op ∧ (D.allowed s' op →
      ∀ s'', D.rely (h s' op).2 s'' → D.inv s'' → Q (h s' op).1 s'')) :
    Safe D G (Program.perform op) Q s := hop

/-- Nothing but what may be relied on happens while a program runs. -/
theorem since (hG : ∀ s op, G s op → D.guarantee s op) (hp : Safe D G p Q s) :
    Safe D G p (fun a s' => D.rely s s' ∧ Q a s') s := by
  have hstart : ∀ s₀, D.rely s₀ s → Safe D G p (fun a s' => D.rely s₀ s' ∧ Q a s') s := by
    induction p generalizing s with
    | ret a => exact fun s₀ h₀ s' hs hinv => ⟨D.rely_trans h₀ hs, hp s' hs hinv⟩
    | step op next ih =>
      intro s₀ h₀ s' hs hinv
      obtain ⟨hop, hnext⟩ := hp s' hs hinv
      refine ⟨hop, fun hallowed => ih _ (hnext hallowed) s₀ ?_⟩
      have hmine := (D.step s' op hinv (hG s' op hop) hallowed).2
      exact D.rely_trans (D.rely_trans h₀ hs) hmine
  exact hstart s (D.rely_refl s)

/-- A program that runs alone. -/
theorem run (hG : ∀ s op, G s op → D.guarantee s op ∧ D.allowed s op) (hinv : D.inv s)
    (hp : Safe D G p Q s) : D.inv (p.run h s).2 ∧ Q (p.run h s).1 (p.run h s).2 := by
  induction p generalizing s with
  | ret a => exact ⟨hinv, hp s (D.rely_refl s) hinv⟩
  | step op next ih =>
    obtain ⟨hop, hnext⟩ := hp s (D.rely_refl s) hinv
    obtain ⟨hguarantee, hallowed⟩ := hG s op hop
    exact ih _ (D.step s op hinv hguarantee hallowed).1 (hnext hallowed)

/-- Every step of a program that runs alone is one of its own. -/
theorem along (hG : ∀ s op, G s op → D.guarantee s op ∧ D.allowed s op) (hinv : D.inv s)
    (hp : Safe D G p Q s) : Along h G p s := by
  induction p generalizing s with
  | ret a => trivial
  | step op next ih =>
    obtain ⟨hop, hnext⟩ := hp s (D.rely_refl s) hinv
    obtain ⟨hguarantee, hallowed⟩ := hG s op hop
    exact ⟨hop, ih _ (D.step s op hinv hguarantee hallowed).1 (hnext hallowed)⟩

end Safe

/--
**Threads that are safe one by one are safe together**: in every schedule that obeys
what is assumed, the invariant holds and every thread stays safe.
-/
theorem Pool.safe_run [DecidableEq ι] {G : ι → σ → Op → Prop} {Q : ι → β → σ → Prop}
    (hG : ∀ i s op, G i s op → D.guarantee s op) (schedule : List ι) :
    ∀ pool : Pool Op Res β ι σ, D.inv pool.state →
      (∀ i, Safe D (G i) (pool.threads i) (Q i) pool.state) →
      pool.Obeys h D.allowed schedule →
      D.inv (pool.run h schedule).state ∧
        ∀ i, Safe D (G i) ((pool.run h schedule).threads i) (Q i) (pool.run h schedule).state := by
  induction schedule with
  | nil => exact fun pool hinv hsafe _ => ⟨hinv, hsafe⟩
  | cons i rest ih =>
    rintro pool hinv hsafe ⟨hop, hrest⟩
    rcases step_cases (h := h) pool i with ⟨-, heq⟩ | ⟨op, next, hthread, hsome, heq⟩
    · have hrun : pool.run h (i :: rest) = pool.run h rest := congrArg (Pool.run h · rest) heq
      rw [heq] at hrest
      rw [hrun]
      exact ih pool hinv hsafe hrest
    · have hrun : pool.run h (i :: rest) = (pool.step h i).run h rest := rfl
      rw [hrun]
      have hallowed := hop op hsome
      have hi := hsafe i
      rw [hthread] at hi
      obtain ⟨hmine, hnext⟩ := hi pool.state (D.rely_refl _) hinv
      obtain ⟨hinv', hrely⟩ := D.step pool.state op hinv (hG i _ _ hmine) hallowed
      refine ih _ ?_ ?_ hrest
      · rw [heq]
        exact hinv'
      · intro j
        rw [heq]
        dsimp only
        by_cases hj : j = i
        · rw [hj, Function.update_self]
          exact hnext hallowed
        · rw [Function.update_of_ne hj]
          exact (hsafe j).wait hrely

/-- What a thread that has returned promised. -/
theorem Safe.returned {Q : β → σ → Prop} {b : β} {s : σ} (hinv : D.inv s)
    (hsafe : Safe D G (.ret b) Q s) : Q b s := hsafe s (D.rely_refl s) hinv

/-! ### Programs that may fail -/

/-- `Safe` for a program that may fail. -/
def SafeExcept (x : ExceptT ε (Program Op Res) α) (s : σ) (ok : α → σ → Prop)
    (err : ε → σ → Prop) : Prop :=
  Safe D G x.run (fun r s' => match r with
    | .ok a => ok a s'
    | .error e => err e s') s

/-- `Safe` for a program that may fail and owns a local state. -/
def SafeState (x : ExceptT ε (StateT τ (Program Op Res)) α) (t : τ) (s : σ)
    (ok : α → τ → σ → Prop) (err : ε → τ → σ → Prop) : Prop :=
  Safe D G (x.run.run t) (fun r s' => match r with
    | (.ok a, t') => ok a t' s'
    | (.error e, t') => err e t' s') s

namespace SafeExcept

variable {D G} {x : ExceptT ε (Program Op Res) α} {s : σ} {err err' : ε → σ → Prop}

theorem mono {ok ok' : α → σ → Prop} (hx : SafeExcept D G x s ok err)
    (hok : ∀ a s', D.inv s' → ok a s' → ok' a s')
    (herr : ∀ e s', D.inv s' → err e s' → err' e s') : SafeExcept D G x s ok' err' := by
  refine Safe.mono hx ?_
  rintro (e | a) s' hinv h
  · exact herr e s' hinv h
  · exact hok a s' hinv h

theorem pure {a : α} {ok : α → σ → Prop} (ha : ∀ s', D.rely s s' → D.inv s' → ok a s') :
    SafeExcept D G (Pure.pure a) s ok err := ha

theorem throw {e : ε} {ok : α → σ → Prop} (he : ∀ s', D.rely s s' → D.inv s' → err e s') :
    SafeExcept D G (MonadExcept.throw e : ExceptT ε (Program Op Res) α) s ok err := he

theorem bind {f : α → ExceptT ε (Program Op Res) β} {ok : β → σ → Prop}
    (hx : SafeExcept D G x s (fun a s' => SafeExcept D G (f a) s' ok err)
      (fun e s' => ∀ s'', D.rely s' s'' → D.inv s'' → err e s'')) :
    SafeExcept D G (x >>= f) s ok err := by
  unfold SafeExcept
  rw [ExceptT.run_bind]
  refine Safe.bind (Safe.mono hx ?_)
  rintro (e | a) s' hinv h
  · exact h
  · exact h

theorem adapt {g : ε → ε} {ok : α → σ → Prop}
    (hx : SafeExcept D G x s (fun a s' => ∀ s'', D.rely s' s'' → D.inv s'' → ok a s'')
      (fun e s' => ∀ s'', D.rely s' s'' → D.inv s'' → err (g e) s'')) :
    SafeExcept D G (ExceptT.adapt g x : ExceptT ε (Program Op Res) α) s ok err := by
  unfold SafeExcept
  rw [run_adapt]
  refine Safe.bind (Safe.mono hx ?_)
  rintro (e | a) s' hinv h
  · exact h
  · exact h

end SafeExcept

namespace SafeState

variable {D G} {x : ExceptT ε (StateT τ (Program Op Res)) α} {t : τ} {s : σ}
  {err err' : ε → τ → σ → Prop}

theorem mono {ok ok' : α → τ → σ → Prop} (hx : SafeState D G x t s ok err)
    (hok : ∀ a t' s', D.inv s' → ok a t' s' → ok' a t' s')
    (herr : ∀ e t' s', D.inv s' → err e t' s' → err' e t' s') : SafeState D G x t s ok' err' := by
  refine Safe.mono hx ?_
  rintro ⟨e | a, t'⟩ s' hinv h
  · exact herr e t' s' hinv h
  · exact hok a t' s' hinv h

theorem pure {a : α} {ok : α → τ → σ → Prop} (ha : ∀ s', D.rely s s' → D.inv s' → ok a t s') :
    SafeState D G (Pure.pure a) t s ok err := ha

theorem throw {e : ε} {ok : α → τ → σ → Prop} (he : ∀ s', D.rely s s' → D.inv s' → err e t s') :
    SafeState D G (MonadExcept.throw e : ExceptT ε (StateT τ (Program Op Res)) α) t s ok err := he

theorem bind {f : α → ExceptT ε (StateT τ (Program Op Res)) β} {ok : β → τ → σ → Prop}
    (hx : SafeState D G x t s (fun a t' s' => SafeState D G (f a) t' s' ok err)
      (fun e t' s' => ∀ s'', D.rely s' s'' → D.inv s'' → err e t' s'')) :
    SafeState D G (x >>= f) t s ok err := by
  unfold SafeState
  rw [ExceptT.run_bind, StateT.run_bind]
  refine Safe.bind (Safe.mono hx ?_)
  rintro ⟨e | a, t'⟩ s' hinv h
  · exact h
  · exact h

theorem since {ok : α → τ → σ → Prop} (hG : ∀ s op, G s op → D.guarantee s op)
    (hx : SafeState D G x t s ok err) :
    SafeState D G x t s (fun a t' s' => D.rely s s' ∧ ok a t' s')
      (fun e t' s' => D.rely s s' ∧ err e t' s') := by
  refine Safe.mono (Safe.since hG hx) ?_
  rintro ⟨e | a, t'⟩ s' - h
  · exact h
  · exact h

theorem modifyState {g : τ → τ} {ok : PUnit → τ → σ → Prop}
    (hok : ∀ s', D.rely s s' → D.inv s' → ok ⟨⟩ (g t) s') :
    SafeState D G (modify g : ExceptT ε (StateT τ (Program Op Res)) PUnit) t s ok err := hok

theorem stateless {y : ExceptT ε (Program Op Res) α} {ok : α → τ → σ → Prop}
    (hy : SafeExcept D G y s (fun a s' => ∀ s'', D.rely s' s'' → D.inv s'' → ok a t s'')
      (fun e s' => ∀ s'', D.rely s' s'' → D.inv s'' → err e t s'')) :
    SafeState D G (Program.stateless y) t s ok err := by
  show Safe D G (y.run >>= fun r => Pure.pure (r, t)) _ s
  refine Safe.bind (Safe.mono hy ?_)
  rintro (e | a) s' hinv h
  · exact h
  · exact h

theorem attempt {y : ExceptT ε (Program Op Res) α} {ok : Unit → τ → σ → Prop}
    (hy : Safe D G y.run (fun _ s' => ∀ s'', D.rely s' s'' → D.inv s'' → ok () t s'') s) :
    SafeState D G (Program.attempt y) t s ok err := by
  have hrun : (Program.attempt y : ExceptT ε (StateT τ (Program Op Res)) Unit).run.run t
      = y.run >>= fun _ => Pure.pure (.ok (), t) := by
    show (y.run >>= fun r => Pure.pure (r, t)) >>= _ = _
    rw [bind_assoc]
    rfl
  unfold SafeState
  rw [hrun]
  exact Safe.bind (Safe.mono hy fun _ s' _ h => h)

end SafeState

end Program
