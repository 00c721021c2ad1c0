/-
Programs that ask the outside for answers.

A `Program` is a tree: it has returned, or it performs one operation and goes on
with the reply.  Nothing in it says what an operation does.  A handler says that,
and two meanings come from one program:

  * `run` answers every operation at once, which is a sequential call;
  * a scheduler may instead answer one operation of one program and then one of
    another, which is how calls of several clients interleave.

Because the tree is finite, `run` is a total function and every property of a
run is proved by induction on the tree.
-/
import Mathlib

/-- A computation over the operations `Op`, where `op` is answered by a `Res op`. -/
inductive Program (Op : Type) (Res : Op → Type) (α : Type) : Type
  | ret (a : α) : Program Op Res α
  | step (op : Op) (next : Res op → Program Op Res α) : Program Op Res α

namespace Program

variable {Op : Type} {Res : Op → Type} {α β γ : Type}

/-- Run `p`, then go on with what it returned. -/
protected def bind : Program Op Res α → (α → Program Op Res β) → Program Op Res β
  | ret a, f => f a
  | step op next, f => step op fun r => (next r).bind f

instance : Monad (Program Op Res) where
  pure := ret
  bind := Program.bind

/-- Perform one operation and return its reply. -/
def perform (op : Op) : Program Op Res (Res op) := step op ret

@[simp] theorem pure_eq (a : α) : (pure a : Program Op Res α) = ret a := rfl

@[simp] theorem ret_bind (a : α) (f : α → Program Op Res β) : (ret a >>= f) = f a := rfl

@[simp] theorem step_bind (op : Op) (next : Res op → Program Op Res α)
    (f : α → Program Op Res β) : (step op next >>= f) = step op fun r => next r >>= f := rfl

@[simp] theorem perform_bind (op : Op) (f : Res op → Program Op Res β) :
    (perform op >>= f) = step op f := rfl

theorem bind_ret (p : Program Op Res α) : (p >>= ret) = p := by
  induction p with
  | ret a => rfl
  | step op next ih => simp [ih]

theorem bind_assoc (p : Program Op Res α) (f : α → Program Op Res β)
    (g : β → Program Op Res γ) : (p >>= f >>= g) = p >>= fun a => f a >>= g := by
  induction p with
  | ret a => rfl
  | step op next ih => simp [ih]

instance : LawfulMonad (Program Op Res) :=
  LawfulMonad.mk' _ (fun p => bind_ret p) (fun _ _ => rfl) bind_assoc

/-! ### Sequential runs -/

/-- What the outside answers, and how answering changes it. -/
abbrev Handler (Op : Type) (Res : Op → Type) (σ : Type) : Type :=
  σ → (op : Op) → Res op × σ

variable {σ : Type} (h : Handler Op Res σ)

/-- Answer every operation of a program in turn. -/
def run : Program Op Res α → σ → α × σ
  | ret a, s => (a, s)
  | step op next, s => run (next (h s op).1) (h s op).2

@[simp] theorem run_ret (a : α) (s : σ) : (ret a : Program Op Res α).run h s = (a, s) := rfl

@[simp] theorem run_step (op : Op) (next : Res op → Program Op Res α) (s : σ) :
    (step op next).run h s = (next (h s op).1).run h (h s op).2 := rfl

@[simp] theorem run_perform (op : Op) (s : σ) :
    (perform op : Program Op Res (Res op)).run h s = h s op := rfl

@[simp] theorem run_bind (p : Program Op Res α) (f : α → Program Op Res β) (s : σ) :
    (p >>= f).run h s = (f (p.run h s).1).run h (p.run h s).2 := by
  induction p generalizing s with
  | ret a => rfl
  | step op next ih => simp [ih]

/-- The operations a run performs, in order. -/
def trace : Program Op Res α → σ → List Op
  | ret _, _ => []
  | step op next, s => op :: trace (next (h s op).1) (h s op).2

@[simp] theorem trace_ret (a : α) (s : σ) : (ret a : Program Op Res α).trace h s = [] := rfl

@[simp] theorem trace_step (op : Op) (next : Res op → Program Op Res α) (s : σ) :
    (step op next).trace h s = op :: (next (h s op).1).trace h (h s op).2 := rfl

/-! ### Programs that may fail

A failing program is one that returns an `Except`; a failing program over a local
state keeps the state it had when it failed.  Each of the two has one rule for
sequencing, and no proof about a particular program unfolds the transformers.
-/

section Fallible

variable {ε τ : Type}

/-- Run a program that may fail. -/
def exec (x : ExceptT ε (Program Op Res) α) (s : σ) : Except ε α × σ := x.run.run h s

/-- Run a program that may fail and owns a local state `τ`. -/
def execState (x : ExceptT ε (StateT τ (Program Op Res)) α) (t : τ) (s : σ) :
    (Except ε α × τ) × σ := (x.run.run t).run h s

@[simp] theorem exec_pure (a : α) (s : σ) :
    exec h (pure a : ExceptT ε (Program Op Res) α) s = (.ok a, s) := rfl

theorem exec_bind (x : ExceptT ε (Program Op Res) α) (f : α → ExceptT ε (Program Op Res) β)
    (s : σ) :
    exec h (x >>= f) s =
      match exec h x s with
      | (.ok a, s') => exec h (f a) s'
      | (.error e, s') => (.error e, s') := by
  simp only [exec, ExceptT.run_bind, run_bind]
  rcases x.run.run h s with ⟨r, s'⟩
  cases r <;> rfl

/-- The step rule: what an answered first part leaves for the rest. -/
theorem exec_bind_ok {x : ExceptT ε (Program Op Res) α} {s s' : σ} {a : α}
    (hx : exec h x s = (.ok a, s')) (f : α → ExceptT ε (Program Op Res) β) :
    exec h (x >>= f) s = exec h (f a) s' := by
  rw [exec_bind, hx]

theorem exec_bind_error {x : ExceptT ε (Program Op Res) α} {s s' : σ} {e : ε}
    (hx : exec h x s = (.error e, s')) (f : α → ExceptT ε (Program Op Res) β) :
    exec h (x >>= f) s = (.error e, s') := by
  rw [exec_bind, hx]

/-- What a run returns can be evaluated apart from its final state. -/
theorem exec_eq_of_fst {x : ExceptT ε (Program Op Res) α} {s : σ} {r : Except ε α}
    (hr : (exec h x s).1 = r) : exec h x s = (r, (exec h x s).2) := Prod.ext hr rfl

/-- The inversion rule: a sequence that succeeds has succeeding parts. -/
theorem exec_bind_eq_ok {x : ExceptT ε (Program Op Res) α}
    {f : α → ExceptT ε (Program Op Res) β} {s s'' : σ} {b : β}
    (hx : exec h (x >>= f) s = (.ok b, s'')) :
    ∃ a s', exec h x s = (.ok a, s') ∧ exec h (f a) s' = (.ok b, s'') := by
  rw [exec_bind] at hx
  rcases hr : exec h x s with ⟨r, s'⟩
  rw [hr] at hx
  cases r with
  | ok a => exact ⟨a, s', rfl, hx⟩
  | error e => cases hx

/-- A program whose errors are changed goes on from what the program returned. -/
theorem run_adapt (g : ε → ε) (x : ExceptT ε (Program Op Res) α) :
    (ExceptT.adapt g x : ExceptT ε (Program Op Res) α).run
      = x.run >>= fun r => Pure.pure (Except.mapError g r) := by
  show Except.mapError g <$> x.run = _
  rw [← bind_pure_comp]

theorem execState_bind (x : ExceptT ε (StateT τ (Program Op Res)) α)
    (f : α → ExceptT ε (StateT τ (Program Op Res)) β) (t : τ) (s : σ) :
    execState h (x >>= f) t s =
      match execState h x t s with
      | ((.ok a, t'), s') => execState h (f a) t' s'
      | ((.error e, t'), s') => ((.error e, t'), s') := by
  simp only [execState, ExceptT.run_bind, StateT.run_bind, run_bind]
  rcases (x.run.run t).run h s with ⟨⟨r, t'⟩, s'⟩
  cases r <;> rfl

theorem execState_bind_ok {x : ExceptT ε (StateT τ (Program Op Res)) α} {t t' : τ} {s s' : σ}
    {a : α} (hx : execState h x t s = ((.ok a, t'), s'))
    (f : α → ExceptT ε (StateT τ (Program Op Res)) β) :
    execState h (x >>= f) t s = execState h (f a) t' s' := by
  rw [execState_bind, hx]

theorem execState_bind_error {x : ExceptT ε (StateT τ (Program Op Res)) α} {t t' : τ} {s s' : σ}
    {e : ε} (hx : execState h x t s = ((.error e, t'), s'))
    (f : α → ExceptT ε (StateT τ (Program Op Res)) β) :
    execState h (x >>= f) t s = ((.error e, t'), s') := by
  rw [execState_bind, hx]

theorem execState_bind_pure (x : ExceptT ε (StateT τ (Program Op Res)) α) (g : α → β) (t : τ)
    (s : σ) :
    execState h (x >>= fun a => pure (g a)) t s
      = (((execState h x t s).1.1.map g, (execState h x t s).1.2), (execState h x t s).2) := by
  rw [execState_bind]
  rcases execState h x t s with ⟨⟨r, t'⟩, s'⟩
  cases r <;> rfl

@[simp] theorem execState_get (t : τ) (s : σ) :
    execState h (get : ExceptT ε (StateT τ (Program Op Res)) τ) t s = ((.ok t, t), s) := rfl

@[simp] theorem execState_modify (g : τ → τ) (t : τ) (s : σ) :
    execState h (modify g : ExceptT ε (StateT τ (Program Op Res)) PUnit) t s
      = ((.ok ⟨⟩, g t), s) := rfl

/-- A program without local state, among those with one. -/
def stateless (x : ExceptT ε (Program Op Res) α) : ExceptT ε (StateT τ (Program Op Res)) α :=
  ExceptT.mk (StateT.lift x.run)

theorem execState_stateless (x : ExceptT ε (Program Op Res) α) (t : τ) (s : σ) :
    execState h (stateless x) t s = (((exec h x s).1, t), (exec h x s).2) := by
  show Program.run h (x.run >>= fun r => pure (r, t)) s = _
  rw [run_bind]
  rfl

theorem execState_stateless_eq {x : ExceptT ε (Program Op Res) α} {r : Except ε α} {s s' : σ}
    (hx : exec h x s = (r, s')) (t : τ) : execState h (stateless x) t s = ((r, t), s') := by
  rw [execState_stateless, hx]

/-- Run `cleanup` after `x` whether it failed or not, and keep what `x` returned. -/
def ensuring (x : ExceptT ε (StateT τ (Program Op Res)) α) (cleanup : Program Op Res Unit) :
    ExceptT ε (StateT τ (Program Op Res)) α :=
  ExceptT.mk do
    let r ← x.run
    StateT.lift cleanup
    return r

theorem execState_ensuring (x : ExceptT ε (StateT τ (Program Op Res)) α)
    (cleanup : Program Op Res Unit) (t : τ) (s : σ) :
    execState h (ensuring x cleanup) t s
      = ((execState h x t s).1, (cleanup.run h (execState h x t s).2).2) := by
  have hrun : (ensuring x cleanup).run.run t
      = x.run.run t >>= fun r => cleanup >>= fun _ => pure r := by
    show (x.run.run t >>= fun r => (cleanup >>= fun u => pure (u, r.2)) >>= fun p =>
      pure (r.1, p.2)) = _
    refine congrArg _ (funext fun r => ?_)
    rw [bind_assoc]
    rfl
  rw [execState, hrun, run_bind, run_bind]
  rfl

/-- Run `x` and go on with its outcome, whether it failed or not. -/
def outcome (x : ExceptT ε (Program Op Res) α) :
    ExceptT ε (StateT τ (Program Op Res)) (Except ε α) :=
  ExceptT.mk do
    let r ← StateT.lift x.run
    return .ok r

theorem execState_outcome (x : ExceptT ε (Program Op Res) α) (t : τ) (s : σ) :
    execState h (outcome x) t s = ((.ok (exec h x s).1, t), (exec h x s).2) := by
  have hrun : (outcome (τ := τ) x).run.run t = x.run >>= fun r => pure (.ok r, t) := by
    show (x.run >>= fun r => pure (r, t)) >>= _ = _
    rw [bind_assoc]
    rfl
  rw [execState, hrun, run_bind]
  rfl

/-- Run `x` and go on whether it failed or not. -/
def attempt (x : ExceptT ε (Program Op Res) α) : ExceptT ε (StateT τ (Program Op Res)) Unit :=
  ExceptT.mk do
    let _ ← StateT.lift x.run
    return .ok ()

theorem execState_attempt (x : ExceptT ε (Program Op Res) α) (t : τ) (s : σ) :
    execState h (attempt x) t s = ((.ok (), t), (exec h x s).2) := by
  have hrun : (attempt (τ := τ) x).run.run t = x.run >>= fun _ => pure (.ok (), t) := by
    show (x.run >>= fun r => pure (r, t)) >>= _ = _
    rw [bind_assoc]
    rfl
  rw [execState, hrun, run_bind]
  rfl

/-- Change the local state by `g` when `x` fails. -/
def onError (g : τ → τ) (x : ExceptT ε (Program Op Res) α) :
    ExceptT ε (StateT τ (Program Op Res)) α :=
  ExceptT.mk do
    let r ← StateT.lift x.run
    match r with
    | .ok a => return .ok a
    | .error e => do
        modify g
        return .error e

theorem execState_onError (g : τ → τ) (x : ExceptT ε (Program Op Res) α) (t : τ) (s : σ) :
    execState h (onError g x) t s =
      match exec h x s with
      | (.ok a, s') => ((.ok a, t), s')
      | (.error e, s') => ((.error e, g t), s') := by
  have hrun : (onError g x).run.run t = x.run >>= fun r =>
      match r with
      | .ok a => pure (.ok a, t)
      | .error e => pure (.error e, g t) := by
    show (x.run >>= fun r => pure (r, t)) >>= _ = _
    rw [bind_assoc]
    refine congrArg _ (funext fun r => ?_)
    cases r <;> rfl
  rw [execState, hrun, run_bind, exec]
  rcases x.run.run h s with ⟨r, s'⟩
  cases r <;> rfl

end Fallible

/-! ### Translation

A layer that implements the operations `Op` by programs over `Op'` turns programs
over the one into programs over the other.
-/

section Translate

variable {Op' : Type} {Res' : Op' → Type} (t : (op : Op) → Program Op' Res' (Res op))

/-- Replace every operation by the program that implements it. -/
def translate : Program Op Res α → Program Op' Res' α
  | ret a => ret a
  | step op next => t op >>= fun r => translate (next r)

@[simp] theorem translate_ret (a : α) : translate t (ret a : Program Op Res α) = ret a := rfl

@[simp] theorem translate_perform (op : Op) :
    translate t (perform op : Program Op Res (Res op)) = t op := by
  show (t op >>= fun r => ret r) = t op
  exact bind_ret _

@[simp] theorem translate_bind (p : Program Op Res α) (f : α → Program Op Res β) :
    translate t (p >>= f) = translate t p >>= fun a => translate t (f a) := by
  induction p with
  | ret a => rfl
  | step op next ih =>
    show (t op >>= fun r => translate t (next r >>= f)) = (t op >>= _) >>= _
    rw [bind_assoc]
    exact congrArg _ (funext fun r => ih r)

/-- The handler a layer makes of the one below it. -/
def through {τ : Type} (h' : Handler Op' Res' τ) : Handler Op Res τ := fun s op => (t op).run h' s

theorem run_translate {τ : Type} (h' : Handler Op' Res' τ) (p : Program Op Res α) (s : τ) :
    (translate t p).run h' s = p.run (through t h') s := by
  induction p generalizing s with
  | ret a => rfl
  | step op next ih =>
    show ((t op >>= fun r => translate t (next r)).run h' s) = _
    rw [run_bind]
    exact ih _ _

end Translate

/-! ### Every step of a run -/

section Along

/-- Every operation that the run performs is in `A`, where it is performed. -/
def Along (A : σ → Op → Prop) : Program Op Res α → σ → Prop
  | ret _, _ => True
  | step op next, s => A s op ∧ Along A (next (h s op).1) (h s op).2

variable {h} {A B : σ → Op → Prop} {p : Program Op Res α} {s : σ}

theorem along_bind {f : α → Program Op Res β} :
    Along h A (p >>= f) s ↔ Along h A p s ∧ Along h A (f (p.run h s).1) (p.run h s).2 := by
  induction p generalizing s with
  | ret a => exact (and_iff_right trivial).symm
  | step op next ih =>
    show A s op ∧ Along h A (next _ >>= f) _ ↔ (A s op ∧ Along h A (next _) _) ∧ _
    rw [ih, and_assoc]
    rfl

theorem Along.mono (hp : Along h A p s) (hA : ∀ s op, A s op → B s op) : Along h B p s := by
  induction p generalizing s with
  | ret a => trivial
  | step op next ih => exact ⟨hA s op hp.1, ih _ hp.2⟩

/-- What is true of the steps inside a layer is true of the steps of the program below it. -/
theorem along_translate {Op' : Type} {Res' : Op' → Type} {τ : Type}
    {t : (op : Op) → Program Op' Res' (Res op)}
    {h' : Handler Op' Res' τ} {A : τ → Op' → Prop} {p : Program Op Res α} {s : τ} :
    Along h' A (translate t p) s ↔ Along (through t h') (fun s op => Along h' A (t op) s) p s := by
  induction p generalizing s with
  | ret a => exact Iff.rfl
  | step op next ih =>
    show Along h' A (t op >>= fun r => translate t (next r)) s ↔ _
    rw [along_bind, ih]
    rfl

end Along

end Program
