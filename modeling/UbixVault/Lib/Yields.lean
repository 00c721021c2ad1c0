/-
Pre- and postconditions of programs that may fail.

`Yields h x s ok err` says how a run of `x` from `s` ends: a value satisfies `ok`
together with the state it leaves, an error satisfies `err`.  There is one rule
per way of building a program.  In the rule for sequencing the error condition is
the same for both parts, so what holds of every failure is stated once, however
many steps there are.
-/
import UbixVault.Lib.Program

namespace Program

variable {Op : Type} {Res : Op → Type} {α β ε σ τ : Type} {h : Handler Op Res σ}

/-! ### Without local state -/

/-- A run of `x` from `s` ends with a value and state in `ok`, or an error and state in `err`. -/
def Yields (h : Handler Op Res σ) (x : ExceptT ε (Program Op Res) α) (s : σ)
    (ok : α → σ → Prop) (err : ε → σ → Prop) : Prop :=
  match exec h x s with
  | (.ok a, s') => ok a s'
  | (.error e, s') => err e s'

namespace Yields

variable {x : ExceptT ε (Program Op Res) α} {f : α → ExceptT ε (Program Op Res) β} {s s' : σ}
  {ok ok' : α → σ → Prop} {err err' : ε → σ → Prop}

theorem of_ok (hx : Yields h x s ok err) {a : α} (hrun : exec h x s = (.ok a, s')) : ok a s' := by
  unfold Yields at hx
  rwa [hrun] at hx

theorem of_error (hx : Yields h x s ok err) {e : ε} (hrun : exec h x s = (.error e, s')) :
    err e s' := by
  unfold Yields at hx
  rwa [hrun] at hx

/-- A program that cannot fail returns. -/
theorem returns (hx : Yields h x s ok fun _ _ => False) :
    ∃ a s', exec h x s = (.ok a, s') ∧ ok a s' := by
  unfold Yields at hx
  rcases hrun : exec h x s with ⟨r, s'⟩
  rw [hrun] at hx
  cases r with
  | ok a => exact ⟨a, s', rfl, hx⟩
  | error e => exact hx.elim

theorem mono (hx : Yields h x s ok err) (hok : ∀ a s', ok a s' → ok' a s')
    (herr : ∀ e s', err e s' → err' e s') : Yields h x s ok' err' := by
  unfold Yields at hx ⊢
  rcases hrun : exec h x s with ⟨r, s'⟩
  rw [hrun] at hx
  cases r with
  | ok a => exact hok a s' hx
  | error e => exact herr e s' hx

theorem pure {a : α} (ha : ok a s) : Yields h (Pure.pure a) s ok err := ha

theorem throw {e : ε} (he : err e s) :
    Yields h (MonadExcept.throw e : ExceptT ε (Program Op Res) α) s ok err := he

/-- The rule for sequencing: the first part leads to where the second succeeds. -/
theorem bind {ok : β → σ → Prop}
    (hx : Yields h x s (fun a s' => Yields h (f a) s' ok err) err) :
    Yields h (x >>= f) s ok err := by
  unfold Yields at hx ⊢
  rw [exec_bind]
  rcases hrun : exec h x s with ⟨r, s'⟩
  rw [hrun] at hx
  cases r with
  | ok a => exact hx
  | error e => exact hx

theorem map {g : α → β} {ok : β → σ → Prop} (hx : Yields h x s (fun a s' => ok (g a) s') err) :
    Yields h (g <$> x) s ok err := by
  rw [← bind_pure_comp]
  exact bind hx

end Yields

/-! ### With a local state -/

/-- The same for a program with a local state, which the conditions speak about too. -/
def YieldsState (h : Handler Op Res σ) (x : ExceptT ε (StateT τ (Program Op Res)) α) (t : τ)
    (s : σ) (ok : α → τ → σ → Prop) (err : ε → τ → σ → Prop) : Prop :=
  match execState h x t s with
  | ((.ok a, t'), s') => ok a t' s'
  | ((.error e, t'), s') => err e t' s'

namespace YieldsState

variable {x : ExceptT ε (StateT τ (Program Op Res)) α}
  {f : α → ExceptT ε (StateT τ (Program Op Res)) β} {t t' : τ} {s s' : σ}
  {ok ok' : α → τ → σ → Prop} {err err' : ε → τ → σ → Prop}

theorem returns (hx : YieldsState h x t s ok fun _ _ _ => False) :
    ∃ a t' s', execState h x t s = ((.ok a, t'), s') ∧ ok a t' s' := by
  unfold YieldsState at hx
  rcases hrun : execState h x t s with ⟨⟨r, t'⟩, s'⟩
  rw [hrun] at hx
  cases r with
  | ok a => exact ⟨a, t', s', rfl, hx⟩
  | error e => exact hx.elim

theorem mono (hx : YieldsState h x t s ok err) (hok : ∀ a t' s', ok a t' s' → ok' a t' s')
    (herr : ∀ e t' s', err e t' s' → err' e t' s') : YieldsState h x t s ok' err' := by
  unfold YieldsState at hx ⊢
  rcases hrun : execState h x t s with ⟨⟨r, t'⟩, s'⟩
  rw [hrun] at hx
  cases r with
  | ok a => exact hok a t' s' hx
  | error e => exact herr e t' s' hx

/-- A condition on outcomes holds of the outcome there is. -/
theorem outcome_holds {O : Except ε α → τ → σ → Prop}
    (hx : YieldsState h x t s (fun a => O (.ok a)) (fun e => O (.error e))) :
    O (execState h x t s).1.1 (execState h x t s).1.2 (execState h x t s).2 := by
  unfold YieldsState at hx
  rcases hrun : execState h x t s with ⟨⟨r, t'⟩, s'⟩
  rw [hrun] at hx
  cases r with
  | ok a => exact hx
  | error e => exact hx

theorem pure {a : α} (ha : ok a t s) : YieldsState h (Pure.pure a) t s ok err := ha

theorem throw {e : ε} (he : err e t s) :
    YieldsState h (MonadExcept.throw e : ExceptT ε (StateT τ (Program Op Res)) α) t s ok err := he

theorem bind {ok : β → τ → σ → Prop}
    (hx : YieldsState h x t s (fun a t' s' => YieldsState h (f a) t' s' ok err) err) :
    YieldsState h (x >>= f) t s ok err := by
  unfold YieldsState at hx ⊢
  rw [execState_bind]
  rcases hrun : execState h x t s with ⟨⟨r, t'⟩, s'⟩
  rw [hrun] at hx
  cases r with
  | ok a => exact hx
  | error e => exact hx

theorem get_bind {f : τ → ExceptT ε (StateT τ (Program Op Res)) β} {ok : β → τ → σ → Prop}
    (hf : YieldsState h (f t) t s ok err) : YieldsState h (get >>= f) t s ok err :=
  bind hf

theorem set_bind {f : PUnit → ExceptT ε (StateT τ (Program Op Res)) β} {ok : β → τ → σ → Prop}
    (hf : YieldsState h (f ⟨⟩) t' s ok err) : YieldsState h (set t' >>= f) t s ok err :=
  bind hf

theorem modify_bind {g : τ → τ} {f : PUnit → ExceptT ε (StateT τ (Program Op Res)) β}
    {ok : β → τ → σ → Prop} (hf : YieldsState h (f ⟨⟩) (g t) s ok err) :
    YieldsState h (modify g >>= f) t s ok err :=
  bind hf

variable {y : ExceptT ε (Program Op Res) α}

theorem stateless (hy : Yields h y s (fun a s' => ok a t s') (fun e s' => err e t s')) :
    YieldsState h (Program.stateless y) t s ok err := by
  unfold YieldsState
  rw [execState_stateless]
  unfold Yields at hy
  rcases hrun : exec h y s with ⟨r, s'⟩
  rw [hrun] at hy
  cases r with
  | ok a => exact hy
  | error e => exact hy

theorem onError {g : τ → τ}
    (hy : Yields h y s (fun a s' => ok a t s') (fun e s' => err e (g t) s')) :
    YieldsState h (Program.onError g y) t s ok err := by
  unfold YieldsState
  rw [execState_onError]
  unfold Yields at hy
  rcases hrun : exec h y s with ⟨r, s'⟩
  rw [hrun] at hy
  cases r with
  | ok a => exact hy
  | error e => exact hy

theorem outcome {ok : Except ε α → τ → σ → Prop}
    (hy : Yields h y s (fun a s' => ok (.ok a) t s') (fun e s' => ok (.error e) t s')) :
    YieldsState h (Program.outcome y) t s ok err := by
  unfold YieldsState
  rw [execState_outcome]
  unfold Yields at hy
  rcases hrun : exec h y s with ⟨r, s'⟩
  rw [hrun] at hy
  cases r with
  | ok a => exact hy
  | error e => exact hy

theorem attempt {ok : Unit → τ → σ → Prop}
    (hy : Yields h y s (fun _ s' => ok () t s') (fun _ s' => ok () t s')) :
    YieldsState h (Program.attempt y) t s ok err := by
  unfold YieldsState
  rw [execState_attempt]
  unfold Yields at hy
  rcases hrun : exec h y s with ⟨r, s'⟩
  rw [hrun] at hy
  cases r with
  | ok a => exact hy
  | error e => exact hy

theorem ensuring {cleanup : Program Op Res Unit}
    (hx : YieldsState h x t s (fun a t' s' => ok a t' (cleanup.run h s').2)
      (fun e t' s' => err e t' (cleanup.run h s').2)) :
    YieldsState h (Program.ensuring x cleanup) t s ok err := by
  unfold YieldsState
  rw [execState_ensuring]
  unfold YieldsState at hx
  rcases hrun : execState h x t s with ⟨⟨r, t'⟩, s'⟩
  rw [hrun] at hx
  cases r with
  | ok a => exact hx
  | error e => exact hx

end YieldsState

end Program
