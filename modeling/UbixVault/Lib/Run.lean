/-
Runs of a machine and what they leave behind.

A machine performs one action after another.  Performing an action in a state
leaves an event, and the state after it is read off the event.  A history is the
list of the events so far, oldest first, so it grows at its end, and an invariant
may speak about the history and the state together.  A machine that others have a
say in is a relation instead, and what matters is which states it reaches.
-/
import Mathlib.Data.List.Induction

namespace Run

variable {σ α ε : Type} (perform : σ → α → ε) (after : ε → σ)

/-- The state after a sequence of actions. -/
def final (s : σ) (actions : List α) : σ := actions.foldl (fun s a => after (perform s a)) s

/-- The events of a sequence of actions. -/
def history : σ → List α → List ε
  | _, [] => []
  | s, a :: rest => perform s a :: history (after (perform s a)) rest

theorem final_append (s : σ) (actions : List α) (a : α) :
    final perform after s (actions ++ [a])
      = after (perform (final perform after s actions) a) := by
  simp [final, List.foldl_append]

theorem history_append (actions : List α) (a : α) : ∀ s : σ,
    history perform after s (actions ++ [a])
      = history perform after s actions ++ [perform (final perform after s actions) a] := by
  induction actions with
  | nil => intro s; rfl
  | cons first rest ih =>
    intro s
    exact congrArg (perform s first :: ·) (ih _)

/-- An event of a history is what an action left in the state that those before it led to. -/
theorem history_split {actions : List α} {earlier later : List ε} {e : ε} : ∀ {s : σ},
    history perform after s actions = earlier ++ e :: later →
    ∃ before a rest, actions = before ++ a :: rest ∧ earlier = history perform after s before ∧
      e = perform (final perform after s before) a ∧ later = history perform after (after e) rest := by
  induction actions generalizing earlier with
  | nil =>
    intro s h
    simp [history] at h
  | cons first rest ih =>
    intro s h
    cases earlier with
    | nil =>
      obtain ⟨rfl, rfl⟩ := List.cons.inj h
      exact ⟨[], first, rest, rfl, rfl, rfl, rfl⟩
    | cons e₀ earlier =>
      obtain ⟨rfl, hrest⟩ := List.cons.inj h
      obtain ⟨before, a, more, rfl, rfl, rfl, rfl⟩ := ih hrest
      exact ⟨first :: before, a, more, rfl, rfl, rfl, rfl⟩

variable {perform after} {s : σ} {A : α → Prop} {I : List ε → σ → Prop}

/-- **What every allowed action keeps, every run of allowed actions keeps.** -/
theorem holds_of_forall (hinit : I [] s)
    (hstep : ∀ es s a, A a → I es s → I (es ++ [perform s a]) (after (perform s a)))
    {actions : List α} (hall : ∀ a ∈ actions, A a) :
    I (history perform after s actions) (final perform after s actions) := by
  induction actions using List.reverseRecOn with
  | nil => exact hinit
  | append_singleton actions a ih =>
    rw [List.forall_mem_append] at hall
    rw [history_append, final_append]
    exact hstep _ _ _ (hall.2 a (List.mem_singleton_self a)) (ih hall.1)

/-- **What every action keeps, every run keeps.** -/
theorem holds (hinit : I [] s)
    (hstep : ∀ es s a, I es s → I (es ++ [perform s a]) (after (perform s a)))
    (actions : List α) : I (history perform after s actions) (final perform after s actions) :=
  holds_of_forall (A := fun _ => True) hinit (fun es s a _ => hstep es s a) fun _ _ => trivial

/-! ### Every event and what came before it -/

/-- Each event stands in the relation to the history before it. -/
def Throughout (R : List ε → ε → Prop) (es : List ε) : Prop :=
  ∀ earlier e later, es = earlier ++ e :: later → R earlier e

variable {R S : List ε → ε → Prop}

theorem throughout_nil : Throughout R [] := by
  intro earlier e later h
  simp at h

theorem throughout_append {es : List ε} {e : ε} :
    Throughout R (es ++ [e]) ↔ Throughout R es ∧ R es e := by
  constructor
  · intro h
    refine ⟨fun earlier e' later heq => h earlier e' (later ++ [e]) (by simp [heq]), ?_⟩
    exact h es e [] rfl
  · rintro ⟨hes, he⟩ earlier e' later heq
    rcases List.eq_nil_or_concat later with rfl | ⟨later', last, rfl⟩
    · obtain ⟨rfl, hlast⟩ := List.append_inj' heq rfl
      cases hlast
      exact he
    · rw [List.concat_eq_append, ← List.cons_append, ← List.append_assoc] at heq
      exact hes earlier e' later' (List.append_inj' heq rfl).1

/--
**Assume and guarantee**: in a run whose events are all as `R` demands, an invariant
that `R` suffices to keep is kept, and what follows from both holds of every event.
-/
theorem holds_throughout (hinit : I [] s)
    (hstep : ∀ es s a, I es s → R es (perform s a) →
      I (es ++ [perform s a]) (after (perform s a)) ∧ S es (perform s a))
    (actions : List α) (hall : Throughout R (history perform after s actions)) :
    I (history perform after s actions) (final perform after s actions) ∧
      Throughout S (history perform after s actions) := by
  induction actions using List.reverseRecOn with
  | nil => exact ⟨hinit, throughout_nil⟩
  | append_singleton actions a ih =>
    rw [history_append, throughout_append] at hall
    obtain ⟨hinv, hearlier⟩ := ih hall.1
    rw [history_append, final_append, throughout_append]
    obtain ⟨hnext, hevent⟩ := hstep _ _ a hinv hall.2
    exact ⟨hnext, hearlier, hevent⟩

/-! ### Machines that may go several ways -/

/-- The states that steps reach whose events are all allowed where they happen. -/
inductive Reachable {σ ε : Type} (step : σ → ε → σ → Prop) (allowed : σ → ε → Prop) (start : σ) :
    σ → Prop
  | start : Reachable step allowed start start
  | step {s s' : σ} {e : ε} (hs : Reachable step allowed start s) (he : allowed s e)
      (hstep : step s e s') : Reachable step allowed start s'

/-- More is reached if more is allowed. -/
theorem Reachable.mono {step : σ → ε → σ → Prop} {allowed allowed' : σ → ε → Prop} {start s : σ}
    (h : Reachable step allowed start s) (hle : ∀ s e, allowed s e → allowed' s e) :
    Reachable step allowed' start s := by
  induction h with
  | start => exact .start
  | step _ he hs ih => exact ih.step (hle _ _ he) hs

section Paths

variable {γ : Type} {step : σ → ε → σ → Prop} (next : ∀ s e, Option {s' // step s e s'})
  (allowed : σ → ε → Prop) [∀ s e, Decidable (allowed s e)]

/-- Follow events from a state, as far as each is possible and allowed. -/
def path : σ → List ε → Option σ
  | s, [] => some s
  | s, e :: es => if allowed s e then (next s e).bind fun s' => path s'.val es else none

variable {next allowed}

/-- Where a path of events leads is reached. -/
theorem Reachable.of_path {start s' : σ} {es : List ε} : ∀ {s : σ}, path next allowed s es = some s' →
    Reachable step allowed start s → Reachable step allowed start s' := by
  induction es with
  | nil =>
    rintro s ⟨⟩ hs
    exact hs
  | cons e es ih =>
    intro s h hs
    unfold path at h
    split_ifs at h with he
    obtain ⟨s₁, -, hrest⟩ := Option.bind_eq_some_iff.mp h
    exact ih hrest (hs.step he s₁.2)

/-- What is seen at the end of a path is seen in a state that is reached. -/
theorem Reachable.exists_of_path {start : σ} {es : List ε} {see : σ → γ} {seen : γ}
    (h : (path next allowed start es).map see = some seen) :
    ∃ s, Reachable step allowed start s ∧ see s = seen := by
  obtain ⟨s, hs, hseen⟩ := Option.map_eq_some_iff.mp h
  exact ⟨s, .of_path hs .start, hseen⟩

end Paths

/-- **What every allowed step keeps holds in every state that is reached.** -/
theorem Reachable.invariant {step : σ → ε → σ → Prop} {allowed : σ → ε → Prop} {start s : σ}
    {I : σ → Prop} (h : Reachable step allowed start s) (hstart : I start)
    (hstep : ∀ s e s', I s → allowed s e → step s e s' → I s') : I s := by
  induction h with
  | start => exact hstart
  | step _ he hs ih => exact hstep _ _ _ ih he hs

end Run
