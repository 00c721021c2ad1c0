/-
Texts between quotes.

A reader takes the text up to the closing quote.  A quote that is doubled stands for
itself, and after an escape, if there is one, a symbol stands for what the reader takes
it for.  A text that has neither is read as it stands, and one without escapes is read
back from the form with its quotes doubled.
-/
import Mathlib.Data.List.Basic

/-- How a text between quotes is read. -/
structure Quoting (B : Type) where
  quote : B
  escape : Option B
  /-- What a symbol after an escape stands for. -/
  unescape : B → B

namespace Quoting

variable {B : Type} [DecidableEq B] (Q : Quoting B)

/-- The text up to the closing quote, and what follows it. -/
def read : List B → Option (List B × List B)
  | [] => none
  | [b] => if b = Q.quote then some ([], []) else none
  | b :: c :: s =>
    if b = Q.quote then
      if c = Q.quote then (read s).map fun r => (Q.quote :: r.1, r.2) else some ([], c :: s)
    else if some b = Q.escape then (read s).map fun r => (Q.unescape c :: r.1, r.2)
    else (read (c :: s)).map fun r => (b :: r.1, r.2)

/-- Every quote twice. -/
def doubled (s : List B) : List B := s.flatMap fun b => if b = Q.quote then [Q.quote, Q.quote] else [b]

variable {Q} {s rest : List B}

/-- The quote ends the text unless another one follows. -/
theorem read_quote (h : rest.head? ≠ some Q.quote) : Q.read (Q.quote :: rest) = some ([], rest) := by
  cases rest with
  | nil => simp [read]
  | cons c t =>
    have hne : c ≠ Q.quote := fun heq => h (by rw [heq]; rfl)
    simp [read, hne]

theorem read_doubled_quote (s : List B) :
    Q.read (Q.quote :: Q.quote :: s) = (Q.read s).map fun r => (Q.quote :: r.1, r.2) := by
  simp [read]

theorem read_plain {b : B} (hquote : b ≠ Q.quote) (hescape : some b ≠ Q.escape) {t : List B} (ht : t ≠ []) :
    Q.read (b :: t) = (Q.read t).map fun r => (b :: r.1, r.2) := by
  cases t with
  | nil => exact absurd rfl ht
  | cons c t => simp [read, hquote, hescape]

/-- A text without escapes is read back from the form with its quotes doubled. -/
theorem read_doubled (hescape : ∀ b ∈ s, some b ≠ Q.escape) (hrest : rest.head? ≠ some Q.quote) :
    Q.read (Q.doubled s ++ Q.quote :: rest) = some (s, rest) := by
  induction s with
  | nil => exact read_quote hrest
  | cons b s ih =>
    have ih' := ih fun c hc => hescape c (List.mem_cons_of_mem _ hc)
    by_cases hb : b = Q.quote
    · subst hb
      have hform : Q.doubled (Q.quote :: s) ++ Q.quote :: rest
          = Q.quote :: Q.quote :: (Q.doubled s ++ Q.quote :: rest) := by
        simp [doubled]
      rw [hform, read_doubled_quote, ih']
      rfl
    · have hform : Q.doubled (b :: s) ++ Q.quote :: rest = b :: (Q.doubled s ++ Q.quote :: rest) := by
        simp [doubled, hb]
      rw [hform, read_plain hb (hescape b List.mem_cons_self) (by simp), ih']
      rfl

theorem doubled_eq_self (h : Q.quote ∉ s) : Q.doubled s = s := by
  induction s with
  | nil => rfl
  | cons b s ih =>
    have hb : b ≠ Q.quote := fun heq => h (heq ▸ List.mem_cons_self)
    show (if b = Q.quote then _ else _) ++ Q.doubled s = _
    rw [if_neg hb, ih fun hs => h (List.mem_cons_of_mem _ hs)]
    rfl

/-- A text with neither quotes nor escapes is read as it stands. -/
theorem read_self (hquote : Q.quote ∉ s) (hescape : ∀ b ∈ s, some b ≠ Q.escape)
    (hrest : rest.head? ≠ some Q.quote) : Q.read (s ++ Q.quote :: rest) = some (s, rest) := by
  have h := read_doubled hescape hrest
  rwa [doubled_eq_self hquote] at h

end Quoting
