/-
Texts with their lengths before them.

A header of fixed width says how long the text after it is.  Texts that are framed and
put one after another can be told apart again, so a sequence of texts is determined by
what they add up to.
-/
import Mathlib.Data.List.Basic

/-- Headers for lengths below a bound. -/
structure Framing (B : Type) where
  header : Nat → List B
  width : Nat
  bound : Nat
  width_pos : 0 < width
  length_header : ∀ n, (header n).length = width
  header_inj : ∀ n m, n < bound → m < bound → header n = header m → n = m

namespace Framing

variable {B : Type} (F : Framing B)

def frame (s : List B) : List B := F.header s.length ++ s

variable {F} {s s' t t' : List B}

/-- The first text and what follows it are determined by the whole. -/
theorem frame_append_inj (hs : s.length < F.bound) (hs' : s'.length < F.bound)
    (h : F.frame s ++ t = F.frame s' ++ t') : s = s' ∧ t = t' := by
  unfold frame at h
  rw [List.append_assoc, List.append_assoc] at h
  obtain ⟨hheader, hrest⟩ := List.append_inj h (by rw [F.length_header, F.length_header])
  exact List.append_inj hrest (F.header_inj _ _ hs hs' hheader)

theorem frame_ne_nil (s : List B) : F.frame s ≠ [] := by
  intro h
  have hlen := congrArg List.length h
  rw [frame, List.length_append, F.length_header, List.length_nil] at hlen
  have hpos := F.width_pos
  omega

/-- A sequence of texts is determined by its frames. -/
theorem flatMap_frame_inj {l l' : List (List B)} (hl : ∀ s ∈ l, s.length < F.bound)
    (hl' : ∀ s ∈ l', s.length < F.bound) (h : l.flatMap F.frame = l'.flatMap F.frame) : l = l' := by
  induction l generalizing l' with
  | nil =>
    cases l' with
    | nil => rfl
    | cons s' l' =>
      rw [List.flatMap_cons] at h
      exact absurd (List.append_eq_nil_iff.mp h.symm).1 (frame_ne_nil s')
  | cons s l ih =>
    cases l' with
    | nil =>
      rw [List.flatMap_cons] at h
      exact absurd (List.append_eq_nil_iff.mp h).1 (frame_ne_nil s)
    | cons s' l' =>
      rw [List.flatMap_cons, List.flatMap_cons] at h
      obtain ⟨rfl, hrest⟩ := frame_append_inj (hl s List.mem_cons_self) (hl' s' List.mem_cons_self) h
      rw [ih (fun r hr => hl r (List.mem_cons_of_mem _ hr))
        (fun r hr => hl' r (List.mem_cons_of_mem _ hr)) hrest]

end Framing
