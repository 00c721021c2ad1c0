/-
Base64 without padding.

Three bytes are four digits, and a last group of one or two bytes is two or three of
them.  A reader skips line ends wherever they stand, and a strict one refuses a last
digit with bits that no byte uses.  What a strict reader accepts is therefore the text of
its result, up to line ends.
-/
import Mathlib.Data.BitVec
import Mathlib.Tactic.Common

/-- Sixty-four digits with their values; no digit is a line end. -/
structure Alphabet64 where
  digit : Nat → BitVec 8
  value : BitVec 8 → Option Nat
  value_digit : ∀ n < 64, value (digit n) = some n
  digit_value : ∀ c n, value c = some n → n < 64 ∧ digit n = c
  value_lf : value 0x0a = none
  value_cr : value 0x0d = none

namespace Alphabet64

variable (A : Alphabet64)

/-- The text of a sequence of bytes. -/
def encode : List (BitVec 8) → List (BitVec 8)
  | [] => []
  | [x] => [A.digit (x.toNat / 4), A.digit (x.toNat % 4 * 16)]
  | [x, y] =>
    [A.digit (x.toNat / 4), A.digit (x.toNat % 4 * 16 + y.toNat / 16), A.digit (y.toNat % 16 * 4)]
  | x :: y :: z :: rest =>
    A.digit (x.toNat / 4) :: A.digit (x.toNat % 4 * 16 + y.toNat / 16) ::
      A.digit (y.toNat % 16 * 4 + z.toNat / 64) :: A.digit (z.toNat % 64) :: encode rest

/-- The bytes of groups of digits; the bits left over count only for a strict reader. -/
def quanta (strict : Bool) : List (BitVec 8) → Option (List (BitVec 8))
  | [] => some []
  | [_] => none
  | [a, b] => do
      let p ← A.value a
      let q ← A.value b
      if strict ∧ q % 16 ≠ 0 then none else some [BitVec.ofNat 8 (p * 4 + q / 16)]
  | [a, b, c] => do
      let p ← A.value a
      let q ← A.value b
      let r ← A.value c
      if strict ∧ r % 4 ≠ 0 then none
      else some [BitVec.ofNat 8 (p * 4 + q / 16), BitVec.ofNat 8 (q % 16 * 16 + r / 4)]
  | a :: b :: c :: d :: rest => do
      let p ← A.value a
      let q ← A.value b
      let r ← A.value c
      let t ← A.value d
      let tail ← quanta strict rest
      some (BitVec.ofNat 8 (p * 4 + q / 16) :: BitVec.ofNat 8 (q % 16 * 16 + r / 4) ::
        BitVec.ofNat 8 (r % 4 * 64 + t) :: tail)

def lineEnd (c : BitVec 8) : Bool := c == 0x0a || c == 0x0d

/-- The bytes that a text stands for. -/
def decode (strict : Bool) (s : List (BitVec 8)) : Option (List (BitVec 8)) :=
  A.quanta strict (s.filter fun c => !lineEnd c)

variable {A} {s b : List (BitVec 8)} {strict : Bool}

private theorem toNat_ofNat {n : Nat} (hn : n < 256) : (BitVec.ofNat 8 n).toNat = n := by
  rw [BitVec.toNat_ofNat]
  exact Nat.mod_eq_of_lt hn

private theorem ofNat_eq (n : Nat) (x : BitVec 8) (h : n = x.toNat) : BitVec.ofNat 8 n = x := by
  rw [h, BitVec.ofNat_toNat, BitVec.setWidth_eq]

/-- What a reader makes of the text of some bytes. -/
theorem quanta_encode (b : List (BitVec 8)) : A.quanta strict (A.encode b) = some b := by
  induction b using encode.induct with
  | case1 => simp [encode, quanta]
  | case2 x =>
    have hx := x.isLt
    simp only [encode, quanta, A.value_digit (x.toNat / 4) (by omega),
      A.value_digit (x.toNat % 4 * 16) (by omega), Option.bind_eq_bind, Option.bind_some]
    rw [if_neg (by omega), ofNat_eq _ x (by omega)]
  | case3 x y =>
    have hx := x.isLt
    have hy := y.isLt
    simp only [encode, quanta, A.value_digit (x.toNat / 4) (by omega),
      A.value_digit (x.toNat % 4 * 16 + y.toNat / 16) (by omega),
      A.value_digit (y.toNat % 16 * 4) (by omega), Option.bind_eq_bind, Option.bind_some]
    rw [if_neg (by omega), ofNat_eq _ x (by omega), ofNat_eq _ y (by omega)]
  | case4 x y z rest ih =>
    have hx := x.isLt
    have hy := y.isLt
    have hz := z.isLt
    simp only [encode, quanta, A.value_digit (x.toNat / 4) (by omega),
      A.value_digit (x.toNat % 4 * 16 + y.toNat / 16) (by omega),
      A.value_digit (y.toNat % 16 * 4 + z.toNat / 64) (by omega),
      A.value_digit (z.toNat % 64) (by omega), ih, Option.bind_eq_bind, Option.bind_some]
    rw [ofNat_eq _ x (by omega), ofNat_eq _ y (by omega), ofNat_eq _ z (by omega)]

/-- What a strict reader accepts is the text of its result. -/
theorem encode_quanta (h : A.quanta true s = some b) : A.encode b = s := by
  induction s using quanta.induct generalizing b with
  | case1 =>
    simp only [quanta, Option.some.injEq] at h
    subst h
    rfl
  | case2 => simp [quanta] at h
  | case3 a b' =>
    simp only [quanta, Option.bind_eq_bind, Option.bind_eq_some_iff] at h
    obtain ⟨p, hp, q, hq, h⟩ := h
    obtain ⟨hp64, rfl⟩ := A.digit_value _ _ hp
    obtain ⟨hq64, rfl⟩ := A.digit_value _ _ hq
    split_ifs at h with hbits
    cases h
    simp only [true_and, ne_eq, not_not] at hbits
    have hx : (BitVec.ofNat 8 (p * 4 + q / 16)).toNat = p * 4 + q / 16 := toNat_ofNat (by omega)
    have h₁ : (p * 4 + q / 16) / 4 = p := by omega
    have h₂ : (p * 4 + q / 16) % 4 * 16 = q := by omega
    simp only [encode, hx, h₁, h₂]
  | case4 a b' c =>
    simp only [quanta, Option.bind_eq_bind, Option.bind_eq_some_iff] at h
    obtain ⟨p, hp, q, hq, r, hr, h⟩ := h
    obtain ⟨hp64, rfl⟩ := A.digit_value _ _ hp
    obtain ⟨hq64, rfl⟩ := A.digit_value _ _ hq
    obtain ⟨hr64, rfl⟩ := A.digit_value _ _ hr
    split_ifs at h with hbits
    cases h
    simp only [true_and, ne_eq, not_not] at hbits
    have hx : (BitVec.ofNat 8 (p * 4 + q / 16)).toNat = p * 4 + q / 16 := toNat_ofNat (by omega)
    have hy : (BitVec.ofNat 8 (q % 16 * 16 + r / 4)).toNat = q % 16 * 16 + r / 4 := toNat_ofNat (by omega)
    have h₁ : (p * 4 + q / 16) / 4 = p := by omega
    have h₂ : (p * 4 + q / 16) % 4 * 16 + (q % 16 * 16 + r / 4) / 16 = q := by omega
    have h₃ : (q % 16 * 16 + r / 4) % 16 * 4 = r := by omega
    simp only [encode, hx, hy, h₁, h₂, h₃]
  | case5 a b' c d rest ih =>
    simp only [quanta, Option.bind_eq_bind, Option.bind_eq_some_iff] at h
    obtain ⟨p, hp, q, hq, r, hr, t, ht, tail, htail, h⟩ := h
    obtain ⟨hp64, rfl⟩ := A.digit_value _ _ hp
    obtain ⟨hq64, rfl⟩ := A.digit_value _ _ hq
    obtain ⟨hr64, rfl⟩ := A.digit_value _ _ hr
    obtain ⟨ht64, rfl⟩ := A.digit_value _ _ ht
    cases h
    have hx : (BitVec.ofNat 8 (p * 4 + q / 16)).toNat = p * 4 + q / 16 := toNat_ofNat (by omega)
    have hy : (BitVec.ofNat 8 (q % 16 * 16 + r / 4)).toNat = q % 16 * 16 + r / 4 := toNat_ofNat (by omega)
    have hz : (BitVec.ofNat 8 (r % 4 * 64 + t)).toNat = r % 4 * 64 + t := toNat_ofNat (by omega)
    have h₁ : (p * 4 + q / 16) / 4 = p := by omega
    have h₂ : (p * 4 + q / 16) % 4 * 16 + (q % 16 * 16 + r / 4) / 16 = q := by omega
    have h₃ : (q % 16 * 16 + r / 4) % 16 * 4 + (r % 4 * 64 + t) / 64 = r := by omega
    have h₄ : (r % 4 * 64 + t) % 64 = t := by omega
    simp only [encode, hx, hy, hz, h₁, h₂, h₃, h₄, ih htail]

theorem lineEnd_digit {n : Nat} (hn : n < 64) : lineEnd (A.digit n) = false := by
  have hvalue := A.value_digit n hn
  unfold lineEnd
  rw [Bool.or_eq_false_iff, beq_eq_false_iff_ne, beq_eq_false_iff_ne]
  constructor
  · intro heq
    rw [heq, A.value_lf] at hvalue
    cases hvalue
  · intro heq
    rw [heq, A.value_cr] at hvalue
    cases hvalue

/-- There is no line end in a text. -/
theorem lineEnd_encode {c : BitVec 8} (hc : c ∈ A.encode b) : lineEnd c = false := by
  induction b using encode.induct with
  | case1 => simp [encode] at hc
  | case2 x =>
    have hx := x.isLt
    simp only [encode, List.mem_cons, List.not_mem_nil, or_false] at hc
    rcases hc with rfl | rfl <;> exact lineEnd_digit (by omega)
  | case3 x y =>
    have hx := x.isLt
    have hy := y.isLt
    simp only [encode, List.mem_cons, List.not_mem_nil, or_false] at hc
    rcases hc with rfl | rfl | rfl <;> exact lineEnd_digit (by omega)
  | case4 x y z rest ih =>
    have hx := x.isLt
    have hy := y.isLt
    have hz := z.isLt
    simp only [encode, List.mem_cons] at hc
    rcases hc with rfl | rfl | rfl | rfl | hc
    · exact lineEnd_digit (by omega)
    · exact lineEnd_digit (by omega)
    · exact lineEnd_digit (by omega)
    · exact lineEnd_digit (by omega)
    · exact ih hc

theorem decode_encode (b : List (BitVec 8)) : A.decode strict (A.encode b) = some b := by
  unfold decode
  rw [List.filter_eq_self.mpr, quanta_encode]
  intro c hc
  rw [lineEnd_encode hc, Bool.not_false]

/-- **A strict reader accepts the text of its result, and that text with line ends added.** -/
theorem encode_eq_iff_of_decode (h : A.decode true s = some b) :
    A.encode b = s ↔ ∀ c ∈ s, lineEnd c = false := by
  have htext := encode_quanta h
  constructor
  · intro heq c hc
    rw [← heq] at hc
    exact lineEnd_encode hc
  · intro hplain
    rw [htext, List.filter_eq_self]
    intro c hc
    rw [hplain c hc, Bool.not_false]

/-! ### The alphabet of URLs -/

private def urlDigit (n : Nat) : BitVec 8 :=
  if n < 26 then BitVec.ofNat 8 (65 + n)
  else if n < 52 then BitVec.ofNat 8 (71 + n)
  else if n < 62 then BitVec.ofNat 8 (n - 4)
  else if n = 62 then 0x2d
  else 0x5f

private def urlValue (c : BitVec 8) : Option Nat :=
  let n := c.toNat
  if 65 ≤ n ∧ n ≤ 90 then some (n - 65)
  else if 97 ≤ n ∧ n ≤ 122 then some (n - 71)
  else if 48 ≤ n ∧ n ≤ 57 then some (n + 4)
  else if n = 45 then some 62
  else if n = 95 then some 63
  else none

/-- Letters, decimal digits, `-` and `_`. -/
def url : Alphabet64 where
  digit := urlDigit
  value := urlValue
  value_digit n hn := by
    have hall : ∀ m : Fin 64, urlValue (urlDigit m) = some m.val := by decide +kernel
    exact hall ⟨n, hn⟩
  digit_value c n h := by
    have hall : ∀ m : Fin 256, ∀ n ∈ urlValue (BitVec.ofFin m), n < 64 ∧ urlDigit n = BitVec.ofFin m := by
      decide +kernel
    exact hall c.toFin n h
  value_lf := by decide
  value_cr := by decide

end Alphabet64
