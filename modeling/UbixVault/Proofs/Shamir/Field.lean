/-
Bytes under `gfAdd` and `gfMul` are a field.

No table is enumerated.  One step of the loop in `gfMul` doubles `a` in the field,
`xtime` below, and doubling is linear for exclusive or.  So `gfMul` is linear in
both arguments and commutes with `xtime` on the left by its own recursion.  Every
byte is a sum of repeated doublings of one, which is an induction principle:
`xtime_induction`.  Commutativity and associativity are two uses of it.

That `a^254` inverts `a` needs two more facts.  Raising to the 256th power is
squaring eight times, squaring is additive in characteristic two, and it is the
identity on the eight powers of two, so `a^256 = a` throughout.  Then `a^255` is
idempotent, and the only idempotents are zero and one.
-/
import UbixVault.Shamir

namespace UbixVault.Shamir

/-! ### Doubling -/

/-- Multiplication by the field element `x`: shift, and reduce if a bit falls out. -/
def xtime (a : Byte) : Byte := (a <<< 1) ^^^ ((0x1b : Byte) &&& ((0 : Byte) - (a >>> 7)))

/-- All ones or all zeros, as the low bit of `b` is set or not. -/
def mask (b : Byte) : Byte := (0 : Byte) - (b &&& (1 : Byte))

theorem gfMulLoop_succ (n : Nat) (p a b : Byte) :
    gfMulLoop (n + 1) p a b
      = gfMulLoop n (p ^^^ (a &&& mask b)) (xtime a) (b >>> 1) := rfl

private theorem low_bit (b : Byte) : b &&& 1 = (0 : Byte) ∨ b &&& 1 = (1 : Byte) := by
  have h : (b &&& (1 : Byte)).toNat = b.toNat % 2 := by
    rw [BitVec.toNat_and]
    exact Nat.and_one_is_mod _
  rcases Nat.mod_two_eq_zero_or_one b.toNat with h0 | h1
  · exact Or.inl (BitVec.eq_of_toNat_eq (by rw [h, h0]; rfl))
  · exact Or.inr (BitVec.eq_of_toNat_eq (by rw [h, h1]; rfl))

private theorem high_bit (a : Byte) : a >>> 7 = (0 : Byte) ∨ a >>> 7 = (1 : Byte) := by
  have hlt : a.toNat < 256 := a.isLt
  have h : (a >>> 7).toNat = a.toNat / 128 := by
    rw [BitVec.toNat_ushiftRight, Nat.shiftRight_eq_div_pow]
  have hcases : a.toNat / 128 = 0 ∨ a.toNat / 128 = 1 := by omega
  rcases hcases with h0 | h1
  · exact Or.inl (BitVec.eq_of_toNat_eq (by rw [h, h0]; rfl))
  · exact Or.inr (BitVec.eq_of_toNat_eq (by rw [h, h1]; rfl))

/-- Negating a single bit is linear. -/
private theorem neg_bit_xor {x y : Byte} (hx : x = 0 ∨ x = 1) (hy : y = 0 ∨ y = 1) :
    (0 : Byte) - (x ^^^ y) = ((0 : Byte) - x) ^^^ ((0 : Byte) - y) := by
  rcases hx with rfl | rfl <;> rcases hy with rfl | rfl <;> rfl

private theorem and_xor (a b c : Byte) : a &&& (b ^^^ c) = (a &&& b) ^^^ (a &&& c) := by
  ext i hi
  simp only [BitVec.getElem_and, BitVec.getElem_xor]
  cases a[i] <;> simp

private theorem xor_and (a b c : Byte) : (a ^^^ b) &&& c = (a &&& c) ^^^ (b &&& c) := by
  rw [BitVec.and_comm, and_xor, BitVec.and_comm c, BitVec.and_comm c]

@[simp] theorem xtime_zero : xtime 0 = 0 := rfl

theorem xtime_xor (a b : Byte) : xtime (a ^^^ b) = xtime a ^^^ xtime b := by
  unfold xtime
  rw [BitVec.shiftLeft_xor_distrib, BitVec.ushiftRight_xor_distrib,
    neg_bit_xor (high_bit a) (high_bit b), and_xor]
  ac_rfl

/-- A mask keeps a byte or clears it. -/
theorem mask_cases (b : Byte) : mask b = 0 ∨ mask b = BitVec.allOnes 8 := by
  unfold mask
  rcases low_bit b with h | h
  · exact Or.inl (by rw [h]; rfl)
  · exact Or.inr (by rw [h]; rfl)

theorem mask_xor (b b' : Byte) : mask (b ^^^ b') = mask b ^^^ mask b' := by
  unfold mask
  rw [xor_and, neg_bit_xor (low_bit b) (low_bit b')]

theorem xtime_and_mask (a b : Byte) : xtime (a &&& mask b) = xtime a &&& mask b := by
  rcases mask_cases b with h | h
  · rw [h, show a &&& (0 : Byte) = 0 from BitVec.and_zero, xtime_zero]
    exact BitVec.and_zero.symm
  · rw [h, BitVec.and_allOnes, BitVec.and_allOnes]

/-! ### The product is linear -/

private theorem gfMulLoop_xor_left (n : Nat) : ∀ p p' a a' b : Byte,
    gfMulLoop n (p ^^^ p') (a ^^^ a') b = gfMulLoop n p a b ^^^ gfMulLoop n p' a' b := by
  induction n with
  | zero => intro p p' a a' b; rfl
  | succ n ih =>
    intro p p' a a' b
    rw [gfMulLoop_succ, gfMulLoop_succ, gfMulLoop_succ, ← ih, xtime_xor, xor_and]
    congr 1
    ac_rfl

private theorem gfMulLoop_xor_right (n : Nat) : ∀ p p' a b b' : Byte,
    gfMulLoop n (p ^^^ p') a (b ^^^ b') = gfMulLoop n p a b ^^^ gfMulLoop n p' a b' := by
  induction n with
  | zero => intro p p' a b b'; rfl
  | succ n ih =>
    intro p p' a b b'
    rw [gfMulLoop_succ, gfMulLoop_succ, gfMulLoop_succ, ← ih, mask_xor, and_xor,
      BitVec.ushiftRight_xor_distrib]
    congr 1
    ac_rfl

private theorem gfMulLoop_xtime (n : Nat) : ∀ p a b : Byte,
    gfMulLoop n (xtime p) (xtime a) b = xtime (gfMulLoop n p a b) := by
  induction n with
  | zero => intro p a b; rfl
  | succ n ih =>
    intro p a b
    rw [gfMulLoop_succ, gfMulLoop_succ, ← ih, xtime_xor, xtime_and_mask]

theorem gfMul_xor_left (a a' b : Byte) : gfMul (a ^^^ a') b = gfMul a b ^^^ gfMul a' b :=
  gfMulLoop_xor_left 8 0 0 a a' b

theorem gfMul_xor_right (a b b' : Byte) : gfMul a (b ^^^ b') = gfMul a b ^^^ gfMul a b' :=
  gfMulLoop_xor_right 8 0 0 a b b'

theorem gfMul_xtime_left (a b : Byte) : gfMul (xtime a) b = xtime (gfMul a b) :=
  gfMulLoop_xtime 8 0 a b

/-! ### Every byte is a sum of doublings of one -/

/-- A byte is the double of its upper seven bits, plus its lowest. -/
private theorem xtime_shiftRight_xor (a : Byte) : xtime (a >>> 1) ^^^ (a &&& 1) = a := by
  have hhigh : (a >>> 1) >>> 7 = (0 : Byte) := by
    have hlt : a.toNat < 256 := a.isLt
    refine BitVec.eq_of_toNat_eq ?_
    rw [BitVec.toNat_ushiftRight, BitVec.toNat_ushiftRight, Nat.shiftRight_eq_div_pow,
      Nat.shiftRight_eq_div_pow]
    show a.toNat / 2 / 128 = 0
    omega
  unfold xtime
  rw [hhigh]
  ext i hi
  by_cases h0 : i = 0
  · subst h0
    simp
  · simp [h0, show 1 + (i - 1) = i by omega, BitVec.getLsbD_eq_getElem hi]

/-- Induction on bytes: zero, one, sums and doublings. -/
theorem xtime_induction {P : Byte → Prop} (hzero : P 0) (hone : P 1)
    (hxor : ∀ a b, P a → P b → P (a ^^^ b)) (hxtime : ∀ a, P a → P (xtime a)) (a : Byte) :
    P a := by
  induction hn : a.toNat using Nat.strong_induction_on generalizing a with
  | _ n ih =>
    by_cases ha : a = 0
    · rw [ha]
      exact hzero
    · have hpos : a.toNat ≠ 0 := fun h => ha (BitVec.eq_of_toNat_eq h)
      have hshift : (a >>> 1).toNat = a.toNat / 2 := by
        rw [BitVec.toNat_ushiftRight, Nat.shiftRight_eq_div_pow]
      have hupper : P (a >>> 1) := ih _ (by omega) _ rfl
      rw [← xtime_shiftRight_xor a]
      refine hxor _ _ (hxtime _ hupper) ?_
      rcases low_bit a with h | h
      · rw [h]; exact hzero
      · rw [h]; exact hone

@[simp] theorem gfMul_zero_left (b : Byte) : gfMul 0 b = 0 := by
  have h := gfMul_xor_left 0 0 b
  simpa using h

@[simp] theorem gfMul_zero_right (a : Byte) : gfMul a 0 = 0 := by
  have h := gfMul_xor_right a 0 0
  simpa using h

theorem gfMul_one_right (a : Byte) : gfMul a 1 = a := by
  induction a using xtime_induction with
  | hzero => rfl
  | hone => decide
  | hxor a b ha hb => rw [gfMul_xor_left, ha, hb]
  | hxtime a ha => rw [gfMul_xtime_left, ha]

/-- On the left, one collects the bits of `b` one by one: a check of 256 bytes. -/
theorem gfMul_one_left : ∀ b : Byte, gfMul 1 b = b := by decide +kernel

/-- Doubling commutes with the product on the right as well. -/
theorem gfMul_xtime_right (a b : Byte) : gfMul a (xtime b) = xtime (gfMul a b) := by
  induction a using xtime_induction with
  | hzero => rw [gfMul_zero_left, gfMul_zero_left, xtime_zero]
  | hone => rw [gfMul_one_left, gfMul_one_left]
  | hxor a a' ha ha' => rw [gfMul_xor_left, gfMul_xor_left, ha, ha', xtime_xor]
  | hxtime a ha => rw [gfMul_xtime_left, gfMul_xtime_left, ha]

theorem gfMul_comm (a b : Byte) : gfMul a b = gfMul b a := by
  induction a using xtime_induction with
  | hzero => rw [gfMul_zero_left, gfMul_zero_right]
  | hone => rw [gfMul_one_left, gfMul_one_right]
  | hxor a a' ha ha' => rw [gfMul_xor_left, gfMul_xor_right, ha, ha']
  | hxtime a ha => rw [gfMul_xtime_left, gfMul_xtime_right, ha]

theorem gfMul_assoc (a b c : Byte) : gfMul (gfMul a b) c = gfMul a (gfMul b c) := by
  induction a using xtime_induction with
  | hzero => rw [gfMul_zero_left, gfMul_zero_left, gfMul_zero_left]
  | hone => rw [gfMul_one_left, gfMul_one_left]
  | hxor a a' ha ha' => rw [gfMul_xor_left, gfMul_xor_left, gfMul_xor_left, ha, ha']
  | hxtime a ha => rw [gfMul_xtime_left, gfMul_xtime_left, gfMul_xtime_left, ha]

/-! ### The ring of bytes -/

/-- A byte as an element of GF(2^8). -/
structure Gf where
  byte : Byte
  deriving DecidableEq

namespace Gf

@[ext] theorem ext {a b : Gf} (h : a.byte = b.byte) : a = b := by
  cases a
  cases b
  exact congrArg Gf.mk h

instance : Zero Gf := ⟨⟨0⟩⟩

instance : One Gf := ⟨⟨1⟩⟩

instance : Add Gf := ⟨fun a b => ⟨gfAdd a.byte b.byte⟩⟩

instance : Mul Gf := ⟨fun a b => ⟨gfMul a.byte b.byte⟩⟩

instance : Neg Gf := ⟨fun a => a⟩

instance : CommRing Gf where
  add_assoc a b c := Gf.ext (BitVec.xor_assoc a.byte b.byte c.byte)
  zero_add a := Gf.ext (BitVec.zero_xor)
  add_zero a := Gf.ext (BitVec.xor_zero)
  add_comm a b := Gf.ext (BitVec.xor_comm a.byte b.byte)
  neg_add_cancel a := Gf.ext (BitVec.xor_self)
  mul_assoc a b c := Gf.ext (gfMul_assoc a.byte b.byte c.byte)
  mul_comm a b := Gf.ext (gfMul_comm a.byte b.byte)
  one_mul a := Gf.ext (gfMul_one_left a.byte)
  mul_one a := Gf.ext (gfMul_one_right a.byte)
  left_distrib a b c := Gf.ext (gfMul_xor_right a.byte b.byte c.byte)
  right_distrib a b c := Gf.ext (gfMul_xor_left a.byte b.byte c.byte)
  zero_mul a := Gf.ext (gfMul_zero_left a.byte)
  mul_zero a := Gf.ext (gfMul_zero_right a.byte)
  nsmul := nsmulRec
  zsmul := zsmulRec

theorem neg_eq (a : Gf) : -a = a := rfl

theorem sub_eq_add (a b : Gf) : a - b = a + b := by rw [sub_eq_add_neg, neg_eq]

theorem add_self (a : Gf) : a + a = 0 := Gf.ext BitVec.xor_self

/-! ### Powers -/

/-- Squaring is additive. -/
theorem add_sq (a b : Gf) : (a + b) ^ 2 = a ^ 2 + b ^ 2 := by
  have hcross : a * b + a * b = 0 := add_self (a * b)
  calc (a + b) ^ 2 = a ^ 2 + b ^ 2 + (a * b + a * b) := by ring
    _ = a ^ 2 + b ^ 2 := by rw [hcross, add_zero]

theorem add_pow_two_pow (a b : Gf) (n : Nat) : (a + b) ^ 2 ^ n = a ^ 2 ^ n + b ^ 2 ^ n := by
  induction n with
  | zero => simp
  | succ n ih => rw [pow_succ, pow_mul, ih, add_sq, ← pow_mul, ← pow_mul]

/-- The field element `x`, by which `xtime` multiplies. -/
theorem xtime_eq_mul (a : Byte) : (⟨xtime a⟩ : Gf) = ⟨2⟩ * ⟨a⟩ := by
  have h : xtime a = gfMul (xtime 1) a := by rw [gfMul_xtime_left, gfMul_one_left]
  exact Gf.ext h

/-- Squaring `x` eight times comes back to it. -/
theorem two_pow_two_pow : (⟨2⟩ : Gf) ^ 2 ^ 8 = ⟨2⟩ := by
  have h1 : (⟨2⟩ : Gf) ^ 2 = ⟨4⟩ := by decide
  have h2 : (⟨4⟩ : Gf) ^ 2 = ⟨16⟩ := by decide
  have h3 : (⟨16⟩ : Gf) ^ 2 = ⟨27⟩ := by decide
  have h4 : (⟨27⟩ : Gf) ^ 2 = ⟨94⟩ := by decide
  have h5 : (⟨94⟩ : Gf) ^ 2 = ⟨228⟩ := by decide
  have h6 : (⟨228⟩ : Gf) ^ 2 = ⟨77⟩ := by decide
  have h7 : (⟨77⟩ : Gf) ^ 2 = ⟨250⟩ := by decide
  have h8 : (⟨250⟩ : Gf) ^ 2 = ⟨2⟩ := by decide
  calc (⟨2⟩ : Gf) ^ 2 ^ 8 = ((((((((⟨2⟩ : Gf) ^ 2) ^ 2) ^ 2) ^ 2) ^ 2) ^ 2) ^ 2) ^ 2 := by
        simp only [← pow_mul]; rfl
    _ = ⟨2⟩ := by rw [h1, h2, h3, h4, h5, h6, h7, h8]

/-- Raising to the size of the field changes nothing. -/
theorem pow_two_pow_eight (a : Gf) : a ^ 2 ^ 8 = a := by
  suffices h : ∀ b : Byte, (⟨b⟩ : Gf) ^ 2 ^ 8 = ⟨b⟩ from h a.byte
  intro b
  induction b using xtime_induction with
  | hzero => exact zero_pow (by decide)
  | hone => exact one_pow _
  | hxor a b ha hb =>
    have hsum : (⟨a ^^^ b⟩ : Gf) = ⟨a⟩ + ⟨b⟩ := rfl
    rw [hsum, add_pow_two_pow, ha, hb]
  | hxtime a ha => rw [xtime_eq_mul, mul_pow, two_pow_two_pow, ha]

theorem eq_zero_or_one_of_idempotent : ∀ e : Byte, gfMul e e = e → e = 0 ∨ e = 1 := by
  decide +kernel

/-- The multiplicative group has order dividing 255. -/
theorem pow_255 {a : Gf} (ha : a ≠ 0) : a ^ 255 = 1 := by
  have hstep : a ^ 255 * a = a := by
    rw [← pow_succ]
    exact pow_two_pow_eight a
  have hidem : a ^ 255 * a ^ 255 = a ^ 255 := by
    calc a ^ 255 * a ^ 255 = a ^ 254 * (a ^ 255 * a) := by ring
      _ = a ^ 255 := by rw [hstep, ← pow_succ]
  rcases eq_zero_or_one_of_idempotent (a ^ 255).byte (congrArg Gf.byte hidem) with h | h
  · have hzero : a ^ 255 = 0 := Gf.ext h
    rw [hzero, zero_mul] at hstep
    exact absurd hstep.symm ha
  · exact Gf.ext h

/-! ### Inverses -/

/-- Square-and-multiply computes a power, given a round for every bit of the exponent. -/
theorem gfInverseLoop_eq (n : Nat) : ∀ (exp : Nat) (result b : Byte), exp < 2 ^ n →
    (⟨gfInverseLoop n exp result b⟩ : Gf) = ⟨result⟩ * (⟨b⟩ : Gf) ^ exp := by
  induction n with
  | zero =>
    intro exp result b h
    have h0 : exp = 0 := by omega
    rw [h0, pow_zero, mul_one]
    rfl
  | succ n ih =>
    intro exp result b h
    rw [gfInverseLoop]
    by_cases hpos : 0 < exp
    · rw [if_pos hpos, ih _ _ _ (by rw [Nat.shiftRight_eq_div_pow]; omega)]
      have hsq : (⟨gfMul b b⟩ : Gf) = (⟨b⟩ : Gf) ^ 2 := by rw [sq]; rfl
      rw [hsq, ← pow_mul, Nat.shiftRight_eq_div_pow, Nat.and_one_is_mod]
      rcases Nat.mod_two_eq_zero_or_one exp with h0 | h1
      · rw [if_neg (by omega), show 2 * (exp / 2 ^ 1) = exp by omega]
      · rw [if_pos h1]
        have hmul : (⟨gfMul result b⟩ : Gf) = ⟨result⟩ * ⟨b⟩ := rfl
        have hexp : exp = 2 * (exp / 2 ^ 1) + 1 := by omega
        rw [hmul, mul_assoc, ← pow_succ', ← hexp]
    · rw [if_neg hpos, show exp = 0 by omega, pow_zero, mul_one]

theorem gfInverse_eq (a : Byte) : (⟨gfInverse a⟩ : Gf) = (⟨a⟩ : Gf) ^ 254 := by
  have h := gfInverseLoop_eq 8 254 1 a (by decide)
  have hone : (⟨1⟩ : Gf) = 1 := rfl
  rw [hone, one_mul] at h
  exact h

instance : Inv Gf := ⟨fun a => ⟨gfInverse a.byte⟩⟩

theorem inv_eq_pow (a : Gf) : a⁻¹ = a ^ 254 := gfInverse_eq a.byte

/-- **GF(2^8).**  `gfMul` and `gfInverse` make bytes a field. -/
instance : Field Gf where
  exists_pair_ne := ⟨0, 1, by decide⟩
  mul_inv_cancel a ha := by rw [inv_eq_pow, ← pow_succ', pow_255 ha]
  inv_zero := by rw [inv_eq_pow]; exact zero_pow (by decide)
  nnqsmul := _
  nnqsmul_def _ _ := rfl
  qsmul := _
  qsmul_def _ _ := rfl

/-- Bytes and field elements correspond. -/
def equivByte : Gf ≃ Byte where
  toFun := byte
  invFun := Gf.mk
  left_inv _ := rfl
  right_inv _ := rfl

instance : Fintype Gf := Fintype.ofEquiv Byte equivByte.symm

end Gf

end UbixVault.Shamir
