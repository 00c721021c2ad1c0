/-
Encoded runes are valid UTF-8, and seven-bit text is read as it is.
-/
import UbixVault.Proofs.Storage
import UbixVault.Text

namespace UbixVault

variable {b0 b1 b2 b3 : Byte} {rest : Bytes}

theorem isCont_iff {b : Byte} : isCont b = true ↔ 0x80 ≤ b.toNat ∧ b.toNat ≤ 0xbf := by
  simp [isCont, BitVec.le_def]

theorem validUTF8_two (h0 : 0xc2 ≤ b0.toNat ∧ b0.toNat ≤ 0xdf) (h1 : isCont b1 = true) :
    validUTF8 (b0 :: b1 :: rest) = validUTF8 rest := by
  have hascii : ¬ b0 < 0x80 := by bv_omega
  have hlow : (0xc2 : Byte) ≤ b0 := by bv_omega
  have hhigh : b0 ≤ (0xdf : Byte) := by bv_omega
  rw [validUTF8.eq_def]
  simp only [hascii, if_false, hlow, hhigh, decide_true, Bool.and_true, if_true, h1, Bool.true_and]

/-- Three bytes that are no overlong form and no surrogate. -/
theorem validUTF8_three (h0 : 0xe0 ≤ b0.toNat ∧ b0.toNat ≤ 0xef) (h1 : isCont b1 = true)
    (h2 : isCont b2 = true) (hover : b0.toNat = 0xe0 → 0xa0 ≤ b1.toNat)
    (hsurrogate : b0.toNat = 0xed → b1.toNat ≤ 0x9f) :
    validUTF8 (b0 :: b1 :: b2 :: rest) = validUTF8 rest := by
  have hascii : ¬ b0 < 0x80 := by bv_omega
  have htwo : ¬ b0 ≤ (0xdf : Byte) := by bv_omega
  have hlow : (0xe0 : Byte) ≤ b0 := by bv_omega
  have hhigh : b0 ≤ (0xef : Byte) := by bv_omega
  have hcont := isCont_iff.mp h1
  have hsecond : (if b0 = 0xe0 then decide (0xa0 ≤ b1) && decide (b1 ≤ 0xbf)
      else if b0 = 0xed then decide (0x80 ≤ b1) && decide (b1 ≤ 0x9f) else isCont b1) = true := by
    by_cases he0 : b0 = 0xe0
    · have hle := hover (by rw [he0]; rfl)
      rw [if_pos he0, Bool.and_eq_true, decide_eq_true_eq, decide_eq_true_eq]
      constructor <;> bv_omega
    · by_cases hed : b0 = 0xed
      · have hle := hsurrogate (by rw [hed]; rfl)
        rw [if_neg he0, if_pos hed, Bool.and_eq_true, decide_eq_true_eq, decide_eq_true_eq]
        constructor <;> bv_omega
      · rw [if_neg he0, if_neg hed]
        exact h1
  rw [validUTF8.eq_def]
  simp only [hascii, htwo, hlow, hhigh, if_false, decide_true, decide_false, Bool.and_false,
    Bool.and_true, if_true, hsecond, h2, Bool.true_and, Bool.false_eq_true]

/-- Four bytes that are no overlong form and not beyond the last rune. -/
theorem validUTF8_four (h0 : 0xf0 ≤ b0.toNat ∧ b0.toNat ≤ 0xf4) (h1 : isCont b1 = true)
    (h2 : isCont b2 = true) (h3 : isCont b3 = true) (hover : b0.toNat = 0xf0 → 0x90 ≤ b1.toNat)
    (hlast : b0.toNat = 0xf4 → b1.toNat ≤ 0x8f) :
    validUTF8 (b0 :: b1 :: b2 :: b3 :: rest) = validUTF8 rest := by
  have hascii : ¬ b0 < 0x80 := by bv_omega
  have htwo : ¬ b0 ≤ (0xdf : Byte) := by bv_omega
  have hthree : ¬ b0 ≤ (0xef : Byte) := by bv_omega
  have hlow : (0xf0 : Byte) ≤ b0 := by bv_omega
  have hhigh : b0 ≤ (0xf4 : Byte) := by bv_omega
  have hcont := isCont_iff.mp h1
  have hsecond : (if b0 = 0xf0 then decide (0x90 ≤ b1) && decide (b1 ≤ 0xbf)
      else if b0 = 0xf4 then decide (0x80 ≤ b1) && decide (b1 ≤ 0x8f) else isCont b1) = true := by
    by_cases hf0 : b0 = 0xf0
    · have hle := hover (by rw [hf0]; rfl)
      rw [if_pos hf0, Bool.and_eq_true, decide_eq_true_eq, decide_eq_true_eq]
      constructor <;> bv_omega
    · by_cases hf4 : b0 = 0xf4
      · have hle := hlast (by rw [hf4]; rfl)
        rw [if_neg hf0, if_pos hf4, Bool.and_eq_true, decide_eq_true_eq, decide_eq_true_eq]
        constructor <;> bv_omega
      · rw [if_neg hf0, if_neg hf4]
        exact h1
  rw [validUTF8.eq_def]
  simp only [hascii, htwo, hthree, hlow, hhigh, if_false, decide_true, decide_false,
    Bool.and_false, Bool.and_true, if_true, hsecond, h2, h3, Bool.true_and, Bool.false_eq_true]

/-- A byte whose number is known. -/
private theorem toNat_byte {n : Nat} (h : n < 256) : (BitVec.ofNat 8 n : Byte).toNat = n := by
  rw [BitVec.toNat_ofNat]
  exact Nat.mod_eq_of_lt h

private theorem isCont_byte {n : Nat} (h : n < 64) : isCont (BitVec.ofNat 8 (0x80 + n)) = true := by
  rw [isCont_iff, toNat_byte (by omega)]
  omega

theorem validUTF8_encodeRune (c : Char) (rest : Bytes) :
    validUTF8 (encodeRune c ++ rest) = validUTF8 rest := by
  have hvalid : c.toNat < 0xd800 ∨ 0xdfff < c.toNat ∧ c.toNat < 0x110000 := by
    simpa [UInt32.isValidChar, Nat.isValidChar] using c.valid
  unfold encodeRune
  generalize c.toNat = n at hvalid
  dsimp only
  split_ifs with hone htwo hthree
  · refine validUTF8_append (fun b hb => ?_) rest
    rw [List.mem_singleton] at hb
    rw [hb, BitVec.lt_def, toNat_byte (by omega)]
    exact hone
  · refine validUTF8_two ?_ (isCont_byte (by omega))
    rw [toNat_byte (by omega)]
    omega
  · have h0 : (BitVec.ofNat 8 (0xe0 + n / 4096) : Byte).toNat = 0xe0 + n / 4096 :=
      toNat_byte (by omega)
    have h1 : (BitVec.ofNat 8 (0x80 + n / 64 % 64) : Byte).toNat = 0x80 + n / 64 % 64 :=
      toNat_byte (by omega)
    refine validUTF8_three ?_ (isCont_byte (by omega)) (isCont_byte (by omega)) ?_ ?_
    · rw [h0]
      omega
    · rw [h0, h1]
      omega
    · rw [h0, h1]
      omega
  · have h0 : (BitVec.ofNat 8 (0xf0 + n / 262144) : Byte).toNat = 0xf0 + n / 262144 :=
      toNat_byte (by omega)
    have h1 : (BitVec.ofNat 8 (0x80 + n / 4096 % 64) : Byte).toNat = 0x80 + n / 4096 % 64 :=
      toNat_byte (by omega)
    refine validUTF8_four ?_ (isCont_byte (by omega)) (isCont_byte (by omega))
      (isCont_byte (by omega)) ?_ ?_
    · rw [h0]
      omega
    · rw [h0, h1]
      omega
    · rw [h0, h1]
      omega

theorem validUTF8_encodeRunes (cs : List Char) : validUTF8 (encodeRunes cs) = true := by
  induction cs with
  | nil => rfl
  | cons c cs ih =>
    unfold encodeRunes at ih ⊢
    rw [List.flatMap_cons, validUTF8_encodeRune, ih]

/-! ### Strings and their bytes -/

theorem str_append (a b : String) : str (a ++ b) = str a ++ str b := by simp [str]

theorem str_ofList_cons (c : Char) (cs : List Char) :
    str (String.ofList (c :: cs))
      = (String.utf8EncodeChar c).map UInt8.toBitVec ++ str (String.ofList cs) := by
  simp [str, List.utf8Encode]

theorem utf8EncodeChar_of_ascii {x : Byte} (hx : x < 0x80) :
    (String.utf8EncodeChar (Char.ofNat x.toNat)).map UInt8.toBitVec = [x] := by
  revert x
  decide +kernel

theorem str_text {b : Bytes} (hb : Ascii b) : str (text b) = b := by
  induction b with
  | nil => decide +kernel
  | cons x b ih =>
    have hx : x < 0x80 := hb x List.mem_cons_self
    have hrune : decodeRune x b = (Char.ofNat x.toNat, b) := by
      rw [decodeRune.eq_def, if_pos hx]
    have hrest := ih fun y hy => hb y (List.mem_cons_of_mem x hy)
    unfold text at hrest ⊢
    rw [runes, hrune, str_ofList_cons, utf8EncodeChar_of_ascii hx, hrest, List.singleton_append]

end UbixVault
