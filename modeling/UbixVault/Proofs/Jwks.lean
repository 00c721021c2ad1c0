/-
The exponent of an RSA key, as a number.

What the loop computes is the number that the bytes stand for, in the arithmetic of 64
bits.  It is that number itself as long as it fits, and another one, or none at all if
the low bits are zero, when it does not.
-/
import UbixVault.Jwks

namespace UbixVault.JwtAuth

variable {k : Jwk} {eb : Bytes}

/-- One turn of the loop is one digit in base 256. -/
theorem shiftIn_ofNat (n : Nat) (b : Byte) :
    shiftIn (BitVec.ofNat 64 n) b = BitVec.ofNat 64 (n * 256 + b.toNat) := by
  have hdisjoint : BitVec.ofNat 64 n <<< 8 &&& b.setWidth 64 = 0#64 := by
    ext i hi
    simp
    grind
  rw [shiftIn, ← BitVec.add_eq_or_of_and_eq_zero _ _ hdisjoint]
  apply BitVec.eq_of_toNat_eq
  simp [Nat.shiftLeft_eq]

theorem exponent_eq (eb : Bytes) : exponent eb = BitVec.ofNat 64 (bigEndian eb) := by
  have hloop : ∀ n, eb.foldl shiftIn (BitVec.ofNat 64 n) =
      BitVec.ofNat 64 (eb.foldl (fun n x => n * 256 + x.toNat) n) := by
    induction eb with
    | nil => exact fun _ => rfl
    | cons b eb ih =>
      intro n
      rw [List.foldl_cons, List.foldl_cons, shiftIn_ofNat, ih]
  exact hloop 0

theorem exponent_eq_zero_iff : exponent eb = 0 ↔ 2 ^ 64 ∣ bigEndian eb := by
  rw [exponent_eq, ← BitVec.toNat_inj, BitVec.toNat_ofNat]
  exact (Nat.dvd_iff_mod_eq_zero).symm

/-- The `int` is the number exactly if the number fits. -/
theorem toInt_exponent_iff : (exponent eb).toInt = bigEndian eb ↔ bigEndian eb < 2 ^ 63 := by
  rw [exponent_eq, BitVec.toInt_eq_toNat_bmod, BitVec.toNat_ofNat, Int.natCast_emod, Int.emod_bmod]
  constructor
  · intro h
    have hlt : (bigEndian eb : Int).bmod (2 ^ 64) < 2 ^ 63 := Int.bmod_lt (by decide)
    rw [h] at hlt
    exact_mod_cast hlt
  · intro h
    exact Int.bmod_eq_of_le (by omega) (by omega)

/-- What an RSA key with a readable modulus and exponent gives. -/
theorem publicKey_rsa (hkty : k.kty = str "RSA") {nb : Bytes} (hn : b64u k.n = .ok nb)
    (he : b64u k.e = .ok eb) :
    k.publicKey = if 2 ^ 64 ∣ bigEndian eb then .error .zeroExponent
      else .ok (.rsa (bigEndian nb) (exponent eb).toInt) := by
  unfold Jwk.publicKey b64uBig
  rw [if_pos hkty, hn, he]
  by_cases hzero : 2 ^ 64 ∣ bigEndian eb
  · rw [if_pos hzero]
    exact if_pos (exponent_eq_zero_iff.mpr hzero)
  · rw [if_neg hzero]
    exact if_neg fun h => hzero (exponent_eq_zero_iff.mp h)

/-- An RSA key is only used with the exponent its bytes stand for, and refused if that does not fit. -/
structure ExactExponent (k : Jwk) : Prop where
  exact : ∀ eb n e, b64u k.e = .ok eb → k.publicKey = .ok (.rsa n e) → e = bigEndian eb
  refused : ∀ eb, b64u k.e = .ok eb → 2 ^ 63 ≤ bigEndian eb → ∃ err, k.publicKey = .error err

/--
**When an exponent is decoded exactly.**  It has to fit, or the bits that are kept have to
be zero; a key that is not base64url is refused anyway.
-/
theorem exactExponent_iff (hkty : k.kty = str "RSA") :
    ExactExponent k ↔ ∀ nb eb, b64u k.n = .ok nb → b64u k.e = .ok eb →
      bigEndian eb < 2 ^ 63 ∨ 2 ^ 64 ∣ bigEndian eb := by
  constructor
  · intro h nb eb hn he
    rcases Nat.lt_or_ge (bigEndian eb) (2 ^ 63) with hfits | hlarge
    · exact .inl hfits
    · obtain ⟨err, herr⟩ := h.refused eb he hlarge
      rw [publicKey_rsa hkty hn he] at herr
      split_ifs at herr with hzero
      exact .inr hzero
  · intro hfits
    cases hn : b64u k.n with
    | error err =>
      have hrefused : k.publicKey = .error err := by
        unfold Jwk.publicKey b64uBig
        rw [if_pos hkty, hn]
        rfl
      exact ⟨fun _ _ _ _ hok => absurd (hrefused.symm.trans hok) nofun, fun _ _ _ => ⟨err, hrefused⟩⟩
    | ok nb =>
      constructor
      · intro eb n e he hok
        rw [publicKey_rsa hkty hn he] at hok
        split_ifs at hok with hzero
        cases hok
        exact toInt_exponent_iff.mpr ((hfits nb eb hn he).resolve_right hzero)
      · intro eb he hlarge
        have hzero := (hfits nb eb hn he).resolve_left (Nat.not_lt.mpr hlarge)
        rw [publicKey_rsa hkty hn he, if_pos hzero]
        exact ⟨_, rfl⟩

/-- A key with the usual exponent, 65537. -/
def usualKey : Jwk := ⟨str "RSA", str "sQ", str "AQAB", [], [], []⟩

theorem exactExponent_usualKey : ExactExponent usualKey := by
  refine (exactExponent_iff rfl).mpr fun nb eb _ he => .inl ?_
  have hread : b64u usualKey.e = .ok [1, 0, 1] := by decide +kernel
  rw [hread] at he
  cases he
  decide

/-- An exponent of nine bytes, 2^64 + 65537. -/
def longKey : Jwk := ⟨str "RSA", str "sQ", str "AQAAAAAAAQAB", [], [], []⟩

/-- The long exponent is taken for 65537. -/
theorem long_exponent_cut : longKey.kty = str "RSA" ∧ b64u longKey.e = .ok [1, 0, 0, 0, 0, 0, 1, 0, 1] ∧
    longKey.publicKey = .ok (.rsa 177 65537) ∧ bigEndian [1, 0, 0, 0, 0, 0, 1, 0, 1] = 2 ^ 64 + 65537 := by
  decide +kernel

end UbixVault.JwtAuth
