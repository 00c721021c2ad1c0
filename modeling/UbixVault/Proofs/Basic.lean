/-
Encoded text: it reads back, and hexadecimal text is plain.

The names under which the vault stores tokens are hexadecimal, so they are valid
key segments, and two of them are the same only when the bytes are.  Shares are
sent in hexadecimal and in base64.
-/
import UbixVault.Proofs.Storage

namespace UbixVault

theorem fromHexDigit_hexDigit {n : Nat} (hn : n < 16) : fromHexDigit (hexDigit n) = some n := by
  have hall : ∀ m : Fin 16, fromHexDigit (hexDigit m) = some m.val := by decide
  exact hall ⟨n, hn⟩

/-- Decoding reverses encoding. -/
theorem hexDecode_hexEncode (b : Bytes) : hexDecode (hexEncode b) = some b := by
  induction b with
  | nil => rfl
  | cons x rest ih =>
    have hx : x.toNat < 256 := x.isLt
    have hbyte : BitVec.ofNat 8 (16 * (x.toNat / 16) + x.toNat % 16) = x := by
      rw [Nat.div_add_mod, BitVec.ofNat_toNat, BitVec.setWidth_eq]
    show hexDecode (hexDigit (x.toNat / 16) :: hexDigit (x.toNat % 16) :: hexEncode rest) = _
    simp only [hexDecode]
    rw [fromHexDigit_hexDigit (by omega), fromHexDigit_hexDigit (by omega), ih]
    simp only [Option.bind_eq_bind, Option.bind_some, Option.pure_def]
    rw [hbyte]

theorem hexEncode_injective : Function.Injective hexEncode := by
  intro a b h
  have hdec := hexDecode_hexEncode a
  rw [h, hexDecode_hexEncode b] at hdec
  exact (Option.some.inj hdec).symm

theorem hexEncode_ne_nil {b : Bytes} (hb : b ≠ []) : hexEncode b ≠ [] := by
  obtain ⟨x, rest, rfl⟩ := List.exists_cons_of_ne_nil hb
  exact List.cons_ne_nil _ _

/-- A hexadecimal digit is plain text, and neither a slash nor a dot. -/
theorem hexDigit_plain {n : Nat} (hn : n < 16) :
    hexDigit n < 0x80 ∧ hexDigit n ≠ slash ∧ hexDigit n ≠ dot := by
  have hall : ∀ m : Fin 16, hexDigit m < 0x80 ∧ hexDigit m ≠ slash ∧ hexDigit m ≠ dot := by
    decide
  exact hall ⟨n, hn⟩

theorem exists_hexDigit {b : Bytes} {c : Byte} (hc : c ∈ hexEncode b) : ∃ n < 16, c = hexDigit n := by
  obtain ⟨x, -, hx⟩ := List.mem_flatMap.mp hc
  have hlt : x.toNat < 256 := x.isLt
  rcases List.mem_cons.mp hx with rfl | hx
  · exact ⟨_, by omega, rfl⟩
  · exact ⟨_, by omega, List.mem_singleton.mp hx⟩

theorem mem_hexEncode {b : Bytes} {c : Byte} (hc : c ∈ hexEncode b) :
    c < 0x80 ∧ c ≠ slash ∧ c ≠ dot := by
  obtain ⟨n, hn, rfl⟩ := exists_hexDigit hc
  exact hexDigit_plain hn

theorem ascii_hexEncode (b : Bytes) : Ascii (hexEncode b) := fun _ hc => (mem_hexEncode hc).1

theorem slash_notMem_hexEncode (b : Bytes) : slash ∉ hexEncode b :=
  fun hc => (mem_hexEncode hc).2.1 rfl

theorem validSegment_hexEncode {b : Bytes} (hb : b ≠ []) : validSegment (hexEncode b) = true := by
  have hdot : dot ∉ hexEncode b := fun hc => (mem_hexEncode hc).2.2 rfl
  have h1 : hexEncode b ≠ [dot] := by
    intro h
    rw [h] at hdot
    simp at hdot
  have h2 : hexEncode b ≠ [dot, dot] := by
    intro h
    rw [h] at hdot
    simp at hdot
  simp [validSegment, hexEncode_ne_nil hb, h1, h2]

/-- Hexadecimal text below a plain key is a valid key. -/
theorem validKey_append_hexEncode {a b : Bytes} (ha : validKey a = true) (hb : b ≠ []) :
    validKey (a ++ slash :: hexEncode b) = true := by
  rw [validKey_append_slash, ha, Bool.true_and]
  exact validKey_segment (ascii_hexEncode b) (slash_notMem_hexEncode b) (validSegment_hexEncode hb)

/-! ### Base64 -/

theorem base64Digit_spec {n : Nat} (hn : n < 64) :
    fromBase64Digit (base64Digit n) = some n ∧ base64Digit n ≠ base64Pad ∧
      base64Digit n ≠ 0x0a ∧ base64Digit n ≠ 0x0d := by
  have hall : ∀ m : Fin 64, fromBase64Digit (base64Digit m) = some m.val ∧
      base64Digit m ≠ base64Pad ∧ base64Digit m ≠ 0x0a ∧ base64Digit m ≠ 0x0d := by
    decide
  exact hall ⟨n, hn⟩

theorem fromBase64Digit_base64Digit {n : Nat} (hn : n < 64) :
    fromBase64Digit (base64Digit n) = some n := (base64Digit_spec hn).1

theorem base64Digit_ne_pad {n : Nat} (hn : n < 64) : base64Digit n ≠ base64Pad :=
  (base64Digit_spec hn).2.1

private theorem ofNat_eq {x : Byte} {n : Nat} (h : n = x.toNat) : BitVec.ofNat 8 n = x := by
  rw [h, BitVec.ofNat_toNat, BitVec.setWidth_eq]

theorem base64Quanta_base64Encode (b : Bytes) : base64Quanta (base64Encode b) = some b := by
  induction b using base64Encode.induct with
  | case1 => rfl
  | case2 x =>
    have hx : x.toNat < 256 := x.isLt
    simp only [base64Encode, base64Quanta]
    rw [fromBase64Digit_base64Digit (by omega), fromBase64Digit_base64Digit (by omega)]
    simp only [Option.bind_eq_bind, Option.bind_some, and_self, if_true, Option.pure_def]
    rw [ofNat_eq (x := x) (by omega)]
  | case3 x y =>
    have hx : x.toNat < 256 := x.isLt
    have hy : y.toNat < 256 := y.isLt
    simp only [base64Encode, base64Quanta]
    rw [fromBase64Digit_base64Digit (by omega), fromBase64Digit_base64Digit (by omega),
      fromBase64Digit_base64Digit (by omega)]
    have hpad := base64Digit_ne_pad (n := y.toNat % 16 * 4) (by omega)
    simp only [Option.bind_eq_bind, Option.bind_some, hpad, false_and, and_self, if_false, if_true,
      Option.pure_def]
    rw [ofNat_eq (x := x) (by omega), ofNat_eq (x := y) (by omega)]
  | case4 x y z rest ih =>
    have hx : x.toNat < 256 := x.isLt
    have hy : y.toNat < 256 := y.isLt
    have hz : z.toNat < 256 := z.isLt
    simp only [base64Encode, base64Quanta]
    rw [fromBase64Digit_base64Digit (by omega), fromBase64Digit_base64Digit (by omega),
      fromBase64Digit_base64Digit (by omega), fromBase64Digit_base64Digit (by omega), ih]
    have hpad := base64Digit_ne_pad (n := z.toNat % 64) (by omega)
    simp only [Option.bind_eq_bind, Option.bind_some, hpad, false_and, and_false, if_false,
      Option.pure_def]
    rw [ofNat_eq (x := x) (by omega), ofNat_eq (x := y) (by omega), ofNat_eq (x := z) (by omega)]

/-- An encoded text has no line ends. -/
theorem mem_base64Encode {b : Bytes} {c : Byte} (hc : c ∈ base64Encode b) :
    c ≠ 0x0a ∧ c ≠ 0x0d := by
  have hdigit : ∀ {n : Nat}, n < 64 → base64Digit n ≠ 0x0a ∧ base64Digit n ≠ 0x0d :=
    fun hn => (base64Digit_spec hn).2.2
  have hpad : base64Pad ≠ 0x0a ∧ base64Pad ≠ 0x0d := by decide
  induction b using base64Encode.induct with
  | case1 => cases hc
  | case2 x =>
    have hx : x.toNat < 256 := x.isLt
    simp only [base64Encode, List.mem_cons, List.not_mem_nil, or_false] at hc
    rcases hc with rfl | rfl | rfl | rfl
    · exact hdigit (by omega)
    · exact hdigit (by omega)
    · exact hpad
    · exact hpad
  | case3 x y =>
    have hx : x.toNat < 256 := x.isLt
    have hy : y.toNat < 256 := y.isLt
    simp only [base64Encode, List.mem_cons, List.not_mem_nil, or_false] at hc
    rcases hc with rfl | rfl | rfl | rfl
    · exact hdigit (by omega)
    · exact hdigit (by omega)
    · exact hdigit (by omega)
    · exact hpad
  | case4 x y z rest ih =>
    have hx : x.toNat < 256 := x.isLt
    have hy : y.toNat < 256 := y.isLt
    have hz : z.toNat < 256 := z.isLt
    simp only [base64Encode, List.mem_cons] at hc
    rcases hc with rfl | rfl | rfl | rfl | hc
    · exact hdigit (by omega)
    · exact hdigit (by omega)
    · exact hdigit (by omega)
    · exact hdigit (by omega)
    · exact ih hc

/-- Decoding reverses encoding. -/
theorem base64Decode_base64Encode (b : Bytes) : base64Decode (base64Encode b) = some b := by
  have hfilter : (base64Encode b).filter (fun c => c != 0x0a && c != 0x0d) = base64Encode b := by
    rw [List.filter_eq_self]
    intro c hc
    obtain ⟨h₁, h₂⟩ := mem_base64Encode hc
    rw [Bool.and_eq_true, bne_iff_ne, bne_iff_ne]
    exact ⟨h₁, h₂⟩
  rw [base64Decode, hfilter, base64Quanta_base64Encode]

/-! ### Decimal text -/

theorem fromDecimalDigit_decimalDigit {n : Nat} (hn : n < 10) :
    fromDecimalDigit (decimalDigit n) = some n := by
  interval_cases n <;> decide

theorem decimalDigit_spec {n : Nat} (hn : n < 10) :
    decimalDigit n < 0x80 ∧ decimalDigit n ≠ slash ∧ decimalDigit n ≠ dot ∧
      decimalDigit n ≠ 0x2b ∧ decimalDigit n ≠ 0x2d := by
  interval_cases n <;> decide

theorem mem_decimal {n : Nat} {c : Byte} (hc : c ∈ decimal n) : ∃ k < 10, c = decimalDigit k := by
  fun_induction decimal n with
  | case1 n hlt => exact ⟨n, hlt, List.mem_singleton.mp hc⟩
  | case2 n hge ih =>
    rcases List.mem_append.mp hc with hc | hc
    · exact ih hc
    · exact ⟨n % 10, Nat.mod_lt _ (by decide), List.mem_singleton.mp hc⟩

theorem decimal_ne_nil (n : Nat) : decimal n ≠ [] := by
  rw [decimal]
  split
  · simp
  · simp

theorem fromDecimal_decimal (n : Nat) : fromDecimal (decimal n) = some n := by
  have hfold : ∀ n, (decimal n).foldlM (fun n c => (fromDecimalDigit c).map (10 * n + ·)) 0
      = some n := by
    intro n
    fun_induction decimal n with
    | case1 n hlt => simp [fromDecimalDigit_decimalDigit hlt]
    | case2 n hge ih =>
      have hlast := fromDecimalDigit_decimalDigit (Nat.mod_lt n (by decide : 0 < 10))
      rw [List.foldlM_append, ih]
      simp only [Option.bind_eq_bind, Option.bind_some, List.foldlM_cons, hlast, Option.map_some,
        List.foldlM_nil, Option.pure_def, Option.some.injEq]
      omega
  rw [fromDecimal, if_neg (decimal_ne_nil n), hfold]

theorem atoi_itoa (n : Int) : atoi (itoa n) = some n := by
  cases n with
  | ofNat n =>
    obtain ⟨c, s, hcs⟩ := List.exists_cons_of_ne_nil (decimal_ne_nil n)
    have hc : c ≠ 0x2b ∧ c ≠ 0x2d := by
      obtain ⟨k, hk, rfl⟩ := mem_decimal (n := n) (c := c) (by rw [hcs]; exact List.mem_cons_self)
      exact (decimalDigit_spec hk).2.2.2
    rw [itoa, hcs, atoi, if_neg hc.1, if_neg hc.2, ← hcs, fromDecimal_decimal]
    rfl
  | negSucc n =>
    rw [itoa, atoi, if_neg (by decide), if_pos rfl, fromDecimal_decimal]
    rfl

theorem itoa_injective : Function.Injective itoa := by
  intro n n' h
  have hread := atoi_itoa n
  rw [h, atoi_itoa] at hread
  exact (Option.some.inj hread).symm

theorem mem_itoa {n : Int} {c : Byte} (hc : c ∈ itoa n) : c < 0x80 ∧ c ≠ slash ∧ c ≠ dot := by
  have hdecimal : ∀ k, c ∈ decimal k → c < 0x80 ∧ c ≠ slash ∧ c ≠ dot := by
    intro k hk
    obtain ⟨d, hd, rfl⟩ := mem_decimal hk
    obtain ⟨hascii, hslash, hdot, -⟩ := decimalDigit_spec hd
    exact ⟨hascii, hslash, hdot⟩
  cases n with
  | ofNat n => exact hdecimal n hc
  | negSucc n =>
    rcases List.mem_cons.mp hc with rfl | hc
    · decide
    · exact hdecimal _ hc

theorem itoa_ne_nil (n : Int) : itoa n ≠ [] := by
  cases n with
  | ofNat n => exact decimal_ne_nil n
  | negSucc n => exact List.cons_ne_nil _ _

theorem slash_notMem_itoa (n : Int) : slash ∉ itoa n := fun hc => (mem_itoa hc).2.1 rfl

theorem validKey_itoa (n : Int) : validKey (itoa n) = true := by
  refine validKey_segment (fun _ hc => (mem_itoa hc).1) (slash_notMem_itoa n) ?_
  obtain ⟨c, s, hcs⟩ := List.exists_cons_of_ne_nil (itoa_ne_nil n)
  have hdot : c ≠ dot := (mem_itoa (n := n) (by rw [hcs]; exact List.mem_cons_self)).2.2
  simp [hcs, validSegment, hdot]

/-! ### Going through a map -/

section Orders

variable {κ β : Type}

/-- A list in which a map can be gone through. -/
def IsOrder (M : Finmap fun _ : κ => β) (order : List ((_ : κ) × β)) : Prop :=
  (order : Multiset ((_ : κ) × β)) = M.entries

variable [DecidableEq κ] {M : Finmap fun _ : κ => β}

theorem IsOrder.mem_iff {order : List ((_ : κ) × β)} (h : IsOrder M order) {e : (_ : κ) × β} :
    e ∈ order ↔ M.lookup e.1 = some e.2 := by
  rw [Finmap.lookup_eq_some_iff, ← h, Multiset.mem_coe]

/-- A map can be gone through with any of its entries first. -/
theorem exists_order_cons {key : κ} {value : β} (h : M.lookup key = some value) :
    ∃ rest, IsOrder M (⟨key, value⟩ :: rest) := by
  obtain ⟨t, ht⟩ := Multiset.exists_cons_of_mem (Finmap.lookup_eq_some_iff.mp h)
  induction t using Quotient.inductionOn with
  | _ rest => exact ⟨rest, ht.symm⟩

end Orders

end UbixVault
