/-
What the key rules accept, and what a listing contains.

Keys the vault builds itself are plain ASCII segments joined by slashes.  The
lemmas here say such keys are valid, and that listing a prefix gives back exactly
the last segments stored under it.
-/
import UbixVault.Storage

namespace UbixVault

/-! ### Listings -/

theorem Store.mem_list {s : Store} {pfx child : Key} :
    child ∈ s.list pfx ↔ ∃ key ∈ s, childUnder pfx key = some child := by
  simp [Store.list, Finmap.mem_keys]

theorem Store.nodup_list (s : Store) (pfx : Key) : (s.list pfx).Nodup :=
  Finset.nodup_inOrder _

/-! ### Keys built from plain segments -/

theorem splitSlash_append_slash (a b : Bytes) :
    splitSlash (a ++ slash :: b) = splitSlash a ++ splitSlash b := by
  induction a with
  | nil => simp [splitSlash]
  | cons c rest ih =>
    by_cases hc : c = slash
    · simp [splitSlash, hc, ih]
    · have hne : splitSlash rest ≠ [] := by
        cases rest with
        | nil => simp [splitSlash]
        | cons d ds =>
          simp only [splitSlash]
          split
          · simp
          · split <;> simp
      obtain ⟨seg, segs, hseg⟩ := List.exists_cons_of_ne_nil hne
      simp [splitSlash, hc, ih, hseg]

theorem splitSlash_of_notMem {seg : Bytes} (h : slash ∉ seg) : splitSlash seg = [seg] := by
  induction seg with
  | nil => rfl
  | cons c rest ih =>
    simp only [List.mem_cons, not_or] at h
    simp [splitSlash, Ne.symm h.1, ih h.2]

theorem validUTF8_append {a : Bytes} (ha : Ascii a) (b : Bytes) :
    validUTF8 (a ++ b) = validUTF8 b := by
  induction a with
  | nil => rfl
  | cons c rest ih =>
    have hc : c < 0x80 := ha c (by simp)
    rw [List.cons_append, validUTF8.eq_def]
    simp only [hc, if_true]
    exact ih fun x hx => ha x (by simp [hx])

theorem validUTF8_of_ascii {a : Bytes} (ha : Ascii a) : validUTF8 a = true := by
  have h := validUTF8_append ha []
  simpa [validUTF8] using h

/-- On plain text the key rules are about slashes and dots only. -/
theorem validKey_of_ascii {key : Key} (hascii : Ascii key)
    (h : (key != [] && key.head? != some slash && key.getLast? != some slash &&
      (splitSlash key).all validSegment) = true) : validKey key = true := by
  unfold validKey
  rw [validUTF8_of_ascii hascii, Bool.and_true]
  exact h

/-- No sequence goes on over a plain character. -/
theorem validUTF8_append_plain {c : Byte} (hc : c < 0x80) (a b : Bytes) :
    validUTF8 (a ++ c :: b) = (validUTF8 a && validUTF8 b) := by
  have h80 : ¬ 0x80#8 ≤ c := BitVec.not_le.mpr hc
  have h90 : ¬ 0x90#8 ≤ c := by bv_omega
  have ha0 : ¬ 0xa0#8 ≤ c := by bv_omega
  have hcont : isCont c = false := by simp [isCont, h80]
  fun_induction validUTF8 a with
  | case1 => exact validUTF8_append (a := [c]) (by simpa [Ascii] using hc) b
  | case2 b0 rest hlt ih =>
    rw [List.cons_append, validUTF8.eq_def]
    simp only [hlt, if_true]
    exact ih
  | case3 b0 hge htwo b1 rest ih =>
    rw [List.cons_append, List.cons_append, validUTF8.eq_def]
    simp only [hge, htwo, if_true, if_false, ih, Bool.and_assoc]
  | case4 b0 rest hge htwo hshort =>
    rw [List.cons_append, validUTF8.eq_def]
    simp only [hge, htwo, if_true, if_false]
    match rest, hshort with
    | [], _ => simp [hcont]
    | b1 :: rest, hshort => exact absurd rfl (hshort b1 rest)
  | case5 b0 hge htwo hthree b1 b2 rest ih =>
    rw [List.cons_append, List.cons_append, List.cons_append, validUTF8.eq_def]
    simp only [hge, htwo, hthree, if_true, if_false, Bool.false_eq_true, ih, Bool.and_assoc]
  | case6 b0 rest hge htwo hthree hshort =>
    rw [List.cons_append, validUTF8.eq_def]
    simp only [hge, htwo, hthree, if_true, if_false, Bool.false_eq_true]
    match rest, hshort with
    | [], _ => cases b <;> simp [hcont, h80, ha0]
    | [b1], _ => simp [hcont]
    | b1 :: b2 :: rest, hshort => exact absurd rfl (hshort b1 b2 rest)
  | case7 b0 hge htwo hthree hfour b1 b2 b3 rest ih =>
    rw [List.cons_append, List.cons_append, List.cons_append, List.cons_append, validUTF8.eq_def]
    simp only [hge, htwo, hthree, hfour, if_true, if_false, Bool.false_eq_true, ih, Bool.and_assoc]
  | case8 b0 rest hge htwo hthree hfour hshort =>
    rw [List.cons_append, validUTF8.eq_def]
    simp only [hge, htwo, hthree, hfour, if_true, if_false, Bool.false_eq_true]
    match rest, hshort with
    | [], _ => rcases b with _ | ⟨b1, _ | ⟨b2, b⟩⟩ <;> simp [hcont, h80, h90]
    | [b1], _ => cases b <;> simp [hcont]
    | [b1, b2], _ => simp [hcont]
    | b1 :: b2 :: b3 :: rest, hshort => exact absurd rfl (hshort b1 b2 b3 rest)
  | case9 b0 rest hge htwo hthree hfour =>
    rw [List.cons_append, validUTF8.eq_def]
    simp only [hge, htwo, hthree, hfour, if_false, Bool.false_eq_true, Bool.false_and]

/-- No sequence goes on over a slash. -/
theorem validUTF8_append_slash (a b : Bytes) : validUTF8 (a ++ slash :: b) = (validUTF8 a && validUTF8 b) :=
  validUTF8_append_plain (by decide) a b

/-- A key is valid if its segments are: an empty one is none. -/
theorem validKey_eq (key : Key) :
    validKey key = (validUTF8 key && (splitSlash key).all validSegment) := by
  by_cases hall : (splitSlash key).all validSegment = true
  · have hne : key ≠ [] := by
      rintro rfl
      exact absurd hall (by decide)
    have hhead : key.head? ≠ some slash := by
      intro hhead
      obtain ⟨rest, rfl⟩ := List.head?_eq_some_iff.mp hhead
      simp [splitSlash, validSegment] at hall
    have hlast : key.getLast? ≠ some slash := by
      intro hlast
      obtain ⟨front, rfl⟩ := List.getLast?_eq_some_iff.mp hlast
      rw [splitSlash_append_slash] at hall
      simp [splitSlash, validSegment] at hall
    simp only [validKey, hall, bne_iff_ne.mpr hne, bne_iff_ne.mpr hhead, bne_iff_ne.mpr hlast,
      Bool.true_and, Bool.and_true]
  · simp [validKey, hall]

/-- A key is valid if both parts at a slash are. -/
theorem validKey_append_slash (a b : Bytes) :
    validKey (a ++ slash :: b) = (validKey a && validKey b) := by
  rw [validKey_eq, validKey_eq, validKey_eq, validUTF8_append_slash, splitSlash_append_slash,
    List.all_append]
  cases validUTF8 a <;> cases validUTF8 b <;> simp

/-- Plain text without slashes that is a segment is a key. -/
theorem validKey_segment {seg : Bytes} (hascii : Ascii seg) (hslash : slash ∉ seg)
    (hseg : validSegment seg = true) : validKey seg = true := by
  rw [validKey_eq, validUTF8_of_ascii hascii, splitSlash_of_notMem hslash]
  simpa using hseg

/-- What stands after the last slash tells where it is. -/
theorem append_slash_inj {a b x y : Bytes} (hx : slash ∉ x) (hy : slash ∉ y)
    (h : a ++ slash :: x = b ++ slash :: y) : a = b ∧ x = y := by
  have hsplit := congrArg splitSlash h
  rw [splitSlash_append_slash, splitSlash_append_slash, splitSlash_of_notMem hx,
    splitSlash_of_notMem hy] at hsplit
  obtain ⟨-, hxy⟩ := List.append_inj' hsplit rfl
  cases hxy
  exact ⟨List.append_cancel_right h, rfl⟩

/-- Under a prefix that ends in a slash, a segment without slashes is its own child. -/
theorem childUnder_append {pfx seg : Bytes} (hne : seg ≠ []) (hslash : slash ∉ seg) :
    childUnder pfx (pfx ++ seg) = some seg := by
  simp [childUnder, hne, hslash]

end UbixVault
