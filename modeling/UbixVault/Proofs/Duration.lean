/-
What a duration as text denotes.

A duration denotes the sum of its parts, which is a number of any size.  The parts are
added up in 64 bits, and a part or a sum above 2^63 is refused.  So the sum is the one
denoted, unless exactly 2^63 meets exactly 2^63: in 64 bits that is nothing.
-/
import UbixVault.Duration

namespace UbixVault.Duration

variable (fraction : Bytes → Nat → Nat)

/-- A part in nanoseconds. -/
def value (v : Nat) (frac : Bytes) (unit : Nat) : Nat :=
  v * unit + if (fromDecimal frac).getD 0 > 0 then fraction frac unit else 0

theorem leadingFraction_subset (s : Bytes) : (leadingFraction s).2 ⊆ s := by
  cases s with
  | nil => exact List.Subset.refl _
  | cons c s =>
    rw [leadingFraction]
    split_ifs
    · exact fun x hx => List.mem_cons_of_mem _ ((List.dropWhile_suffix _).subset hx)
    · exact List.Subset.refl _

/-- What is left after a part. -/
theorem length_rest_lt {s : Bytes}
    (hunit : (leadingFraction (s.dropWhile isDigit)).2.takeWhile isUnit ≠ []) :
    ((leadingFraction (s.dropWhile isDigit)).2.dropWhile isUnit).length < s.length := by
  have hlt := length_dropUnit hunit
  have hfrac := leadingFraction_length (s.dropWhile isDigit)
  have hlead := (List.dropWhile_suffix isDigit (l := s)).length_le
  omega

/-- The parts of a duration. -/
def parts (s : Bytes) : Option (List Nat) :=
  if s = [] then some []
  else if s.takeWhile isDigit = [] ∧ (leadingFraction (s.dropWhile isDigit)).1 = [] then none
  else if _hunit : (leadingFraction (s.dropWhile isDigit)).2.takeWhile isUnit = [] then none
  else
    match unitMap ((leadingFraction (s.dropWhile isDigit)).2.takeWhile isUnit) with
    | none => none
    | some unit =>
      (parts ((leadingFraction (s.dropWhile isDigit)).2.dropWhile isUnit)).map
        (value fraction ((fromDecimal (s.takeWhile isDigit)).getD 0)
          (leadingFraction (s.dropWhile isDigit)).1 unit :: ·)
termination_by s.length
decreasing_by exact length_rest_lt ‹_›

/-- The parts after the sign. -/
def unsignedParts (s : Bytes) : Option (List Nat) :=
  if s = str "0" then some [] else if s = [] then none else parts fraction s

/-- The parts of a duration, and whether there is a minus before them. -/
def signedParts : Bytes → Option (Bool × List Nat)
  | [] => none
  | c :: s =>
    if c = 0x2d then (unsignedParts fraction s).map (true, ·)
    else (unsignedParts fraction (if c = 0x2b then s else c :: s)).map (false, ·)

/-! ### How the parts are added up -/

/-- The sum of 64 bits, which is refused when it or a part is above 2^63. -/
def add (d : Nat) : List Nat → Option Nat
  | [] => some d
  | n :: ns =>
    if n > 2 ^ 63 ∨ (d + n) % 2 ^ 64 > 2 ^ 63 then none else add ((d + n) % 2 ^ 64) ns

theorem unitMap_pos {u : Bytes} {unit : Nat} (h : unitMap u = some unit) : 0 < unit := by
  unfold unitMap at h
  split_ifs at h <;> cases h <;> decide

/-- A part is no smaller than its number. -/
theorem le_value (v : Nat) (frac : Bytes) {unit : Nat} (hunit : 0 < unit) :
    v ≤ value fraction v frac unit :=
  (Nat.le_mul_of_pos_right v hunit).trans (Nat.le_add_right _ _)

theorem scaled_eq {v unit : Nat} (frac : Bytes) (hunit : 0 < unit) :
    scaled fraction v frac unit
      = if value fraction v frac unit > 2 ^ 63 then none else some (value fraction v frac unit) := by
  have hdiv : v > 2 ^ 63 / unit ↔ v * unit > 2 ^ 63 := Nat.div_lt_iff_lt_mul hunit
  unfold scaled value
  by_cases hlarge : v * unit > 2 ^ 63
  · rw [if_pos (hdiv.mpr hlarge), if_pos (by omega)]
  · rw [if_neg (mt hdiv.mp hlarge)]
    split_ifs
    · rfl
    · rfl
    · omega
    · rfl

/-- What the first part does to the sum of all. -/
theorem bind_add_cons (ns : Option (List Nat)) (n d : Nat) :
    (ns.map (n :: ·)).bind (add d) = if n > 2 ^ 63 ∨ (d + n) % 2 ^ 64 > 2 ^ 63 then none
      else ns.bind (add ((d + n) % 2 ^ 64)) := by
  cases ns with
  | none => simp
  | some ns => rfl

/-- **The loop adds up the parts.** -/
theorem addParts_eq (s : Bytes) (d : Nat) :
    addParts fraction s d = (parts fraction s).bind (add d) := by
  induction hlen : s.length using Nat.strong_induction_on generalizing s d with
  | _ len ih =>
    unfold addParts parts
    by_cases hempty : s = []
    · rw [if_pos hempty, if_pos hempty]
      rfl
    rw [if_neg hempty, if_neg hempty]
    split
    · next hint =>
      have hlarge : (fromDecimal (s.takeWhile isDigit)).getD 0 > 2 ^ 63 := by
        by_contra hsmall
        rw [leadingInt, if_neg hsmall] at hint
        cases hint
      split_ifs
      · rfl
      · rfl
      cases hmap : unitMap ((leadingFraction (s.dropWhile isDigit)).2.takeWhile isUnit) with
      | none => rfl
      | some unit =>
        have hvalue := le_value fraction ((fromDecimal (s.takeWhile isDigit)).getD 0)
          (leadingFraction (s.dropWhile isDigit)).1 (unitMap_pos hmap)
        rw [bind_add_cons, if_pos (.inl (lt_of_lt_of_le hlarge hvalue))]
    · next v s₁ hint =>
      obtain ⟨rfl, rfl⟩ : v = (fromDecimal (s.takeWhile isDigit)).getD 0 ∧
          s₁ = s.dropWhile isDigit := by
        unfold leadingInt at hint
        dsimp only at hint
        split_ifs at hint
        cases hint
        exact ⟨rfl, rfl⟩
      split_ifs with hnumber hunit
      · rfl
      · rfl
      cases hmap : unitMap ((leadingFraction (s.dropWhile isDigit)).2.takeWhile isUnit) with
      | none => rfl
      | some unit =>
        dsimp only
        rw [scaled_eq fraction _ (unitMap_pos hmap), bind_add_cons]
        by_cases hlarge : value fraction ((fromDecimal (s.takeWhile isDigit)).getD 0)
            (leadingFraction (s.dropWhile isDigit)).1 unit > 2 ^ 63
        · rw [if_pos hlarge, if_pos (.inl hlarge)]
        · rw [if_neg hlarge]
          simp only [hlarge, false_or]
          rw [ih _ (hlen ▸ length_rest_lt hunit) _ _ rfl]

/-- The sum is within 64 bits all the way. -/
structure Fits (d : Nat) (ns : List Nat) : Prop where
  parts : ∀ n ∈ ns, n ≤ 2 ^ 63
  sums : ∀ before, before <+: ns → (d + before.sum) % 2 ^ 64 ≤ 2 ^ 63

theorem fits_cons {d n : Nat} {ns : List Nat} (hd : d ≤ 2 ^ 63) :
    Fits d (n :: ns) ↔
      (n ≤ 2 ^ 63 ∧ (d + n) % 2 ^ 64 ≤ 2 ^ 63) ∧ Fits ((d + n) % 2 ^ 64) ns := by
  have hshift : ∀ before : List Nat,
      (d + (n :: before).sum) % 2 ^ 64 = ((d + n) % 2 ^ 64 + before.sum) % 2 ^ 64 := by
    intro before
    rw [List.sum_cons, ← Nat.add_assoc, Nat.mod_add_mod]
  constructor
  · rintro ⟨hparts, hsums⟩
    refine ⟨⟨hparts n List.mem_cons_self, ?_⟩, fun m hm => hparts m (List.mem_cons_of_mem _ hm), ?_⟩
    · simpa using hsums [n] ⟨ns, rfl⟩
    · intro before hbefore
      rw [← hshift]
      exact hsums _ (List.cons_prefix_cons.mpr ⟨rfl, hbefore⟩)
  · rintro ⟨⟨hn, -⟩, hparts, hsums⟩
    refine ⟨List.forall_mem_cons.mpr ⟨hn, hparts⟩, fun before hbefore => ?_⟩
    rcases List.prefix_cons_iff.mp hbefore with rfl | ⟨rest, rfl, hrest⟩
    · simpa using (Nat.mod_le _ _).trans hd
    · rw [hshift]
      exact hsums rest hrest

/-- What is not refused is the sum in 64 bits. -/
theorem add_eq_some {ns : List Nat} : ∀ {d e : Nat}, d ≤ 2 ^ 63 →
    (add d ns = some e ↔ Fits d ns ∧ e = (d + ns.sum) % 2 ^ 64) := by
  induction ns with
  | nil =>
    intro d e hd
    have hmod : d % 2 ^ 64 = d := Nat.mod_eq_of_lt (by omega)
    have hfits : Fits d [] := by
      refine ⟨by simp, fun before h => ?_⟩
      rw [List.prefix_nil.mp h, List.sum_nil, Nat.add_zero, hmod]
      exact hd
    simp only [add, List.sum_nil, Nat.add_zero, hmod, Option.some.injEq, hfits, true_and]
    exact eq_comm
  | cons n ns ih =>
    intro d e hd
    rw [fits_cons hd, add]
    by_cases hrefused : n > 2 ^ 63 ∨ (d + n) % 2 ^ 64 > 2 ^ 63
    · rw [if_pos hrefused]
      refine ⟨nofun, fun h => ?_⟩
      obtain ⟨⟨⟨hn, hsum⟩, -⟩, -⟩ := h
      omega
    · rw [if_neg hrefused, ih (by omega), List.sum_cons, ← Nat.add_assoc, Nat.mod_add_mod]
      simp only [not_or, not_lt] at hrefused
      simp only [hrefused, and_self, true_and]

/-! ### Durations -/

/-- A sum with its sign; the positive ones end at 2^63 - 1. -/
def signed (negative : Bool) (d : Nat) : Option Int :=
  if negative then some (-Int.ofNat d) else if d > 2 ^ 63 - 1 then none else some (Int.ofNat d)

theorem parseUnsigned_eq (s : Bytes) :
    parseUnsigned fraction s = (unsignedParts fraction s).bind (add 0) := by
  unfold parseUnsigned unsignedParts
  split_ifs
  · rfl
  · rfl
  · exact addParts_eq fraction s 0

/-- **What `time.ParseDuration` makes of the parts.** -/
theorem parseDuration_eq (s : Bytes) :
    parseDuration fraction s
      = (signedParts fraction s).bind fun p => (add 0 p.2).bind (signed p.1) := by
  cases s with
  | nil => rfl
  | cons c s =>
    rw [parseDuration, signedParts]
    by_cases hminus : c = 0x2d
    · rw [if_pos hminus, if_pos hminus, parseUnsigned_eq, Option.bind_map]
      cases unsignedParts fraction s with
      | none => rfl
      | some ns => exact Option.map_eq_bind
    · rw [if_neg hminus, if_neg hminus, parseUnsigned_eq, Option.bind_map]
      cases unsignedParts fraction (if c = 0x2b then s else c :: s) with
      | none => rfl
      | some ns =>
        dsimp only [Option.bind_some, Function.comp]
        cases add 0 ns with
        | none => rfl
        | some d => rfl

theorem isDigit_of_fromDecimal {s : Bytes} {n : Nat} (h : fromDecimal s = some n) :
    ∀ c ∈ s, isDigit c = true := by
  have hfold : ∀ (s : Bytes) (m : Nat),
      s.foldlM (fun n c => (fromDecimalDigit c).map (10 * n + ·)) m = some n →
        ∀ c ∈ s, isDigit c = true := by
    intro s
    induction s with
    | nil => simp
    | cons c s ih =>
      intro m h
      rw [List.foldlM_cons, Option.bind_eq_bind, Option.bind_eq_some_iff] at h
      obtain ⟨m', hdigit, hrest⟩ := h
      obtain ⟨digit, hdigit, -⟩ := Option.map_eq_some_iff.mp hdigit
      refine List.forall_mem_cons.mpr ⟨?_, ih m' hrest⟩
      rw [isDigit, hdigit]
      rfl
  unfold fromDecimal at h
  split_ifs at h
  exact hfold s 0 h

/-- The text of a duration is no number, unless it is zero: it has a unit. -/
theorem fromDecimal_of_unsignedParts {s : Bytes} {ns : List Nat}
    (h : unsignedParts fraction s = some ns) : ns = [] ∨ fromDecimal s = none := by
  unfold unsignedParts at h
  split_ifs at h with hzero hempty
  · cases h
    exact .inl rfl
  refine .inr (Option.eq_none_iff_forall_ne_some.mpr fun n hn => ?_)
  unfold parts at h
  rw [if_neg hempty] at h
  split_ifs at h with hnumber hunit
  -- The first byte of the unit is among those of the text.
  obtain ⟨c, hc⟩ := List.exists_mem_of_ne_nil _ hunit
  have hmem : c ∈ s := (List.dropWhile_suffix _).subset
    (leadingFraction_subset _ ((List.takeWhile_prefix _).subset hc))
  have hnot := List.mem_takeWhile_imp hc
  rw [isUnit, isDigit_of_fromDecimal hn c hmem, Bool.not_true, Bool.and_false] at hnot
  cases hnot

theorem atoi_of_signedParts {s : Bytes} {negative : Bool} {ns : List Nat}
    (h : signedParts fraction s = some (negative, ns)) : ns = [] ∨ atoi s = none := by
  cases s with
  | nil => cases h
  | cons c s =>
    rw [signedParts] at h
    rw [atoi]
    by_cases hminus : c = 0x2d
    · rw [if_pos hminus] at h
      obtain ⟨ns', hns, heq⟩ := Option.map_eq_some_iff.mp h
      cases heq
      rw [if_neg (by rw [hminus]; decide), if_pos hminus]
      exact (fromDecimal_of_unsignedParts fraction hns).imp_right (by simp [·])
    · rw [if_neg hminus] at h
      obtain ⟨ns', hns, heq⟩ := Option.map_eq_some_iff.mp h
      cases heq
      have hnumber := fromDecimal_of_unsignedParts fraction hns
      by_cases hplus : c = 0x2b
      · rw [if_pos hplus] at hnumber ⊢
        exact hnumber.imp_right (by simp [·])
      · rw [if_neg hplus] at hnumber ⊢
        rw [if_neg hminus]
        exact hnumber.imp_right (by simp [·])

end UbixVault.Duration
