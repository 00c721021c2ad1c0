/-
All backends list the same.

A listing is determined by two facts: it is strictly sorted, and it has the right
members.  For the cursor this needs that the keys with a prefix stand together in
byte order, for the range scan that the two bounds enclose just these keys.
-/
import UbixVault.Listing
import UbixVault.Proofs.Storage

namespace UbixVault

variable {pfx key k k' : Key} {s : Store}

/-! ### Byte order and prefixes -/

theorem cons_lt_cons {b c : Byte} {l l' : Key} : b :: l < c :: l' ↔ b < c ∨ b = c ∧ l < l' := by
  constructor
  · intro h
    cases h with
    | rel hlt => exact .inl hlt
    | cons hlt => exact .inr ⟨rfl, hlt⟩
  · rintro (hlt | ⟨rfl, hlt⟩)
    · exact .rel hlt
    · exact .cons hlt

theorem cons_le_cons {b c : Byte} {l l' : Key} : b :: l ≤ c :: l' ↔ b < c ∨ b = c ∧ l ≤ l' := by
  rw [le_iff_lt_or_eq, le_iff_lt_or_eq, cons_lt_cons, List.cons.injEq]
  tauto

theorem nil_le (l : Key) : [] ≤ l := by
  cases l with
  | nil => exact le_refl _
  | cons b l => exact le_of_lt .nil

theorem not_lt_nil (l : Key) : ¬ l < [] := not_lt_of_ge (nil_le l)

theorem le_of_prefix (h : pfx <+: k) : pfx ≤ k := by
  obtain ⟨t, rfl⟩ := h
  induction pfx with
  | nil => exact nil_le _
  | cons b rest ih => exact cons_le_cons.mpr (.inr ⟨rfl, ih⟩)

/-- What stands between a prefix and a key with that prefix has the prefix too. -/
theorem prefix_of_le_of_le (hle : pfx ≤ k) (hle' : k ≤ k') (h : pfx <+: k') : pfx <+: k := by
  induction pfx generalizing k k' with
  | nil => exact List.nil_prefix
  | cons b rest ih =>
    obtain ⟨t, rfl⟩ := h
    cases k with
    | nil => exact absurd hle (by simp)
    | cons c k =>
      rw [List.cons_append, cons_le_cons] at hle'
      rw [cons_le_cons] at hle
      rcases hle with hlt | ⟨rfl, hle⟩
      · rcases hle' with hlt' | ⟨rfl, -⟩
        · exact absurd (lt_trans hlt hlt') (lt_irrefl _)
        · exact absurd hlt (lt_irrefl _)
      · have htail : k ≤ rest ++ t := by
          rcases hle' with hlt' | ⟨-, hle'⟩
          · exact absurd hlt' (lt_irrefl _)
          · exact hle'
        exact (List.cons_prefix_cons).mpr ⟨rfl, ih hle htail (List.prefix_append _ _)⟩

theorem lt_succ_byte {b c : Byte} (hb : b ≠ 0xff) : c < b + 1 ↔ c ≤ b := by
  bv_omega

/-- **The two bounds enclose the keys with the prefix.** -/
theorem prefix_iff_between {q : Bytes} {b : Byte} (hb : b ≠ 0xff) :
    q ++ [b] <+: k ↔ q ++ [b] ≤ k ∧ k < q ++ [b + 1] := by
  induction q generalizing k with
  | nil =>
    cases k with
    | nil => simp
    | cons c t =>
      simp only [List.nil_append, List.cons_prefix_cons, List.nil_prefix, and_true,
        cons_le_cons, cons_lt_cons, nil_le, not_lt_nil, and_false,
        or_false, lt_succ_byte hb]
      constructor
      · rintro rfl
        exact ⟨.inr rfl, le_refl _⟩
      · rintro ⟨hlt | rfl, hle⟩
        · exact absurd (lt_of_lt_of_le hlt hle) (lt_irrefl _)
        · rfl
  | cons a q ih =>
    cases k with
    | nil => simp
    | cons c t =>
      simp only [List.cons_append, List.cons_prefix_cons, cons_le_cons,
        cons_lt_cons, ih]
      constructor
      · rintro ⟨rfl, hle, hlt⟩
        exact ⟨.inr ⟨rfl, hle⟩, .inr ⟨rfl, hlt⟩⟩
      · rintro ⟨hlt | ⟨rfl, hle⟩, hlt' | ⟨heq, hlt'⟩⟩
        · exact absurd (lt_trans hlt hlt') (lt_irrefl _)
        · rw [heq] at hlt
          exact absurd hlt (lt_irrefl _)
        · exact absurd hlt' (lt_irrefl _)
        · exact ⟨rfl, hle, hlt'⟩

/-! ### Sorting and removing repetitions -/

variable {l : List Key} {x : Key}

theorem mem_sortStrings : x ∈ sortStrings l ↔ x ∈ l := (List.perm_insertionSort _ l).mem_iff

theorem sorted_sortStrings (l : List Key) : (sortStrings l).Pairwise (· ≤ ·) :=
  List.pairwise_insertionSort _ l

/-- The array of `dedupe` before turn `i`: what was kept, and behind it what was there. -/
structure Squeezed (l : List Key) (i m : Nat) (s : List Key) : Prop where
  length : s.length = l.length
  behind : m ≤ i
  rest : ∀ j, m ≤ j → s[j]? = l[j]?
  previous : 0 < i → s[i - 1]? = l[i - 1]?
  sorted : (s.take m).Pairwise (· < ·)
  mem : ∀ x, x ∈ s.take m ↔ x ∈ l.take i

theorem Squeezed.skip {i m : Nat} {s : List Key} (h : Squeezed l i m s) (hi : i < l.length)
    (hpos : 0 < i) (heq : s[i]? = s[i - 1]?) : Squeezed l (i + 1) m s := by
  refine ⟨h.length, Nat.le_succ_of_le h.behind, h.rest, fun _ => h.rest i h.behind, h.sorted, ?_⟩
  intro x
  rw [h.rest i h.behind, h.previous hpos] at heq
  rw [h.mem, List.take_add_one, List.mem_append]
  refine ⟨.inl, ?_⟩
  rintro (hx | hx)
  · exact hx
  · rw [heq] at hx
    have hlt : i - 1 < l.length := by omega
    rw [List.getElem?_eq_getElem hlt] at hx
    rw [Option.mem_toList.mp hx |> Option.some.inj |>.symm]
    exact List.mem_take_iff_getElem.mpr ⟨i - 1, by omega, rfl⟩

theorem Squeezed.keep {i m : Nat} {s : List Key} (hl : l.Pairwise (· ≤ ·)) (h : Squeezed l i m s)
    (hi : i < l.length) (hne : ¬ (0 < i ∧ s[i]? = s[i - 1]?)) :
    Squeezed l (i + 1) (m + 1) (s.set m (s.getD i [])) := by
  have hv : s.getD i [] = l[i] := by
    rw [List.getD_eq_getElem?_getD, h.rest i h.behind, List.getElem?_eq_getElem hi]
    rfl
  have hm : m < s.length := by
    have := h.behind
    rw [h.length]
    omega
  have htake : (s.set m l[i]).take (m + 1) = s.take m ++ [l[i]] := by
    rw [List.take_add_one, List.take_set_of_le (le_refl m), List.getElem?_set_self hm]
    rfl
  rw [hv]
  refine ⟨by rw [List.length_set, h.length], Nat.succ_le_succ h.behind, ?_, ?_, ?_, ?_⟩
  · intro j hj
    rw [List.getElem?_set_ne (by omega), h.rest j (by omega)]
  · intro _
    rcases Nat.lt_or_ge m i with hlt | hge
    · rw [Nat.add_sub_cancel, List.getElem?_set_ne (by omega), h.rest i h.behind]
    · obtain rfl : m = i := Nat.le_antisymm h.behind hge
      rw [Nat.add_sub_cancel, List.getElem?_set_self hm, List.getElem?_eq_getElem hi]
  · -- Whatever was kept is at most the text before, and that differs from this one.
    rw [htake, List.pairwise_append]
    refine ⟨h.sorted, List.pairwise_singleton _ _, ?_⟩
    intro a ha b hb
    rw [List.mem_singleton.mp hb]
    obtain ⟨j, hj, rfl⟩ := List.mem_take_iff_getElem.mp ((h.mem a).mp ha)
    have hj' : j < i := (Nat.lt_min.mp hj).1
    have hprev : i - 1 < l.length := by omega
    have hle : l[j] ≤ l[i - 1] := by
      rcases Nat.lt_or_ge j (i - 1) with hlt | hge
      · exact List.pairwise_iff_getElem.mp hl j (i - 1) (by omega) hprev hlt
      · have hji : j = i - 1 := by omega
        subst hji
        exact le_refl _
    refine lt_of_le_of_lt hle (lt_of_le_of_ne ?_ ?_)
    · exact List.pairwise_iff_getElem.mp hl (i - 1) i hprev hi (by omega)
    · intro heq
      refine hne ⟨by omega, ?_⟩
      rw [h.rest i h.behind, h.previous (by omega), List.getElem?_eq_getElem hi,
        List.getElem?_eq_getElem hprev, heq]
  · intro x
    rw [htake, List.mem_append, h.mem, List.take_add_one, List.mem_append,
      List.getElem?_eq_getElem hi]
    rfl

theorem dedupeFrom_spec (hl : l.Pairwise (· ≤ ·)) (n : Nat) {i m : Nat} {s : List Key}
    (hn : i + n = l.length) (h : Squeezed l i m s) :
    (dedupeFrom n i m s).Pairwise (· < ·) ∧ ∀ x, x ∈ dedupeFrom n i m s ↔ x ∈ l := by
  induction n generalizing i m s with
  | zero =>
    refine ⟨h.sorted, fun x => ?_⟩
    have hall : l.take i = l := List.take_of_length_le (by omega)
    rw [dedupeFrom, h.mem, hall]
  | succ n ih =>
    unfold dedupeFrom
    split_ifs with heq
    · exact ih (by omega) (h.skip (by omega) heq.1 heq.2)
    · exact ih (by omega) (h.keep hl (by omega) heq)

/-- **Removing repetitions in place** leaves every text of a sorted list once. -/
theorem dedupe_spec (hl : l.Pairwise (· ≤ ·)) :
    (dedupe l).Pairwise (· < ·) ∧ ∀ x, x ∈ dedupe l ↔ x ∈ l := by
  refine dedupeFrom_spec hl l.length (Nat.zero_add _) ⟨rfl, le_refl 0, fun _ _ => rfl, ?_, ?_, ?_⟩
  · intro h
    exact absurd h (lt_irrefl 0)
  · exact List.Pairwise.nil
  · intro x
    exact Iff.rfl

/-! ### What the scans find -/

theorem mem_kvScan {ks out : List Key} (hks : ks.Pairwise (· ≤ ·)) (hpfx : ∀ k ∈ ks, pfx ≤ k) :
    x ∈ kvScan pfx ks out ↔ x ∈ out ∨ ∃ k ∈ ks, childUnder pfx k = some x := by
  induction ks generalizing out with
  | nil => simp [kvScan]
  | cons k ks ih =>
    obtain ⟨hk, hks⟩ := List.pairwise_cons.mp hks
    have hle : pfx ≤ k := hpfx k List.mem_cons_self
    have htail : ∀ out, x ∈ kvScan pfx ks out ↔ x ∈ out ∨ ∃ k ∈ ks, childUnder pfx k = some x :=
      fun out => ih hks fun k' hk' => hpfx k' (List.mem_cons_of_mem _ hk')
    unfold kvScan
    by_cases hpfx : pfx <+: k
    · rw [if_neg (not_not.mpr hpfx)]
      cases hchild : childUnder pfx k with
      | none =>
        dsimp only
        rw [htail]
        simp [hchild]
      | some child =>
        dsimp only
        split_ifs with hlast
        · have hmem : child ∈ out := List.mem_of_getLast? hlast
          rw [htail]
          simp only [List.exists_mem_cons_iff, hchild, Option.some.injEq]
          constructor
          · rintro (hx | hx)
            · exact .inl hx
            · exact .inr (.inr hx)
          · rintro (hx | rfl | hx)
            · exact .inl hx
            · exact .inl hmem
            · exact .inr hx
        · rw [htail]
          simp only [List.mem_append, List.mem_singleton, List.exists_mem_cons_iff, hchild,
            Option.some.injEq, or_assoc, eq_comm]
    · -- No later key has the prefix, since it would enclose this one.
      rw [if_pos hpfx]
      refine ⟨.inl, ?_⟩
      rintro (hx | ⟨k', hk', hchild⟩)
      · exact hx
      · have hpfx' : pfx <+: k' := by
          by_contra hnot
          simp [childUnder, hnot] at hchild
        rcases List.mem_cons.mp hk' with rfl | hk'
        · exact absurd hpfx' hpfx
        · exact absurd (prefix_of_le_of_le hle (hk k' hk') hpfx') hpfx

theorem mem_collectChildren {rows children : List Key} :
    x ∈ collectChildren pfx rows children ↔ x ∈ children ∨ ∃ k ∈ rows, childUnder pfx k = some x := by
  induction rows generalizing children with
  | nil => simp [collectChildren]
  | cons k rows ih =>
    unfold collectChildren
    cases hchild : childUnder pfx k with
    | none =>
      dsimp only
      rw [ih]
      simp [hchild]
    | some child =>
      dsimp only
      split_ifs with hmem
      · rw [ih]
        simp only [List.exists_mem_cons_iff, hchild, Option.some.injEq]
        constructor
        · rintro (hx | hx)
          · exact .inl hx
          · exact .inr (.inr hx)
        · rintro (hx | rfl | hx)
          · exact .inl hx
          · exact .inl hmem
          · exact .inr hx
      · rw [ih]
        simp only [List.mem_append, List.mem_singleton, List.exists_mem_cons_iff, hchild,
          Option.some.injEq, or_assoc, eq_comm]

theorem nodup_collectChildren {rows children : List Key} (h : children.Nodup) :
    (collectChildren pfx rows children).Nodup := by
  induction rows generalizing children with
  | nil => exact h
  | cons k rows ih =>
    unfold collectChildren
    cases childUnder pfx k with
    | none => exact ih h
    | some child =>
      dsimp only
      split_ifs with hmem
      · exact ih h
      · exact ih (List.nodup_append.mpr ⟨h, List.nodup_singleton _, by
          intro a ha b hb
          rw [List.mem_singleton.mp hb]
          rintro rfl
          exact hmem ha⟩)

/-! ### Listings -/

theorem Store.sorted_list (s : Store) (pfx : Key) : (s.list pfx).Pairwise (· < ·) :=
  Finset.pairwise_inOrder _

/-- A strictly sorted list with the right members is the listing. -/
theorem Store.eq_list (hsorted : l.Pairwise (· < ·))
    (hmem : ∀ x, x ∈ l ↔ ∃ key ∈ s, childUnder pfx key = some x) : l = s.list pfx :=
  hsorted.eq_of_mem_iff (s.sorted_list pfx) fun x => by rw [hmem, Store.mem_list]

/-- `Seek` skips the keys below the prefix and no others. -/
theorem mem_seek {ks : List Key} (hks : ks.Pairwise (· ≤ ·)) :
    k ∈ ks.dropWhile (· < pfx) ↔ k ∈ ks ∧ pfx ≤ k := by
  induction ks with
  | nil => simp
  | cons a ks ih =>
    obtain ⟨ha, hks⟩ := List.pairwise_cons.mp hks
    by_cases hlt : a < pfx
    · simp only [List.dropWhile_cons, hlt, decide_true, if_true, ih hks, List.mem_cons]
      refine and_congr_left fun hle => ?_
      constructor
      · exact .inr
      · rintro (rfl | hk)
        · exact absurd hle (not_le.mpr hlt)
        · exact hk
    · simp only [List.dropWhile_cons, hlt, decide_false, Bool.false_eq_true, if_false]
      refine ⟨fun hk => ⟨hk, ?_⟩, And.left⟩
      rcases List.mem_cons.mp hk with rfl | hk
      · exact not_lt.mp hlt
      · exact le_trans (not_lt.mp hlt) (ha k hk)

theorem sorted_keys (s : Store) : (s.keys.inOrder).Pairwise (· ≤ ·) :=
  (Finset.pairwise_inOrder _).imp le_of_lt

theorem kvList_eq (s : Store) (pfx : Key) : kvList s pfx = s.list pfx := by
  obtain ⟨hsorted, hmem⟩ := dedupe_spec
    (sorted_sortStrings (kvScan pfx (s.keys.inOrder.dropWhile (· < pfx)) []))
  unfold kvList
  refine Store.eq_list hsorted fun x => ?_
  have hkeys := sorted_keys s
  rw [hmem, mem_sortStrings, mem_kvScan (hkeys.sublist (List.dropWhile_sublist _))
    fun k hk => ((mem_seek hkeys).mp hk).2]
  simp only [List.not_mem_nil, false_or, mem_seek hkeys, Finset.mem_inOrder, Finmap.mem_keys]
  constructor
  · rintro ⟨k, ⟨hk, -⟩, hchild⟩
    exact ⟨k, hk, hchild⟩
  · rintro ⟨k, hk, hchild⟩
    have hpfx : pfx <+: k := by
      by_contra hnot
      simp [childUnder, hnot] at hchild
    exact ⟨k, ⟨hk, le_of_prefix hpfx⟩, hchild⟩

/-- The query selects the keys with the prefix. -/
theorem selected_iff (hpfx : validPrefix pfx = true) : selected pfx k = true ↔ pfx <+: k := by
  unfold selected
  split_ifs with hnil
  · simp [hnil]
  · have hlast : pfx.getLast? = some slash := by
      simp only [validPrefix, Bool.or_eq_true, beq_iff_eq, hnil, false_or, Bool.and_eq_true] at hpfx
      exact hpfx.1
    obtain ⟨q, rfl⟩ : ∃ q, pfx = q ++ [slash] := List.getLast?_eq_some_iff.mp hlast
    have hsucc : prefixSuccessor (q ++ [slash]) = some (q ++ [slash + 1]) := by
      simp [prefixSuccessor, successorOfReversed, slash]
    rw [hsucc, prefix_iff_between (by decide)]
    simp

theorem mysqlList_eq (hpfx : validPrefix pfx = true) {rows : List Key} (hrows : Rows s pfx rows) :
    mysqlList pfx rows = s.list pfx := by
  refine Store.eq_list ?_ fun x => ?_
  · have hnodup : (sortStrings (collectChildren pfx rows [])).Nodup :=
      (List.perm_insertionSort _ _).nodup_iff.mpr (nodup_collectChildren List.nodup_nil)
    exact (sorted_sortStrings _).imp₂ (fun _ _ hle hne => lt_of_le_of_ne hle hne) hnodup
  · unfold mysqlList
    rw [mem_sortStrings, mem_collectChildren]
    simp only [List.not_mem_nil, false_or, hrows.mem_iff, List.mem_filter, Finset.mem_inOrder,
      Finmap.mem_keys, selected_iff hpfx]
    constructor
    · rintro ⟨k, ⟨hk, -⟩, hchild⟩
      exact ⟨k, hk, hchild⟩
    · rintro ⟨k, hk, hchild⟩
      refine ⟨k, ⟨hk, ?_⟩, hchild⟩
      by_contra hnot
      simp [childUnder, hnot] at hchild

theorem takeWhile_segment {seg t : Bytes} (h : slash ∉ seg) :
    (seg ++ slash :: t).takeWhile (· ≠ slash) = seg := by
  have hseg : ∀ b ∈ seg, decide (b ≠ slash) = true := by
    intro b hb
    simpa using fun heq : b = slash => h (heq ▸ hb)
  rw [List.takeWhile_append_of_pos hseg]
  simp

/-- A child is a key below the prefix, or a subtree with a slash. -/
theorem childUnder_eq_some_iff {child : Key} :
    childUnder pfx key = some child ↔
      (child ≠ [] ∧ slash ∉ child ∧ key = pfx ++ child) ∨
        ∃ seg, slash ∉ seg ∧ child = seg ++ [slash] ∧ pfx ++ child <+: key := by
  unfold childUnder
  by_cases hpfx : pfx <+: key
  · obtain ⟨rest, rfl⟩ := hpfx
    simp only [List.prefix_append, if_true, List.drop_left, List.append_cancel_left_eq,
      List.prefix_append_right_inj]
    by_cases hnil : rest = []
    · subst hnil
      simp only [if_true, List.prefix_nil]
      constructor
      · intro h
        cases h
      · rintro (⟨hne, -, rfl⟩ | ⟨seg, -, rfl, hseg⟩)
        · exact absurd rfl hne
        · simp at hseg
    · rw [if_neg hnil]
      by_cases hslash : slash ∈ rest
      · rw [if_pos hslash, Option.some.injEq]
        constructor
        · rintro rfl
          obtain ⟨seg, t, rfl, hno⟩ := List.eq_append_cons_of_mem hslash
          rw [takeWhile_segment hno]
          exact .inr ⟨seg, hno, rfl, t, by simp⟩
        · rintro (⟨-, hno, rfl⟩ | ⟨seg, hno, rfl, t, rfl⟩)
          · exact absurd hslash hno
          · rw [List.append_assoc, List.singleton_append, takeWhile_segment hno]
      · rw [if_neg hslash, Option.some.injEq]
        constructor
        · rintro rfl
          exact .inl ⟨hnil, hslash, rfl⟩
        · rintro (⟨-, -, rfl⟩ | ⟨seg, -, rfl, t, rfl⟩)
          · rfl
          · simp at hslash
  · rw [if_neg hpfx]
    constructor
    · intro h
      cases h
    · rintro (⟨-, -, rfl⟩ | ⟨seg, -, rfl, hseg⟩)
      · exact absurd (List.prefix_append _ _) hpfx
      · exact absurd ((List.prefix_append _ _).trans hseg) hpfx

/-- Below a prefix, a child without a slash stands for one key. -/
theorem childUnder_leaf_iff {child : Key} (h : childUnder pfx key = some child)
    (hlast : child.getLast? ≠ some slash)
    (key' : Key) : childUnder pfx key' = some child ↔ key' = pfx ++ child := by
  rw [childUnder_eq_some_iff] at h ⊢
  rcases h with ⟨hne, hslash, -⟩ | ⟨seg, -, rfl, -⟩
  · constructor
    · rintro (⟨-, -, rfl⟩ | ⟨seg, -, rfl, -⟩)
      · rfl
      · simp at hslash
    · rintro rfl
      exact .inl ⟨hne, hslash, rfl⟩
  · simp at hlast

/-- A child with a slash stands for all that is below it. -/
theorem childUnder_directory_iff {child : Key} (h : childUnder pfx key = some child)
    (hlast : child.getLast? = some slash) (key' : Key) :
    childUnder pfx key' = some child ↔ pfx ++ child <+: key' := by
  rw [childUnder_eq_some_iff] at h ⊢
  rcases h with ⟨-, hslash, -⟩ | ⟨seg, hseg, rfl, -⟩
  · exact absurd (List.mem_of_getLast? hlast) hslash
  · constructor
    · rintro (⟨-, hslash, -⟩ | ⟨-, -, -, hpfx⟩)
      · simp at hslash
      · exact hpfx
    · intro hpfx
      exact .inr ⟨seg, hseg, rfl, hpfx⟩

/--
**Listing agrees across backends.**  The cursor scan and the range scan, in whatever
order its rows come, return what the in-memory backend returns: the immediate
children, strictly sorted, with a slash exactly for subtrees.
-/
theorem listings_agree (s : Store) (pfx : Key) (hpfx : validPrefix pfx = true) :
    kvList s pfx = s.list pfx ∧ (∀ rows, Rows s pfx rows → mysqlList pfx rows = s.list pfx) ∧
      (s.list pfx).Pairwise (· < ·) ∧
      ∀ child, child ∈ s.list pfx ↔
        (child ≠ [] ∧ slash ∉ child ∧ pfx ++ child ∈ s) ∨
          ∃ seg, slash ∉ seg ∧ child = seg ++ [slash] ∧ ∃ key ∈ s, pfx ++ child <+: key := by
  refine ⟨kvList_eq s pfx, fun rows hrows => mysqlList_eq hpfx hrows, s.sorted_list pfx, ?_⟩
  intro child
  simp only [Store.mem_list, childUnder_eq_some_iff]
  constructor
  · rintro ⟨key, hkey, ⟨hne, hno, rfl⟩ | ⟨seg, hno, rfl, hpfx⟩⟩
    · exact .inl ⟨hne, hno, hkey⟩
    · exact .inr ⟨seg, hno, rfl, key, hkey, hpfx⟩
  · rintro (⟨hne, hno, hkey⟩ | ⟨seg, hno, rfl, key, hkey, hpfx⟩)
    · exact ⟨_, hkey, .inl ⟨hne, hno, rfl⟩⟩
    · exact ⟨key, hkey, .inr ⟨seg, hno, rfl, hpfx⟩⟩

/-- A leaf and a subtree of the same name. -/
def sameName : Store := ((∅ : Store).insert (str "b/c") []).insert (str "b") []

theorem mem_sameName : key ∈ sameName ↔ key = str "b" ∨ key = str "b/c" := by
  simp [sameName, Finmap.notMem_empty]

/-- The two are told apart by the slash, also if the rows come in an odd order. -/
theorem listings_agree_same_name :
    kvList sameName [] = [str "b", str "b/"] ∧
      mysqlList [] [str "b/c", str "b"] = [str "b", str "b/"] := by
  have hleaf : childUnder [] (str "b") = some (str "b") := by decide +kernel
  have htree : childUnder [] (str "b/c") = some (str "b/") := by decide +kernel
  have hlist : [str "b", str "b/"] = sameName.list [] := by
    refine Store.eq_list (by decide +kernel) fun x => ?_
    simp [mem_sameName, hleaf, htree, eq_comm]
  have hrows : Rows sameName [] [str "b/c", str "b"] := by
    refine (List.perm_ext_iff_of_nodup (by decide +kernel) ((Finset.nodup_inOrder _).filter _)).mpr
      fun x => ?_
    simp [selected, Finmap.mem_keys, mem_sameName, or_comm]
  obtain ⟨hkv, hmysql, -⟩ := listings_agree sameName [] rfl
  rw [hkv, hmysql _ hrows, ← hlist]
  exact ⟨rfl, rfl⟩

end UbixVault
