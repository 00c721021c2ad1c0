/-
What placeholders make of a rule.

A path is a sequence of texts and placeholders.  Expansion puts values in the place
of the placeholders as they are, so a value can also supply the star at the end that
makes a rule match by its beginning.
-/
import UbixVault.Acl

namespace UbixVault

variable {resolve : Bytes → Option Bytes} {s : Bytes}

/-! ### The pieces of a path -/

/-- Plain text, or what stands between the braces of a placeholder. -/
inductive Piece
  | text (s : Bytes)
  | hole (raw : Bytes)
  deriving DecidableEq

/-- A path, cut at its placeholders. -/
def pieces (s : Bytes) : List Piece :=
  match hopen : index openBraces s with
  | none => [.text s]
  | some i =>
    let rest := s.drop (i + 2)
    match index closeBraces rest with
    | none => [.text s]
    | some j => .text (s.take i) :: .hole (rest.take j) :: pieces (rest.drop (j + 2))
termination_by s.length
decreasing_by
  have hle : i + 2 ≤ s.length := index_bound hopen
  simp only [List.length_drop]
  omega

namespace Piece

/-- What stands in the path. -/
def source : Piece → Bytes
  | text s => s
  | hole raw => openBraces ++ raw ++ closeBraces

/-- What is put there. -/
def value (resolve : Bytes → Option Bytes) : Piece → Option Bytes
  | text s => some s
  | hole raw => resolve (trimSpace raw)

end Piece

/-- Where a text was found, it stands. -/
theorem index_spec {sep : Bytes} {i : Nat} (h : index sep s = some i) :
    s.take i ++ sep ++ s.drop (i + sep.length) = s := by
  induction s generalizing i with
  | nil =>
    simp only [index] at h
    by_cases hsep : sep = []
    · simp [hsep]
    · simp [hsep] at h
  | cons b rest ih =>
    simp only [index] at h
    by_cases hpfx : sep <+: b :: rest
    · simp only [hpfx, if_true, Option.some.injEq] at h
      obtain ⟨after, hafter⟩ := hpfx
      rw [← h, ← hafter]
      simp
    · simp only [hpfx, if_false, Option.map_eq_some_iff] at h
      obtain ⟨j, hj, rfl⟩ := h
      have heq := ih hj
      rw [show j + 1 + sep.length = j + sep.length + 1 by omega]
      simpa using heq

/-- The pieces are those of the path. -/
theorem pieces_source : (pieces s).flatMap Piece.source = s := by
  fun_induction pieces s with
  | case1 s => simp [Piece.source]
  | case2 s => simp [Piece.source]
  | case3 s i hopen rest j hclose ih =>
    have hs := index_spec hopen
    have hrest := index_spec hclose
    simp only [List.flatMap_cons, ih, Piece.source]
    rw [show closeBraces.length = 2 from rfl] at hrest
    rw [show openBraces.length = 2 from rfl] at hs
    calc s.take i ++ (openBraces ++ rest.take j ++ closeBraces ++ rest.drop (j + 2))
        = s.take i ++ (openBraces ++ rest) := by
          simp only [List.append_assoc] at hrest ⊢
          rw [hrest]
      _ = s := by
          rw [← List.append_assoc]
          exact hs

/-! ### Expansion -/

/-- Every placeholder has a value. -/
def Resolves (resolve : Bytes → Option Bytes) (s : Bytes) : Prop :=
  ∀ p ∈ pieces s, (p.value resolve).isSome

/-- The text with every placeholder replaced by its value. -/
def replaced (resolve : Bytes → Option Bytes) (s : Bytes) : Bytes :=
  (pieces s).flatMap fun p => (p.value resolve).getD []

/-- The two ways to cut a path are one. -/
theorem expandTemplate_eq :
    expandTemplate resolve s = ((pieces s).mapM (Piece.value resolve)).map List.flatten := by
  fun_induction pieces s with
  | case1 s hopen =>
    rw [expandTemplate]
    split
    · simp [Piece.value]
    · next i h => exact absurd (hopen.symm.trans h) (by simp)
  | case2 s i hopen rest hclose =>
    rw [expandTemplate]
    split
    · next h => exact absurd (hopen.symm.trans h) (by simp)
    · next i' h =>
        obtain rfl : i = i' := Option.some.inj (hopen.symm.trans h)
        simp [rest, hclose, Piece.value]
  | case3 s i hopen rest j hclose ih =>
    rw [expandTemplate]
    split
    · next h => exact absurd (hopen.symm.trans h) (by simp)
    · next i' h =>
        obtain rfl : i = i' := Option.some.inj (hopen.symm.trans h)
        simp only [rest] at hclose ih ⊢
        simp only [hclose, ih, List.mapM_cons, Piece.value]
        cases resolve (trimSpace ((s.drop (i + 2)).take j)) with
        | none => rfl
        | some val =>
          cases (pieces ((s.drop (i + 2)).drop (j + 2))).mapM (Piece.value resolve) with
          | none => rfl
          | some vals => simp

/-- Values are all there, or one is missing. -/
private theorem mapM_value (ps : List Piece) :
    (∃ p ∈ ps, p.value resolve = none) ∧ ps.mapM (Piece.value resolve) = none ∨
      (∀ p ∈ ps, (p.value resolve).isSome) ∧
        (ps.mapM (Piece.value resolve)).map List.flatten
          = some (ps.flatMap fun p => (p.value resolve).getD []) := by
  induction ps with
  | nil => exact .inr ⟨by simp, rfl⟩
  | cons p ps ih =>
    cases hp : p.value resolve with
    | none => exact .inl ⟨⟨p, List.mem_cons_self, hp⟩, by simp [hp]⟩
    | some val =>
      rcases ih with ⟨⟨q, hq, hnone⟩, hps⟩ | ⟨hall, hps⟩
      · exact .inl ⟨⟨q, List.mem_cons_of_mem _ hq, hnone⟩, by simp [hp, hps]⟩
      · obtain ⟨vals, hvals, hflat⟩ := Option.map_eq_some_iff.mp hps
        refine .inr ⟨?_, by simp [hp, hvals, hflat]⟩
        intro q hq
        rcases List.mem_cons.mp hq with rfl | hq
        · rw [hp]
          rfl
        · exact hall q hq

theorem expandTemplate_of_resolves (h : Resolves resolve s) :
    expandTemplate resolve s = some (replaced resolve s) := by
  rw [expandTemplate_eq]
  rcases mapM_value (pieces s) with ⟨⟨p, hp, hnone⟩, -⟩ | ⟨-, heq⟩
  · have hsome := h p hp
    rw [hnone] at hsome
    cases hsome
  · exact heq

theorem expandTemplate_of_not_resolves (h : ¬ Resolves resolve s) :
    expandTemplate resolve s = none := by
  rw [expandTemplate_eq]
  rcases mapM_value (pieces s) with ⟨-, hnone⟩ | ⟨hall, -⟩
  · rw [hnone]
    rfl
  · exact absurd hall h

/-- A path without braces is one text. -/
theorem pieces_of_plain (h : containsTemplate s = false) : pieces s = [.text s] := by
  unfold containsTemplate containsText at h
  rw [pieces]
  split
  · rfl
  · next i hopen =>
      rw [hopen] at h
      cases h

/-- **What becomes of a rule**: it is dropped, or its placeholders are replaced. -/
theorem Rule.templated_eq_some_iff {r r' : Rule} :
    r.templated resolve = some r' ↔
      Resolves resolve r.path ∧ r' = { r with path := replaced resolve r.path } := by
  unfold Rule.templated
  by_cases hplain : containsTemplate r.path = true
  · simp only [hplain, if_true]
    by_cases hresolves : Resolves resolve r.path
    · simp [expandTemplate_of_resolves hresolves, hresolves, eq_comm]
    · simp [expandTemplate_of_not_resolves hresolves, hresolves]
  · rw [Bool.not_eq_true] at hplain
    have hpieces := pieces_of_plain hplain
    have hresolves : Resolves resolve r.path := by
      intro p hp
      rw [hpieces, List.mem_singleton] at hp
      rw [hp]
      rfl
    have hreplaced : replaced resolve r.path = r.path := by
      simp [replaced, hpieces, Piece.value]
    simp only [hplain, Bool.false_eq_true, if_false, Option.some.injEq, hresolves, true_and,
      hreplaced]
    exact eq_comm

/-- Placeholders are looked for in every rule or in none, which comes to the same. -/
theorem Policy.templated_rules (p : Policy) :
    (p.templated resolve).rules = p.rules.filterMap (Rule.templated resolve) := by
  unfold Policy.templated
  split_ifs with hany
  · rfl
  · rw [Bool.not_eq_true, List.any_eq_false] at hany
    have hsome : ∀ r ∈ p.rules, r.templated resolve = some r := by
      intro r hr
      simp [Rule.templated, hany r hr]
    rw [List.filterMap_congr hsome, List.filterMap_some]

/-! ### Stars -/

theorem matchPath_of_star {pattern path : Bytes} (h : pattern.getLast? = some star) :
    matchPath pattern path = true ↔ pattern.dropLast <+: path := by
  simp [matchPath, h]

theorem matchPath_of_plain {pattern path : Bytes} (h : pattern.getLast? ≠ some star) :
    matchPath pattern path = true ↔ path = pattern := by
  simp [matchPath, h, eq_comm]

/-- Where the last element of a concatenation comes from. -/
private theorem getLast?_flatMap {α : Type} {f : α → Bytes} {l : List α} {b : Byte} :
    (l.flatMap f).getLast? = some b ↔
      ∃ before x after, l = before ++ x :: after ∧ (f x).getLast? = some b ∧
        ∀ y ∈ after, f y = [] := by
  induction l using List.reverseRecOn with
  | nil => simp
  | append_singleton l x ih =>
    rw [List.flatMap_append, List.flatMap_singleton]
    by_cases hx : f x = []
    · rw [hx, List.append_nil, ih]
      constructor
      · rintro ⟨before, y, after, rfl, hy, hafter⟩
        refine ⟨before, y, after ++ [x], by simp, hy, ?_⟩
        intro z hz
        rcases List.mem_append.mp hz with hz | hz
        · exact hafter z hz
        · rw [List.mem_singleton.mp hz, hx]
      · rintro ⟨before, y, after, heq, hy, hafter⟩
        rcases List.eq_nil_or_concat after with rfl | ⟨after', z, rfl⟩
        · obtain ⟨rfl, hyx⟩ := List.append_inj' heq rfl
          cases hyx
          simp [hx] at hy
        · rw [List.concat_eq_append, ← List.cons_append, ← List.append_assoc] at heq
          obtain ⟨rfl, -⟩ := List.append_inj' heq rfl
          exact ⟨before, y, after', rfl, hy, fun w hw => hafter w (by simp [hw])⟩
    · rw [List.getLast?_append_of_ne_nil _ hx]
      constructor
      · intro h
        exact ⟨l, x, [], rfl, h, by simp⟩
      · rintro ⟨before, y, after, heq, hy, hafter⟩
        rcases List.eq_nil_or_concat after with rfl | ⟨after', z, rfl⟩
        · obtain ⟨-, hyx⟩ := List.append_inj' heq rfl
          cases hyx
          exact hy
        · rw [List.concat_eq_append, ← List.cons_append, ← List.append_assoc] at heq
          obtain ⟨-, hzx⟩ := List.append_inj' heq rfl
          cases hzx
          exact absurd (hafter x (by simp)) hx

/--
A star comes to the end of the path: as the end of a value with nothing after it, or
of a text after which there are only placeholders with empty values.
-/
def StarBrought (resolve : Bytes → Option Bytes) (s : Bytes) : Prop :=
  ∃ before p after, pieces s = before ++ p :: after ∧
    ((p.value resolve).getD []).getLast? = some star ∧
    (∀ q ∈ after, (q.value resolve).getD [] = []) ∧
    ∃ raw, .hole raw ∈ p :: after

/-- A star at the end that is not the path's own was brought there. -/
theorem starBrought_iff (hown : s.getLast? ≠ some star) :
    (replaced resolve s).getLast? = some star ↔ StarBrought resolve s := by
  unfold replaced StarBrought
  rw [getLast?_flatMap]
  constructor
  · rintro ⟨before, p, after, heq, hp, hafter⟩
    refine ⟨before, p, after, heq, hp, hafter, ?_⟩
    -- Without a placeholder from there on, the star would be the path's own.
    by_contra hnone
    push Not at hnone
    refine hown ?_
    have htext : ∀ q ∈ p :: after, (q.value resolve).getD [] = q.source := by
      intro q hq
      cases q with
      | text s => rfl
      | hole raw => exact absurd hq (hnone raw)
    rw [← pieces_source (s := s), getLast?_flatMap]
    refine ⟨before, p, after, heq, ?_, fun q hq => ?_⟩
    · rw [← htext p List.mem_cons_self]
      exact hp
    · rw [← htext q (List.mem_cons_of_mem _ hq)]
      exact hafter q hq
  · rintro ⟨before, p, after, heq, hp, hafter, -⟩
    exact ⟨before, p, after, heq, hp, hafter⟩

/--
**Expansion matches exactly the replaced text**, for a rule whose own path ends in no star,
just when no star is brought to the end.  Values are inserted as they are, so else the rule
matches whatever begins with the text before that star.
-/
theorem templated_matches (p : Policy) (resolve : Bytes → Option Bytes) (r r' : Rule)
    (hr : r ∈ p.rules) (hown : r.path.getLast? ≠ some star)
    (hsurvives : r.templated resolve = some r') :
    r' ∈ (p.templated resolve).rules ∧
      r' = { r with path := replaced resolve r.path } ∧
      ((∀ path, matchPath r'.path path = true ↔ path = replaced resolve r.path) ↔
        ¬ StarBrought resolve r.path) ∧
      (StarBrought resolve r.path →
        ∀ path, matchPath r'.path path = true ↔ (replaced resolve r.path).dropLast <+: path) := by
  have hmem : r' ∈ (p.templated resolve).rules := by
    rw [p.templated_rules]
    exact List.mem_filterMap.mpr ⟨r, hr, hsurvives⟩
  obtain ⟨-, rfl⟩ := Rule.templated_eq_some_iff.mp hsurvives
  have hwidens : StarBrought resolve r.path → ∀ path,
      matchPath (replaced resolve r.path) path = true ↔ (replaced resolve r.path).dropLast <+: path :=
    fun hstar path => matchPath_of_star ((starBrought_iff hown).mpr hstar)
  refine ⟨hmem, rfl, ⟨fun hexact hstar => ?_, fun hplain path => ?_⟩, hwidens⟩
  · -- The text before the star is matched too, and it is shorter.
    have hshort := (hexact _).mp ((hwidens hstar _).mpr List.prefix_rfl)
    have hne : replaced resolve r.path ≠ [] := by
      intro hnil
      have hlast := (starBrought_iff hown).mpr hstar
      rw [hnil] at hlast
      cases hlast
    have hlt := List.length_pos_iff.mpr hne
    have hlength := congrArg List.length hshort
    rw [List.length_dropLast] at hlength
    omega
  · exact matchPath_of_plain fun h => hplain ((starBrought_iff hown).mp h)

/-- A rule for the team of an entity. -/
def teamRule : Rule := ⟨str "secret/\x7b\x7bidentity.entity.metadata.team\x7d\x7d", [.read]⟩

/-- One value, for the team. -/
def team (value : String) (key : Bytes) : Option Bytes :=
  if key = str "identity.entity.metadata.team" then some (str value) else none

/-- The blue team reads its own secret, and no other. -/
theorem templated_matches_blue :
    teamRule.templated (team "blue") = some ⟨str "secret/blue", [.read]⟩ ∧
      ∀ path, matchPath (str "secret/blue") path = true ↔ path = str "secret/blue" := by
  have hown : teamRule.path.getLast? ≠ some star := by decide +kernel
  have hsurvives : teamRule.templated (team "blue") = some ⟨str "secret/blue", [.read]⟩ := by
    decide +kernel
  have hreplaced : replaced (team "blue") teamRule.path = str "secret/blue" := by decide +kernel
  obtain ⟨-, -, hexact, -⟩ := templated_matches ⟨str "team", [teamRule]⟩ (team "blue") teamRule _
    (by simp) hown hsurvives
  refine ⟨hsurvives, ?_⟩
  rw [hreplaced] at hexact
  refine hexact.mpr fun hstar => ?_
  have hlast := (starBrought_iff hown).mpr hstar
  rw [hreplaced] at hlast
  exact absurd hlast (by decide +kernel)

end UbixVault
