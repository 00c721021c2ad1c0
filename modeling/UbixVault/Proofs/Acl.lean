/-
What rules allow.

`Allows` walks the rules in order, but its answer does not depend on the order: a
path is allowed if some matching rule grants it and none denies it.  That makes it
possible to say when rules can be left out: what they grant has to be granted or
denied by others, and where they deny, nothing else may be granted.
-/
import UbixVault.Acl

namespace UbixVault

/-! ### What a list of rules allows -/

variable {rules removed kept : List Rule} {path : Bytes} {c : Capability} {r : Rule}

/-- A rule that matches the path denies. -/
def Denies (rules : List Rule) (path : Bytes) : Prop :=
  ∃ r ∈ rules, matchPath r.path path = true ∧ .deny ∈ r.capabilities

/-- A rule that matches the path grants the capability. -/
def Grants (rules : List Rule) (path : Bytes) (c : Capability) : Prop :=
  ∃ r ∈ rules, matchPath r.path path = true ∧ c ∈ r.capabilities

theorem denies_cons :
    Denies (r :: rules) path ↔
      matchPath r.path path = true ∧ .deny ∈ r.capabilities ∨ Denies rules path := by
  simp [Denies]

theorem grants_cons :
    Grants (r :: rules) path c ↔
      matchPath r.path path = true ∧ c ∈ r.capabilities ∨ Grants rules path c := by
  simp [Grants]

theorem allowsFrom_iff (allowed : Bool) :
    allowsFrom path c allowed rules = true ↔
      ¬ Denies rules path ∧ (allowed = true ∨ Grants rules path c) := by
  induction rules generalizing allowed with
  | nil => simp [allowsFrom, Denies, Grants]
  | cons r rest ih =>
    simp only [allowsFrom, hasCapability, List.contains_iff_mem, denies_cons, grants_cons]
    by_cases hmatch : matchPath r.path path = true
    · by_cases hdeny : .deny ∈ r.capabilities
      · simp [hmatch, hdeny]
      · by_cases hc : c ∈ r.capabilities
        · simp [hmatch, hdeny, hc, ih]
        · simp [hmatch, hdeny, hc, ih]
    · simp [hmatch, ih]

/-- **Deny overrides**, in whatever order the rules stand. -/
theorem allows_iff {acl : Acl} :
    acl.allows path c = true ↔ ¬ Denies acl.rules path ∧ Grants acl.rules path c := by
  unfold Acl.allows
  rw [allowsFrom_iff]
  simp

/-- **What the policies of a token allow**: what one grants and none denies. -/
theorem ofPolicies_allows_iff (policies : List Policy) (path : Bytes) (c : Capability) :
    (Acl.ofPolicies policies).allows path c = true ↔
      (∀ p ∈ policies, ¬ Denies p.rules path) ∧ ∃ p ∈ policies, Grants p.rules path c := by
  rw [allows_iff]
  simp only [Acl.ofPolicies, Denies, Grants, List.mem_flatMap]
  grind

/-- Nothing depends on the removed rules as long as there are the others. -/
structure Idle (removed kept : List Rule) : Prop where
  /-- Where a removed rule denies, another denies too or none grants anything. -/
  denies : ∀ path, Denies removed path → Denies kept path ∨ ∀ c, ¬ Grants kept path c
  /-- What a removed rule grants is granted by another, or denied. -/
  grants : ∀ path c, Grants removed path c → Grants kept path c ∨ Denies (removed ++ kept) path

/-- Where no rule was removed, nothing depends on it. -/
theorem Idle.nil : Idle [] kept :=
  ⟨fun _ ⟨_, hr, _⟩ => absurd hr List.not_mem_nil, fun _ _ ⟨_, hr, _⟩ => absurd hr List.not_mem_nil⟩

theorem denies_append : Denies (removed ++ kept) path ↔ Denies removed path ∨ Denies kept path := by
  simp only [Denies, List.mem_append, or_and_right, exists_or]

theorem grants_append :
    Grants (removed ++ kept) path c ↔ Grants removed path c ∨ Grants kept path c := by
  simp only [Grants, List.mem_append, or_and_right, exists_or]

theorem denies_congr (h : ∀ r, r ∈ rules ↔ r ∈ kept) : Denies rules path ↔ Denies kept path := by
  simp only [Denies, h]

theorem grants_congr (h : ∀ r, r ∈ rules ↔ r ∈ kept) : Grants rules path c ↔ Grants kept path c := by
  simp only [Grants, h]

/-- The order of the rules and how often they stand there do not matter. -/
theorem allows_congr (h : ∀ r, r ∈ rules ↔ r ∈ kept) :
    (Acl.mk rules).allows path c = (Acl.mk kept).allows path c := by
  rw [Bool.eq_iff_iff, allows_iff, allows_iff, denies_congr h, grants_congr h]

theorem allows_append_iff :
    (∀ path c, (Acl.mk kept).allows path c = (Acl.mk (removed ++ kept)).allows path c) ↔
      Idle removed kept := by
  have hiff : ∀ path c, (Acl.mk kept).allows path c = (Acl.mk (removed ++ kept)).allows path c ↔
      (¬ Denies kept path ∧ Grants kept path c ↔
        ¬ (Denies removed path ∨ Denies kept path) ∧
          (Grants removed path c ∨ Grants kept path c)) := by
    intro path c
    rw [Bool.eq_iff_iff, allows_iff, allows_iff, denies_append, grants_append]
  simp only [hiff]
  constructor
  · intro h
    constructor
    · intro path hdenies
      by_contra hnot
      push Not at hnot
      obtain ⟨hnone, c, hgrants⟩ := hnot
      exact ((h path c).mp ⟨hnone, hgrants⟩).1 (.inl hdenies)
    · intro path c hgrants
      rw [denies_append]
      by_contra hnot
      push Not at hnot
      obtain ⟨hno, hnone, hnone'⟩ := hnot
      exact hno ((h path c).mpr ⟨by tauto, .inl hgrants⟩).2
  · intro h path c
    constructor
    · rintro ⟨hnone, hgrants⟩
      refine ⟨?_, .inr hgrants⟩
      rintro (hdenies | hdenies)
      · rcases h.denies path hdenies with hkept | hkept
        · exact hnone hkept
        · exact hkept c hgrants
      · exact hnone hdenies
    · rintro ⟨hnone, hgrants⟩
      refine ⟨fun hdenies => hnone (.inr hdenies), ?_⟩
      rcases hgrants with hgrants | hgrants
      · rcases h.grants path c hgrants with hkept | hdenies
        · exact hkept
        · exact absurd (denies_append.mp hdenies) hnone
      · exact hgrants

/-- **When rules can be left out.** -/
theorem allows_eq_iff (h : ∀ r, r ∈ rules ↔ r ∈ removed ∨ r ∈ kept) :
    (∀ path c, (Acl.mk kept).allows path c = (Acl.mk rules).allows path c) ↔
      Idle removed kept := by
  rw [← allows_append_iff]
  have hall : ∀ path c, (Acl.mk rules).allows path c = (Acl.mk (removed ++ kept)).allows path c :=
    fun path c => allows_congr fun r => by rw [h r, List.mem_append]
  simp only [hall]

end UbixVault
