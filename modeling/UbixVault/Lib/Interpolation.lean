/-
Interpolation at zero, and counting the polynomials through given points.

Two general facts about polynomials over a field carry a threshold scheme.

  * A polynomial of degree below `n` is determined by its values at `n` distinct
    nodes, and its value at zero is an explicit sum over those nodes.  That is
    what makes enough shares recover a secret.
  * Coefficient vectors without a constant term can be chosen to hit any values
    at fewer nonzero nodes than they have entries, and all value vectors are hit
    equally often.  That is what makes too few shares say nothing.

The second is stated through the additive map from coefficients to values: all
fibres of a surjective additive map have one size, so it is enough to show that
the map is onto, which interpolation does.
-/
import Mathlib

namespace Interpolation

open Polynomial Finset

variable {K : Type*} [Field K]

/-! ### The value at zero -/

/-- The value at zero of the polynomial of least degree through the points `(v i, r i)`. -/
def atZero {n : Nat} (v r : Fin n → K) : K :=
  ∑ i, r i * ∏ j ∈ univ.erase i, ((v i - v j)⁻¹ * (0 - v j))

theorem atZero_eq_eval_interpolate {n : Nat} (v r : Fin n → K) :
    atZero v r = (Lagrange.interpolate univ v r).eval 0 := by
  simp only [atZero, Lagrange.interpolate_apply, eval_finsetSum, eval_mul, eval_C,
    Lagrange.basis, eval_prod, Lagrange.basisDivisor, eval_sub, eval_X]

/-- **Enough points recover the value at zero.** -/
theorem atZero_eval {n : Nat} {v : Fin n → K} (hv : Function.Injective v) {f : K[X]}
    (hf : f.degree < n) : atZero v (fun i => f.eval (v i)) = f.eval 0 := by
  have hcard : f.degree < #(univ : Finset (Fin n)) := by simpa using hf
  rw [atZero_eq_eval_interpolate, ← Lagrange.eq_interpolate hv.injOn hcard]

/--
One point too few is not enough: interpolating a polynomial of degree `n` with
leading coefficient one at `n` nodes misses its value at zero by the product of
the nodes.
-/
theorem atZero_eval_monic {n : Nat} {v : Fin n → K} (hv : Function.Injective v) {f : K[X]}
    (hdeg : f.degree = n) (hlead : f.leadingCoeff = 1) :
    atZero v (fun i => f.eval (v i)) = f.eval 0 - ∏ i, (0 - v i) := by
  have hnodal : (Lagrange.nodal univ v).degree = (n : WithBot ℕ) := by
    rw [Lagrange.degree_nodal]; simp
  -- Subtracting the nodal polynomial cancels the leading term and no value at a node.
  have hlt : (f - Lagrange.nodal univ v).degree < n := by
    have hne : f ≠ 0 := by
      rintro rfl
      simp at hlead
    have := degree_sub_lt_left (hdeg.trans hnodal.symm) hne
      (by rw [hlead, Lagrange.nodal_monic.leadingCoeff])
    rwa [hdeg] at this
  have hval : ∀ i, (f - Lagrange.nodal univ v).eval (v i) = f.eval (v i) := by
    intro i
    rw [eval_sub, Lagrange.eval_nodal_at_node (mem_univ i), sub_zero]
  have h := atZero_eval hv hlt
  simp only [hval, eval_sub, Lagrange.eval_nodal] at h
  exact h

/-! ### Coefficient vectors without a constant term -/

/-- The values at the nodes `xs` of the polynomial `∑ cᵢ x^(i+1)`, additively in `c`. -/
def tailValues {d m : Nat} (xs : Fin m → K) : (Fin d → K) →+ (Fin m → K) where
  toFun c := fun j => ∑ i, c i * xs j ^ (i.val + 1)
  map_zero' := by funext j; simp
  map_add' c c' := by
    funext j
    simp [add_mul, sum_add_distrib]

theorem tailValues_apply {d m : Nat} (xs : Fin m → K) (c : Fin d → K) (j : Fin m) :
    tailValues xs c j = ∑ i, c i * xs j ^ (i.val + 1) := rfl

/-- A polynomial of degree below `d`, evaluated through its first `d` coefficients. -/
theorem eval_eq_sum_fin {d : Nat} {g : K[X]} (hg : g.degree < d) (x : K) :
    g.eval x = ∑ i : Fin d, g.coeff i * x ^ i.val := by
  rw [← Finset.sum_range (fun i => g.coeff i * x ^ i)]
  rcases eq_or_ne g 0 with rfl | hne
  · simp
  · exact eval_eq_sum_range' ((natDegree_lt_iff_degree_lt hne).mpr hg) x

/-- Any values at no more nonzero nodes than coefficients are hit. -/
theorem tailValues_surjective {d m : Nat} {xs : Fin m → K} (hinj : Function.Injective xs)
    (hne : ∀ j, xs j ≠ 0) (hmd : m ≤ d) :
    Function.Surjective (tailValues (d := d) xs) := by
  intro y
  -- Interpolate the values divided by the node; multiplying back by `x` shifts the degrees.
  let g : K[X] := Lagrange.interpolate univ xs (fun j => y j / xs j)
  have hdeg : g.degree < d := by
    have h : g.degree < #(univ : Finset (Fin m)) := Lagrange.degree_interpolate_lt _ hinj.injOn
    have hm : #(univ : Finset (Fin m)) = m := by simp
    rw [hm] at h
    exact lt_of_lt_of_le h (by exact_mod_cast hmd)
  refine ⟨fun i => g.coeff i, ?_⟩
  funext j
  have hg : g.eval (xs j) = y j / xs j := Lagrange.eval_interpolate_at_node _ hinj.injOn (mem_univ j)
  calc tailValues xs (fun i : Fin d => g.coeff i) j
      = (∑ i : Fin d, g.coeff i * xs j ^ i.val) * xs j := by
        rw [tailValues_apply, sum_mul]
        exact sum_congr rfl fun i _ => by ring
    _ = y j / xs j * xs j := by rw [← eval_eq_sum_fin hdeg, hg]
    _ = y j := div_mul_cancel₀ _ (hne j)

/-- With as many nodes as coefficients the values determine the coefficients. -/
theorem tailValues_injective {d : Nat} {xs : Fin d → K} (hinj : Function.Injective xs)
    (hne : ∀ j, xs j ≠ 0) [Finite K] : Function.Injective (tailValues (d := d) xs) :=
  Finite.injective_iff_surjective.mpr (tailValues_surjective hinj hne le_rfl)

/-! ### Counting -/

section Count

variable [Fintype K] [DecidableEq K]

/-- **Every value vector at few nodes is hit by equally many coefficient vectors.** -/
theorem card_tailValues_eq {d m : Nat} {xs : Fin m → K} (hinj : Function.Injective xs)
    (hne : ∀ j, xs j ≠ 0) (hmd : m ≤ d) (y y' : Fin m → K) :
    #{c : Fin d → K | tailValues xs c = y} = #{c : Fin d → K | tailValues xs c = y'} := by
  have hsurj := tailValues_surjective (d := d) hinj hne hmd
  exact AddMonoidHom.card_fiber_eq_of_mem_range (tailValues xs) (hsurj y) (hsurj y')

/-- With as many nodes as coefficients each value vector is hit exactly once. -/
theorem card_tailValues_eq_one {d : Nat} {xs : Fin d → K} (hinj : Function.Injective xs)
    (hne : ∀ j, xs j ≠ 0) (y : Fin d → K) :
    #{c : Fin d → K | tailValues xs c = y} = 1 := by
  obtain ⟨c, hc⟩ := tailValues_surjective (d := d) hinj hne le_rfl y
  refine card_eq_one.mpr ⟨c, ?_⟩
  ext c'
  simp only [mem_filter, mem_univ, true_and, mem_singleton]
  constructor
  · intro hc'
    exact tailValues_injective hinj hne (hc'.trans hc.symm)
  · rintro rfl
    exact hc

end Count

end Interpolation
