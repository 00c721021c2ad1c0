/-
Any threshold of the shares recovers the secret.

The loops of the source are read as field expressions: `evaluate` is evaluation of
the polynomial with the given coefficients, and `interpolate` is the sum that
`Interpolation.atZero` defines.  `Dealt` says what `split` hands out whatever the
random source answers: points of polynomials of degree below the threshold whose
constant terms are the secret, at distinct nonzero coordinates.  Recovery needs
nothing else about `split`, so everything above the sharing scheme uses `Dealt`.
-/
import UbixVault.Lib.Interpolation
import UbixVault.Proofs.Shamir.Field

namespace UbixVault.Shamir

open Polynomial

/-! ### Evaluation -/

/-- The polynomial with the given coefficients, lowest first. -/
noncomputable def toPoly : Bytes → Gf[X]
  | [] => 0
  | c :: rest => C ⟨c⟩ + X * toPoly rest

theorem toPoly_cons (c : Byte) (rest : Bytes) : toPoly (c :: rest) = C ⟨c⟩ + X * toPoly rest := rfl

theorem degree_toPoly_lt (coeffs : Bytes) : (toPoly coeffs).degree < coeffs.length := by
  induction coeffs with
  | nil => simp [toPoly]
  | cons c rest ih =>
    have hshift : (X * toPoly rest).degree < ((rest.length + 1 : Nat) : WithBot ℕ) := by
      rcases eq_or_ne (toPoly rest) 0 with h0 | hne
      · rw [h0, mul_zero, degree_zero]
        exact WithBot.bot_lt_coe _
      · rw [degree_eq_natDegree hne] at ih
        rw [degree_mul, degree_X, degree_eq_natDegree hne]
        have hlt : (toPoly rest).natDegree < rest.length := by exact_mod_cast ih
        have : 1 + (toPoly rest).natDegree < rest.length + 1 := by omega
        exact_mod_cast this
    have hconst : (C (⟨c⟩ : Gf)).degree < ((rest.length + 1 : Nat) : WithBot ℕ) :=
      lt_of_le_of_lt degree_C_le (by exact_mod_cast Nat.succ_pos _)
    exact lt_of_le_of_lt (degree_add_le _ _) (max_lt hconst hshift)

theorem eval_zero_toPoly (coeffs : Bytes) : (toPoly coeffs).eval 0 = ⟨coeffs.headD 0⟩ := by
  cases coeffs with
  | nil => simp only [toPoly, eval_zero]; rfl
  | cons c rest => simp [toPoly]

private theorem evaluate_cons (c d : Byte) (rest : Bytes) (x : Byte) :
    evaluate (c :: d :: rest) x = gfAdd (gfMul (evaluate (d :: rest) x) x) c := by
  unfold evaluate
  rw [List.reverse_cons]
  cases hrev : (d :: rest).reverse with
  | nil => simp at hrev
  | cons top low => simp [List.foldl_append]

theorem evaluate_eq_eval (coeffs : Bytes) (x : Byte) :
    (⟨evaluate coeffs x⟩ : Gf) = (toPoly coeffs).eval ⟨x⟩ := by
  induction coeffs with
  | nil => simp only [toPoly, eval_zero]; rfl
  | cons c rest ih =>
    cases rest with
    | nil => simp [toPoly, evaluate]
    | cons d rest =>
      have hhorner : (⟨evaluate (c :: d :: rest) x⟩ : Gf)
          = ⟨evaluate (d :: rest) x⟩ * ⟨x⟩ + ⟨c⟩ := Gf.ext (evaluate_cons c d rest x)
      rw [hhorner, ih, toPoly_cons c, eval_add, eval_C, eval_mul, eval_X]
      ring

/-! ### Interpolation -/

private theorem zipIdx_map_eq_ofFn {α β : Type} (l : List α) (g : α → Nat → β) :
    l.zipIdx.map (fun p => g p.1 p.2) = List.ofFn fun i : Fin l.length => g l[i] i := by
  refine List.ext_getElem (by simp) ?_
  intro i h1 h2
  simp

private theorem basis_foldl (i : Nat) (xi : Byte) :
    ∀ (l : List (Byte × Nat)) (num den : Byte),
      let r := l.foldl (fun (p : Byte × Byte) (q : Byte × Nat) =>
        if i = q.2 then (p.1, p.2) else (gfMul p.1 q.1, gfMul p.2 (gfAdd xi q.1))) (num, den)
      (⟨r.1⟩ : Gf) = ⟨num⟩ * (l.map fun q => if i = q.2 then 1 else (⟨q.1⟩ : Gf)).prod ∧
      (⟨r.2⟩ : Gf) = ⟨den⟩ *
        (l.map fun q => if i = q.2 then 1 else (⟨xi⟩ + ⟨q.1⟩ : Gf)).prod := by
  intro l
  induction l with
  | nil => intro num den; simp
  | cons q rest ih =>
    intro num den
    rw [List.foldl_cons]
    by_cases hq : i = q.2
    · simp only [hq, if_true, List.map_cons, List.prod_cons, one_mul]
      have h := ih num den
      rw [hq] at h
      exact h
    · simp only [if_neg hq, List.map_cons, List.prod_cons]
      obtain ⟨h1, h2⟩ := ih (gfMul num q.1) (gfMul den (gfAdd xi q.1))
      refine ⟨h1.trans ?_, h2.trans ?_⟩
      · rw [← mul_assoc]; rfl
      · rw [← mul_assoc]; rfl

/-- The two products of a Lagrange basis polynomial at zero. -/
private theorem basisAtZero_eq (xs : Bytes) (i : Nat) (xi : Byte) :
    (⟨(basisAtZero xs i xi).1⟩ : Gf)
        = ∏ j : Fin xs.length, (if i = j then 1 else (⟨xs[j]⟩ : Gf)) ∧
    (⟨(basisAtZero xs i xi).2⟩ : Gf)
        = ∏ j : Fin xs.length, (if i = j then 1 else (⟨xi⟩ + ⟨xs[j]⟩ : Gf)) := by
  obtain ⟨h1, h2⟩ := basis_foldl i xi xs.zipIdx 1 1
  have hone : (⟨1⟩ : Gf) = 1 := rfl
  rw [hone, one_mul, zipIdx_map_eq_ofFn xs fun x j => if i = j then 1 else (⟨x⟩ : Gf),
    List.prod_ofFn] at h1
  rw [hone, one_mul, zipIdx_map_eq_ofFn xs fun x j => if i = j then 1 else (⟨xi⟩ + ⟨x⟩ : Gf),
    List.prod_ofFn] at h2
  exact ⟨h1, h2⟩

private theorem sum_foldl (g : Byte × Byte → Nat → Byte) :
    ∀ (l : List ((Byte × Byte) × Nat)) (acc : Byte),
      (⟨l.foldl (fun result p => gfAdd result (g p.1 p.2)) acc⟩ : Gf)
        = ⟨acc⟩ + (l.map fun p => (⟨g p.1 p.2⟩ : Gf)).sum := by
  intro l
  induction l with
  | nil => intro acc; simp
  | cons p rest ih =>
    intro acc
    rw [List.foldl_cons, ih, List.map_cons, List.sum_cons, ← add_assoc]
    rfl

private theorem prod_ite_eq_prod_erase {n : Nat} (i : Fin n) (f : Fin n → Gf) :
    ∏ j : Fin n, (if i.val = j.val then 1 else f j) = ∏ j ∈ Finset.univ.erase i, f j := by
  rw [← Finset.prod_erase Finset.univ (a := i) (by simp)]
  refine Finset.prod_congr rfl ?_
  intro j hj
  have hne : i.val ≠ j.val := fun h => (Finset.mem_erase.mp hj).1 (Fin.ext h.symm)
  rw [if_neg hne]

/-- The loops of `interpolate` compute the interpolation sum. -/
theorem interpolate_eq_atZero (xs ys : Bytes) (hlen : xs.length = ys.length) :
    (⟨interpolate xs ys⟩ : Gf)
      = Interpolation.atZero (fun i : Fin xs.length => (⟨xs.getD i 0⟩ : Gf))
          (fun i => ⟨ys.getD i 0⟩) := by
  have hzip : (xs.zip ys).length = xs.length := by simp [hlen]
  have hsum := sum_foldl (fun p i => gfMul p.2
    (gfMul (basisAtZero xs i p.1).1 (gfInverse (basisAtZero xs i p.1).2))) (xs.zip ys).zipIdx 0
  have hzero : (⟨0⟩ : Gf) = 0 := rfl
  rw [hzero, zero_add, zipIdx_map_eq_ofFn (xs.zip ys) fun p i => (⟨gfMul p.2
    (gfMul (basisAtZero xs i p.1).1 (gfInverse (basisAtZero xs i p.1).2))⟩ : Gf),
    List.sum_ofFn] at hsum
  refine Eq.trans hsum ?_
  unfold Interpolation.atZero
  refine Fintype.sum_equiv (finCongr hzip) _ _ ?_
  intro i
  have hi : i.val < xs.length := hzip ▸ i.isLt
  have hi' : i.val < ys.length := hlen ▸ hi
  obtain ⟨hnum, hden⟩ := basisAtZero_eq xs i xs[i.val]
  replace hnum := hnum.trans
    (prod_ite_eq_prod_erase ⟨i.val, hi⟩ fun j : Fin xs.length => (⟨xs[j]⟩ : Gf))
  replace hden := hden.trans
    (prod_ite_eq_prod_erase ⟨i.val, hi⟩ fun j : Fin xs.length => (⟨xs[i.val]⟩ : Gf) + (⟨xs[j]⟩ : Gf))
  have hterm : (⟨gfMul ys[i.val] (gfMul (basisAtZero xs i xs[i.val]).1
      (gfInverse (basisAtZero xs i xs[i.val]).2))⟩ : Gf)
      = ⟨ys[i.val]⟩ * (⟨(basisAtZero xs i xs[i.val]).1⟩
          * (⟨(basisAtZero xs i xs[i.val]).2⟩ : Gf)⁻¹) := rfl
  have hcast : (finCongr hzip i) = ⟨i.val, hi⟩ := rfl
  simp only [Fin.getElem_fin, List.getElem_zip, hterm, hnum, hden, hcast]
  rw [← Finset.prod_inv_distrib, ← Finset.prod_mul_distrib, List.getD_eq_getElem _ _ hi']
  refine congrArg _ (Finset.prod_congr rfl ?_)
  intro j hj
  rw [List.getD_eq_getElem _ _ hi, List.getD_eq_getElem _ _ j.isLt, Gf.sub_eq_add, zero_sub,
    Gf.neg_eq, mul_comm]

private theorem nodes_injective {xs : Bytes} (hnodup : xs.Nodup) :
    Function.Injective fun i : Fin xs.length => (⟨xs.getD i 0⟩ : Gf) := by
  intro i j hij
  have hbyte : xs.getD i 0 = xs.getD j 0 := congrArg Gf.byte hij
  rw [List.getD_eq_getElem _ _ i.isLt, List.getD_eq_getElem _ _ j.isLt] at hbyte
  exact Fin.ext ((List.Nodup.getElem_inj_iff hnodup).mp hbyte)

private theorem interpolate_map_evaluate (xs coeffs : Bytes) :
    (⟨interpolate xs (xs.map (evaluate coeffs))⟩ : Gf)
      = Interpolation.atZero (fun i : Fin xs.length => (⟨xs.getD i 0⟩ : Gf))
          (fun i => (toPoly coeffs).eval ⟨xs.getD i 0⟩) := by
  rw [interpolate_eq_atZero xs (xs.map (evaluate coeffs)) (by simp)]
  refine congrArg _ (funext fun i => ?_)
  rw [← evaluate_eq_eval, List.getD_eq_getElem _ _ (by simp), List.getD_eq_getElem _ _ i.isLt,
    List.getElem_map]

/-- **Interpolation recovers the constant term** from at least as many points as coefficients. -/
theorem interpolate_evaluate {xs : Bytes} (hnodup : xs.Nodup) {coeffs : Bytes}
    (hlen : coeffs.length ≤ xs.length) :
    interpolate xs (xs.map (evaluate coeffs)) = coeffs.headD 0 := by
  have hdeg : (toPoly coeffs).degree < xs.length :=
    lt_of_lt_of_le (degree_toPoly_lt coeffs) (by exact_mod_cast hlen)
  have h := interpolate_map_evaluate xs coeffs
  rw [Interpolation.atZero_eval (nodes_injective hnodup) hdeg, eval_zero_toPoly] at h
  exact congrArg Gf.byte h

/-- Interpolating `x^k + b` at `k` nonzero points misses `b`. -/
theorem interpolate_ne {coeffs xs : Bytes} {b : Byte}
    (hcoeffs : toPoly coeffs = X ^ xs.length + C ⟨b⟩) (hpos : 0 < xs.length) (hnodup : xs.Nodup)
    (hzero : (0 : Byte) ∉ xs) : interpolate xs (xs.map (evaluate coeffs)) ≠ b := by
  intro heq
  have h := interpolate_map_evaluate xs coeffs
  rw [heq, hcoeffs, Interpolation.atZero_eval_monic (nodes_injective hnodup)
    (degree_X_pow_add_C hpos _) (leadingCoeff_X_pow_add_C hpos)] at h
  -- What is missed is the product of the points, and none of them is zero.
  have hprod : ∏ i : Fin xs.length, (0 - (⟨xs.getD i 0⟩ : Gf)) = 0 := by
    rw [eval_add, eval_pow, eval_X, zero_pow hpos.ne', eval_C, zero_add] at h
    exact sub_eq_self.mp h.symm
  obtain ⟨i, -, hi⟩ := Finset.prod_eq_zero_iff.mp hprod
  rw [zero_sub, neg_eq_zero, List.getD_eq_getElem _ _ i.isLt] at hi
  have hbyte : xs[i.val] = 0 := congrArg Gf.byte hi
  exact hzero (hbyte ▸ List.getElem_mem i.isLt)

/-! ### Coefficients with a single one -/

private theorem toPoly_replicate_zero (d : Nat) : toPoly (List.replicate d 0) = 0 := by
  induction d with
  | zero => rfl
  | succ d ih =>
    have hzero : (⟨0⟩ : Gf) = 0 := rfl
    rw [List.replicate_succ, toPoly_cons, ih, hzero, C_0, mul_zero, add_zero]

/-- A coefficient list with its only one at `m` is a power of the variable. -/
theorem toPoly_unit (d : Nat) : ∀ m < d,
    toPoly ((List.range d).map fun j => if j = m then 1 else 0) = X ^ m := by
  induction d with
  | zero => intro m hm; omega
  | succ d ih =>
    intro m hm
    rw [List.range_succ_eq_map, List.map_cons, List.map_map, toPoly_cons]
    cases m with
    | zero =>
      have hrest : (List.range d).map ((fun j => if j = 0 then (1 : Byte) else 0) ∘ Nat.succ)
          = List.replicate d 0 := by
        rw [List.eq_replicate_iff]
        simp
      have hone : (⟨1⟩ : Gf) = 1 := rfl
      rw [hrest, toPoly_replicate_zero, if_pos rfl, hone, C_1, mul_zero, add_zero, pow_zero]
    | succ m =>
      have hrest : ((fun j => if j = m + 1 then (1 : Byte) else 0) ∘ Nat.succ)
          = fun j => if j = m then 1 else 0 := by
        funext j
        simp
      have hzero : (⟨0⟩ : Gf) = 0 := rfl
      rw [hrest, ih m (by omega), if_neg (Nat.succ_ne_zero m).symm, hzero, C_0, zero_add,
        pow_succ']

/-! ### What `combine` does -/

/-- The trailing byte of a share. -/
def xCoordinate (s : Share) : Byte := s.getLastD 0

@[simp] theorem length_shareAt (polys : List Bytes) (x : Byte) :
    (shareAt polys x).length = polys.length + 1 := by simp [shareAt]

@[simp] theorem xCoordinate_shareAt (polys : List Bytes) (x : Byte) :
    xCoordinate (shareAt polys x) = x := by simp [xCoordinate, shareAt]

theorem getD_shareAt_length (polys : List Bytes) (x : Byte) :
    (shareAt polys x).getD polys.length 0 = x := by simp [shareAt]

theorem getD_shareAt {polys : List Bytes} {i : Nat} (hi : i < polys.length) (x : Byte) :
    (shareAt polys x).getD i 0 = evaluate polys[i] x := by
  unfold shareAt
  rw [List.getD_eq_getElem _ _ (by simp; omega), List.getElem_append_left (by simpa using hi),
    List.getElem_map]

/-- Coordinates are accepted when they are new, nonzero and pairwise different. -/
theorem coordinates_eq_ok {n : Nat} {shares : List Share} :
    ∀ {seen : Bytes}, (shares.map (·.getD n 0)).Nodup → (∀ s ∈ shares, s.getD n 0 ≠ 0) →
      (∀ s ∈ shares, s.getD n 0 ∉ seen) →
      coordinates n shares seen = .ok (shares.map (·.getD n 0)) := by
  induction shares with
  | nil => intro seen _ _ _; rfl
  | cons s rest ih =>
    intro seen hnodup hne hnew
    rw [List.map_cons, List.nodup_cons] at hnodup
    have hrest : coordinates n rest (s.getD n 0 :: seen) = .ok (rest.map (·.getD n 0)) := by
      refine ih hnodup.2 (fun t ht => hne t (by simp [ht])) ?_
      intro t ht hmem
      rcases List.mem_cons.mp hmem with heq | hmem
      · exact hnodup.1 (heq ▸ List.mem_map_of_mem ht)
      · exact hnew t (by simp [ht]) hmem
    rw [coordinates, if_neg (hne s (by simp)), if_neg (hnew s (by simp)), hrest]
    rfl

/-- Only such coordinates are accepted. -/
theorem nodup_of_coordinates {n : Nat} {shares : List Share} :
    ∀ {seen xs : Bytes}, coordinates n shares seen = .ok xs →
      xs = shares.map (·.getD n 0) ∧ xs.Nodup ∧ (∀ x ∈ xs, x ∉ seen) := by
  induction shares with
  | nil =>
    intro seen xs h
    cases h
    simp
  | cons s rest ih =>
    intro seen xs h
    rw [coordinates] at h
    split at h
    · cases h
    · split at h
      · cases h
      · rename_i hne hnew
        cases hrest : coordinates n rest (s.getD n 0 :: seen) with
        | error e => rw [hrest] at h; cases h
        | ok ys =>
          rw [hrest] at h
          cases h
          obtain ⟨rfl, hnodup, hdisj⟩ := ih hrest
          refine ⟨rfl, List.nodup_cons.mpr ⟨?_, hnodup⟩, ?_⟩
          · intro hmem
            exact hdisj _ hmem (by simp)
          · intro x hx
            rcases List.mem_cons.mp hx with rfl | hx
            · exact hnew
            · exact fun hmem => hdisj x hx (by simp [hmem])

/-- `combine` takes two or more different shares. -/
theorem nodup_of_combine {shares : List Share} {key : Bytes} (h : combine shares = .ok key) :
    2 ≤ shares.length ∧ shares.Nodup := by
  unfold combine at h
  by_cases htwo : shares.length < 2
  · rw [if_pos htwo] at h
    cases h
  rw [if_neg htwo] at h
  dsimp only at h
  split_ifs at h with hlength hsame
  refine ⟨not_lt.mp htwo, ?_⟩
  cases hxs : coordinates ((shares.headD []).length - 1) shares [] with
  | error e =>
    rw [hxs] at h
    cases h
  | ok xs =>
    obtain ⟨rfl, hnodup, -⟩ := nodup_of_coordinates hxs
    exact List.Nodup.of_map _ hnodup

/-- `combine` interpolates each byte position on its own. -/
theorem combine_shareAt {polys : List Bytes} {xs : Bytes} (hpolys : polys ≠ [])
    (hxs : 2 ≤ xs.length) (hnodup : xs.Nodup) (hzero : (0 : Byte) ∉ xs) :
    combine (xs.map (shareAt polys))
      = .ok (polys.map fun p => interpolate xs (xs.map (evaluate p))) := by
  have hcoord : (xs.map (shareAt polys)).map (·.getD polys.length 0) = xs := by
    rw [List.map_map]
    conv_rhs => rw [← List.map_id xs]
    refine List.map_congr_left ?_
    intro x _
    exact getD_shareAt_length polys x
  have hcoords : coordinates polys.length (xs.map (shareAt polys)) [] = .ok xs := by
    refine Eq.trans (coordinates_eq_ok (by rw [hcoord]; exact hnodup) ?_ (by simp)) ?_
    · intro s hs
      obtain ⟨x, hx, rfl⟩ := List.mem_map.mp hs
      rw [getD_shareAt_length]
      rintro rfl
      exact hzero hx
    · rw [hcoord]
  obtain ⟨x, rest, rfl⟩ : ∃ x rest, xs = x :: rest :=
    List.exists_cons_of_ne_nil (by rintro rfl; simp at hxs)
  have hpos : 0 < polys.length := List.length_pos_iff.mpr hpolys
  have hbytes : (List.range polys.length).map (fun idx => interpolate (x :: rest)
      (((x :: rest).map (shareAt polys)).map (·.getD idx 0)))
      = polys.map fun p => interpolate (x :: rest) ((x :: rest).map (evaluate p)) := by
    refine List.ext_getElem (by simp) ?_
    intro i h1 h2
    have hi : i < polys.length := by simpa using h1
    rw [List.getElem_map, List.getElem_map, List.getElem_range, List.map_map]
    refine congrArg _ (List.map_congr_left ?_)
    intro y _
    exact getD_shareAt hi y
  have hlen : ¬ ((x :: rest).map (shareAt polys)).length < 2 := by
    rw [List.length_map]; omega
  have hhead : (((x :: rest).map (shareAt polys)).headD []).length = polys.length + 1 := by
    simp
  have hall : ((x :: rest).map (shareAt polys)).any
      (fun s => decide (s.length ≠ polys.length + 1)) = false := by
    rw [List.any_eq_false]
    intro s hs
    obtain ⟨y, -, rfl⟩ := List.mem_map.mp hs
    simp
  simp only [combine, if_neg hlen, hhead, show ¬ polys.length + 1 < 2 by omega, if_false, hall,
    Nat.add_sub_cancel, hcoords]
  exact congrArg Except.ok hbytes

/-! ### What `split` deals -/

/--
A dealing of `secret`: distinct nonzero coordinates, and for each byte of the
secret a polynomial with `threshold` coefficients and that byte as constant term.
-/
structure Dealing (secret : Bytes) (threshold : Nat) where
  xs : Bytes
  polys : List Bytes
  nodup : xs.Nodup
  nonzero : (0 : Byte) ∉ xs
  intercepts : polys.map (·.headD 0) = secret
  degree : ∀ p ∈ polys, p.length = threshold

namespace Dealing

variable {secret : Bytes} {threshold : Nat} (d : Dealing secret threshold)

/-- The shares of a dealing. -/
def shares : List Share := d.xs.map (shareAt d.polys)

theorem map_xCoordinate : d.shares.map xCoordinate = d.xs := by
  rw [shares, List.map_map]
  conv_rhs => rw [← List.map_id d.xs]
  refine List.map_congr_left ?_
  intro x _
  exact xCoordinate_shareAt d.polys x

theorem length_polys : d.polys.length = secret.length := by
  have h := congrArg List.length d.intercepts
  simpa using h

theorem length_of_mem {s : Share} (hs : s ∈ d.shares) : s.length = secret.length + 1 := by
  obtain ⟨x, -, rfl⟩ := List.mem_map.mp hs
  rw [length_shareAt, d.length_polys]

theorem nodup_shares : d.shares.Nodup := by
  refine List.Nodup.of_map xCoordinate ?_
  rw [d.map_xCoordinate]
  exact d.nodup

/-- Different shares have different coordinates, none of them zero. -/
theorem eq_map_of_subset {sub : List Share} (hnodup : sub.Nodup) (hsub : sub ⊆ d.shares) :
    sub = (sub.map xCoordinate).map (shareAt d.polys) ∧ (sub.map xCoordinate).Nodup ∧
      (0 : Byte) ∉ sub.map xCoordinate := by
  have hback : ∀ s ∈ sub, shareAt d.polys (xCoordinate s) = s := by
    intro s hs
    obtain ⟨x, -, rfl⟩ := List.mem_map.mp (hsub hs)
    rw [xCoordinate_shareAt]
  refine ⟨?_, ?_, ?_⟩
  · rw [List.map_map]
    conv_lhs => rw [← List.map_id sub]
    exact List.map_congr_left fun s hs => (hback s hs).symm
  · refine hnodup.map_on ?_
    intro s hs t ht hst
    rw [← hback s hs, ← hback t ht, hst]
  · intro hmem
    obtain ⟨s, hs, hx⟩ := List.mem_map.mp hmem
    refine d.nonzero ?_
    rw [← d.map_xCoordinate, ← hx]
    exact List.mem_map_of_mem (hsub hs)

theorem polys_ne_nil (hsecret : secret ≠ []) : d.polys ≠ [] := by
  intro h
  have hlen := d.length_polys
  rw [h] at hlen
  exact hsecret (List.length_eq_zero_iff.mp hlen.symm)

/-- **A quorum recovers the secret**, in any order. -/
theorem combine_eq (hsecret : secret ≠ []) (hthreshold : 2 ≤ threshold) {sub : List Share}
    (hnodup : sub.Nodup) (hsub : sub ⊆ d.shares) (hquorum : threshold ≤ sub.length) :
    combine sub = .ok secret := by
  obtain ⟨hsubeq, hxs, hzero⟩ := d.eq_map_of_subset hnodup hsub
  rw [hsubeq, combine_shareAt (d.polys_ne_nil hsecret) (by rw [List.length_map]; omega) hxs hzero]
  refine congrArg Except.ok ?_
  conv_rhs => rw [← d.intercepts]
  refine List.map_congr_left ?_
  intro p hp
  refine interpolate_evaluate hxs ?_
  rw [d.degree p hp, List.length_map]
  exact hquorum

/-- Fewer shares combine too, to whatever lies on their line. -/
theorem combine_ok (hsecret : secret ≠ []) {sub : List Share} (hnodup : sub.Nodup)
    (hsub : sub ⊆ d.shares) (htwo : 2 ≤ sub.length) : ∃ key, combine sub = .ok key := by
  obtain ⟨hsubeq, hxs, hzero⟩ := d.eq_map_of_subset hnodup hsub
  rw [hsubeq, combine_shareAt (d.polys_ne_nil hsecret) (by rwa [List.length_map]) hxs hzero]
  exact ⟨_, rfl⟩

end Dealing

/-- `shares` are the shares of some dealing of `secret`. -/
def Dealt (secret : Bytes) (threshold : Nat) (shares : List Share) : Prop :=
  ∃ d : Dealing secret threshold, d.shares = shares

/-- Every secret can be dealt to up to 255 parties. -/
theorem exists_dealt (secret : Bytes) {threshold : Nat} (hpos : 0 < threshold) {xs : Bytes}
    (hnodup : xs.Nodup) (hzero : (0 : Byte) ∉ xs) :
    ∃ shares, Dealt secret threshold shares ∧ shares.length = xs.length := by
  let d : Dealing secret threshold :=
    { xs, polys := secret.map fun b => b :: List.replicate (threshold - 1) 0, nodup := hnodup
      nonzero := hzero
      intercepts := by simp [Function.comp_def]
      degree := by
        intro p hp
        obtain ⟨b, -, rfl⟩ := List.mem_map.mp hp
        rw [List.length_cons, List.length_replicate]
        omega }
  exact ⟨d.shares, ⟨d, rfl⟩, List.length_map _⟩

end UbixVault.Shamir
