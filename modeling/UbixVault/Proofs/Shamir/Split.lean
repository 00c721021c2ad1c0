/-
What `split` hands out, whatever the random source answers.

The shuffle only ever exchanges two entries of 1..255, so what it leaves is a
rearrangement of them and any prefix of it is distinct and nonzero.  Each
polynomial has the secret byte as constant term by construction.  So the shares
are a `Dealing`, for every handler of the random calls, and recovery is
`Dealing.combine_eq`.
-/
import UbixVault.Proofs.Platform
import UbixVault.Proofs.Shamir.Recover

namespace UbixVault.Shamir

open Program

variable {σ : Type} {h : Outside σ} {s s' : σ}

variable {secret : Bytes} {parts threshold : Int} {shares : List Share}

/-- The random source answers every request with a value. -/
structure Delivers (h : Outside σ) : Prop where
  randRead : ∀ s n, ∃ b s', h s (.randRead n) = (.ok b, s')
  randInt : ∀ s bound, 0 < bound → ∃ j s', h s (.randInt bound) = (.ok j, s')

/-! ### Coordinates -/

theorem swap_perm (l : Bytes) (i j : Nat) : (swap l i j).Perm l := by
  unfold swap
  split
  · rename_i a b ha hb
    obtain ⟨hi, rfl⟩ := List.getElem?_eq_some_iff.mp ha
    obtain ⟨hj, rfl⟩ := List.getElem?_eq_some_iff.mp hb
    exact List.set_set_perm hi hj
  · exact List.Perm.refl l

/-- The shuffle rearranges. -/
theorem shuffle_perm (n : Nat) : ∀ (i : Nat) (all : Bytes) (s : σ) {r : Bytes} {s' : σ},
    exec h (shuffle n i all) s = (.ok r, s') → r.Perm all := by
  induction n with
  | zero =>
    intro i all s r s' hrun
    cases hrun
    exact List.Perm.refl _
  | succ n ih =>
    intro i all s r s' hrun
    obtain ⟨j, s₁, -, hrest⟩ := exec_bind_eq_ok h hrun
    exact (ih _ _ _ hrest).trans (swap_perm _ _ _)

/-- The coordinates that are shuffled: every nonzero byte once. -/
def allCoordinates : Bytes := (List.range 255).map fun i => BitVec.ofNat 8 (i + 1)

theorem allCoordinates_nodup : allCoordinates.Nodup := by
  refine List.nodup_range.map_on ?_
  intro i hi j hj hij
  have h := congrArg BitVec.toNat hij
  rw [List.mem_range] at hi hj
  rw [BitVec.toNat_ofNat, BitVec.toNat_ofNat, Nat.mod_eq_of_lt (by omega),
    Nat.mod_eq_of_lt (by omega)] at h
  omega

theorem zero_notMem_allCoordinates : (0 : Byte) ∉ allCoordinates := by
  intro hmem
  obtain ⟨i, hi, hzero⟩ := List.mem_map.mp hmem
  rw [List.mem_range] at hi
  have h := congrArg BitVec.toNat hzero
  rw [BitVec.toNat_ofNat, Nat.mod_eq_of_lt (by omega)] at h
  exact absurd h (Nat.succ_ne_zero i)

/-- Any prefix of a rearrangement of the coordinates is distinct and nonzero. -/
theorem take_allCoordinates {n : Nat} (hn : n ≤ 255) {all : Bytes}
    (hperm : all.Perm allCoordinates) :
    (all.take n).Nodup ∧ (0 : Byte) ∉ all.take n ∧ (all.take n).length = n := by
  refine ⟨?_, ?_, ?_⟩
  · exact (hperm.nodup_iff.mpr allCoordinates_nodup).sublist (List.take_sublist _ _)
  · intro hmem
    exact zero_notMem_allCoordinates (hperm.mem_iff.mp (List.mem_of_mem_take hmem))
  · rw [List.length_take, hperm.length_eq]
    simp [allCoordinates, hn]

theorem randomCoordinates_spec {n : Nat} (hn : n ≤ 255) {xs : Bytes}
    (hrun : exec h (randomCoordinates n) s = (.ok xs, s')) :
    xs.Nodup ∧ (0 : Byte) ∉ xs ∧ xs.length = n := by
  obtain ⟨all, s₁, hshuffle, hrest⟩ := exec_bind_eq_ok h hrun
  cases hrest
  exact take_allCoordinates hn (shuffle_perm n 0 _ s hshuffle)

/-! ### Polynomials -/

theorem randomPolynomial_spec {degree : Nat} {intercept : Byte} {p : Bytes}
    (hrun : exec h (randomPolynomial degree intercept) s = (.ok p, s')) :
    p.headD 0 = intercept ∧ p.length = degree + 1 := by
  unfold randomPolynomial at hrun
  split at hrun
  · obtain ⟨rest, s₁, -, hrest⟩ := exec_bind_eq_ok h hrun
    cases hrest
    exact ⟨rfl, by rw [List.length_cons, rest.property]⟩
  · rename_i hdeg
    cases hrun
    exact ⟨rfl, by simp; omega⟩

theorem randomPolynomials_spec {degree : Nat} (secret : Bytes) :
    ∀ (s : σ) {polys : List Bytes} {s' : σ},
      exec h (randomPolynomials degree secret) s = (.ok polys, s') →
      polys.map (·.headD 0) = secret ∧ ∀ p ∈ polys, p.length = degree + 1 := by
  induction secret with
  | nil =>
    intro s polys s' hrun
    cases hrun
    simp
  | cons b rest ih =>
    intro s polys s' hrun
    obtain ⟨p, s₁, hp, hrest⟩ := exec_bind_eq_ok h hrun
    obtain ⟨others, s₂, hothers, hret⟩ := exec_bind_eq_ok h hrest
    cases hret
    obtain ⟨hhead, hlen⟩ := randomPolynomial_spec hp
    obtain ⟨hheads, hlens⟩ := ih _ hothers
    refine ⟨by rw [List.map_cons, hhead, hheads], ?_⟩
    intro q hq
    rcases List.mem_cons.mp hq with rfl | hq
    · exact hlen
    · exact hlens q hq

/-! ### The whole of `split` -/

/-- The arguments `split` accepts. -/
structure SplitArgs (secret : Bytes) (parts threshold : Int) : Prop where
  secret_ne : secret ≠ []
  two_le_parts : 2 ≤ parts
  parts_le : parts ≤ 255
  two_le_threshold : 2 ≤ threshold
  threshold_le : threshold ≤ parts

/-- With acceptable arguments `split` is its two random phases. -/
theorem exec_split
    (args : SplitArgs secret parts threshold) (s : σ) :
    exec h (split secret parts threshold) s =
      exec h (do
        let xCoords ← randomCoordinates parts.toNat
        let polys ← randomPolynomials (threshold.toNat - 1) secret
        return xCoords.map (shareAt polys)) s := by
  obtain ⟨hsecret, hlo, hhi, htlo, hthi⟩ := args
  have h1 : ¬ (parts < 2 ∨ parts > 255) := by omega
  have h2 : ¬ (threshold < 2 ∨ threshold > parts) := by omega
  unfold split
  rw [if_neg hsecret, if_neg h1, if_neg h2]

theorem splitArgs_of_ok
    (hrun : exec h (split secret parts threshold) s = (.ok shares, s')) :
    SplitArgs secret parts threshold := by
  unfold split at hrun
  split at hrun
  · cases hrun
  · split at hrun
    · cases hrun
    · split at hrun
      · cases hrun
      · rename_i h0 h1 h2
        exact ⟨h0, by omega, by omega, by omega, by omega⟩

/-- **`split` deals.** -/
theorem split_dealt
    (hrun : exec h (split secret parts threshold) s = (.ok shares, s')) :
    Dealt secret threshold.toNat shares ∧ shares.length = parts.toNat := by
  have args := splitArgs_of_ok hrun
  have hparts := args.parts_le
  have ht := args.two_le_threshold
  rw [exec_split args] at hrun
  obtain ⟨xs, s₁, hxs, hrest⟩ := exec_bind_eq_ok h hrun
  obtain ⟨polys, s₂, hpolys, hret⟩ := exec_bind_eq_ok h hrest
  cases hret
  obtain ⟨hnodup, hzero, hlen⟩ := randomCoordinates_spec (by omega) hxs
  obtain ⟨hheads, hdeg⟩ := randomPolynomials_spec secret _ hpolys
  refine ⟨⟨⟨xs, polys, hnodup, hzero, hheads, ?_⟩, rfl⟩, by rw [List.length_map, hlen]⟩
  intro p hp
  rw [hdeg p hp]
  omega

/-! ### A source that delivers is enough -/

theorem shuffle_ok (hd : Delivers h) (n : Nat) : ∀ (i : Nat) (all : Bytes) (s : σ), i + n ≤ 255 →
    ∃ r s', exec h (shuffle n i all) s = (.ok r, s') := by
  induction n with
  | zero => intro i all s _; exact ⟨all, s, rfl⟩
  | succ n ih =>
    intro i all s hle
    obtain ⟨j, s₁, hj⟩ := hd.randInt s (255 - i) (by omega)
    obtain ⟨r, s', hr⟩ := ih (i + 1) (swap all i (j.val + i)) s₁ (by omega)
    refine ⟨r, s', ?_⟩
    have hctx := (Act.exec_context_eq_ok h "shamir: random index").mpr
      ((Act.exec_randInt h (255 - i) s).trans hj)
    exact (exec_bind_ok h hctx _).trans hr

theorem randomPolynomials_ok (hd : Delivers h) (degree : Nat) (secret : Bytes) :
    ∀ s : σ, ∃ polys s', exec h (randomPolynomials degree secret) s = (.ok polys, s') := by
  induction secret with
  | nil => intro s; exact ⟨[], s, rfl⟩
  | cons b rest ih =>
    intro s
    obtain ⟨p, s₁, hp⟩ : ∃ p s₁, exec h (randomPolynomial degree b) s = (.ok p, s₁) := by
      unfold randomPolynomial
      split
      · obtain ⟨tail, s₁, htail⟩ := hd.randRead s degree
        have hctx := (Act.exec_context_eq_ok h "shamir: random coefficients").mpr
          ((Act.exec_randRead h degree s).trans htail)
        exact ⟨_, _, exec_bind_ok h hctx _⟩
      · exact ⟨_, _, rfl⟩
    obtain ⟨others, s₂, hothers⟩ := ih s₁
    exact ⟨p :: others, s₂, (exec_bind_ok h hp _).trans (exec_bind_ok h hothers _)⟩

theorem split_ok (hd : Delivers h)
    (args : SplitArgs secret parts threshold) (s : σ) :
    ∃ shares s', exec h (split secret parts threshold) s = (.ok shares, s') := by
  have hparts := args.parts_le
  have htwo := args.two_le_parts
  rw [exec_split args]
  obtain ⟨all, s₁, hall⟩ := shuffle_ok hd parts.toNat 0 allCoordinates s (by omega)
  obtain ⟨polys, s₂, hpolys⟩ := randomPolynomials_ok hd (threshold.toNat - 1) secret s₁
  have hcoords : exec h (randomCoordinates parts.toNat) s = (.ok (all.take parts.toNat), s₁) :=
    exec_bind_ok h hall _
  exact ⟨_, _, (exec_bind_ok h hcoords _).trans (exec_bind_ok h hpolys _)⟩

/-! ### Against a backend

With an `Env` the draws are known: the polynomials are `drawn`, one per secret
byte, and the number of calls depends on the arguments alone.
-/

section Backend

variable {env : Env} {w : World}

/-- The polynomials `randomPolynomials` returns when its first call has number `t`. -/
def drawn (env : Env) (degree : Nat) : Nat → Bytes → List Bytes
  | _, [] => []
  | t, b :: rest => (b :: (env.random t degree).val) :: drawn env degree (t + 1) rest

theorem shuffle_spec (n : Nat) : ∀ (i : Nat) (all : Bytes) (w : World), i + n ≤ 255 →
    Yields env.answer (shuffle n i all) w
      (fun r w' => r.Perm all ∧ w'.store = w.store ∧ Passed env n w w')
      (fun _ w' => Broke env n w w') := by
  induction n with
  | zero =>
    intro i all w _
    exact Yields.pure ⟨List.Perm.refl _, rfl, Passed.zero w⟩
  | succ n ih =>
    intro i all w hle
    refine Yields.bind (Act.yields_context ((Act.randInt_spec (by omega)).mono ?_
      fun _ _ h => h.mono (by omega)))
    rintro j w₁ ⟨-, hs₁, hp₁⟩
    refine (ih (i + 1) _ w₁ (by omega)).mono ?_ fun _ _ h => h.after hp₁ hs₁ (by omega)
    rintro r w₂ ⟨hperm, hs₂, hp₂⟩
    refine ⟨hperm.trans (swap_perm _ _ _), hs₂.trans hs₁, ?_⟩
    rw [Nat.add_comm]
    exact hp₁.trans hp₂

theorem randomCoordinates_yields {n : Nat} (hn : n ≤ 255) :
    Yields env.answer (randomCoordinates n) w
      (fun xs w' => xs.Nodup ∧ (0 : Byte) ∉ xs ∧ xs.length = n ∧ w'.store = w.store ∧
        Passed env n w w')
      (fun _ w' => Broke env n w w') := by
  refine Yields.bind ((shuffle_spec n 0 allCoordinates w (by omega)).mono ?_ fun _ _ h => h)
  rintro all w₁ ⟨hperm, hs, hp⟩
  obtain ⟨hnodup, hzero, hlen⟩ := take_allCoordinates hn hperm
  exact Yields.pure ⟨hnodup, hzero, hlen, hs, hp⟩

theorem randomPolynomials_yields {degree : Nat} (hd : 0 < degree) (secret : Bytes) :
    ∀ w : World, Yields env.answer (randomPolynomials degree secret) w
      (fun polys w' => polys = drawn env degree w.tick secret ∧ w'.store = w.store ∧
        Passed env secret.length w w')
      (fun _ w' => Broke env secret.length w w') := by
  induction secret with
  | nil => intro w; exact Yields.pure ⟨rfl, rfl, Passed.zero w⟩
  | cons b rest ih =>
    intro w
    refine Yields.bind ?_
    unfold randomPolynomial
    rw [if_pos hd]
    refine Yields.bind (Act.yields_context (Act.randRead_spec.mono ?_
      fun _ _ h => h.mono (by simp)))
    rintro v w₁ ⟨rfl, hs₁, hp₁⟩
    refine Yields.pure (Yields.bind ((ih w₁).mono ?_
      fun _ _ h => h.after hp₁ hs₁ (by rw [List.length_cons]; omega)))
    rintro others w₂ ⟨rfl, hs₂, hp₂⟩
    refine Yields.pure ⟨?_, hs₂.trans hs₁, ?_⟩
    · rw [drawn, hp₁.tick]
    · rw [List.length_cons, Nat.add_comm]
      exact hp₁.trans hp₂

theorem drawn_spec (env : Env) (degree : Nat) (secret : Bytes) : ∀ t,
    (drawn env degree t secret).map (·.headD 0) = secret ∧
      ∀ p ∈ drawn env degree t secret, p.length = degree + 1 := by
  induction secret with
  | nil => intro t; simp [drawn]
  | cons b rest ih =>
    intro t
    obtain ⟨hheads, hlens⟩ := ih (t + 1)
    refine ⟨by rw [drawn, List.map_cons, hheads]; rfl, ?_⟩
    intro p hp
    rcases List.mem_cons.mp hp with rfl | hp
    · rw [List.length_cons, (env.random t degree).property]
    · exact hlens p hp

/-- The shares: the drawn polynomials at distinct nonzero coordinates. -/
def SplitInto (env : Env) (t : Nat) (secret : Bytes) (parts threshold : Int)
    (shares : List Share) : Prop :=
  ∃ xs : Bytes, xs.Nodup ∧ (0 : Byte) ∉ xs ∧ xs.length = parts.toNat ∧
    shares = xs.map (shareAt (drawn env (threshold.toNat - 1) (t + parts.toNat) secret))

theorem SplitInto.dealt {t : Nat}
    (ht : 2 ≤ threshold) (h : SplitInto env t secret parts threshold shares) :
    Dealt secret threshold.toNat shares := by
  obtain ⟨xs, hnodup, hzero, -, rfl⟩ := h
  obtain ⟨hheads, hlens⟩ := drawn_spec env (threshold.toNat - 1) secret (t + parts.toNat)
  refine ⟨⟨xs, _, hnodup, hzero, hheads, ?_⟩, rfl⟩
  intro p hp
  rw [hlens p hp]
  omega

theorem SplitInto.length {t : Nat}
    (h : SplitInto env t secret parts threshold shares) : shares.length = parts.toNat := by
  obtain ⟨xs, -, -, hlen, rfl⟩ := h
  rw [List.length_map, hlen]

/--
When the only coefficient drawn that is not zero is a one at `k`, no `k` of the
shares combine to the secret.
-/
theorem SplitInto.combine_ne {t k : Nat} (hunit : ∀ t j, env.randomByte t j = if j = k - 1 then 1 else 0)
    (h : SplitInto env t secret parts threshold shares) (hsecret : secret ≠ []) (hk : 2 ≤ k)
    (hlt : k < threshold.toNat) {sub : List Share} (hnodup : sub.Nodup) (hsub : sub ⊆ shares)
    (hlen : sub.length = k) : combine sub ≠ .ok secret := by
  intro hcombine
  obtain ⟨xs, hxs, hzero, -, rfl⟩ := h
  obtain ⟨hheads, hlens⟩ := drawn_spec env (threshold.toNat - 1) secret (t + parts.toNat)
  let d : Dealing secret (threshold.toNat - 1 + 1) := ⟨xs, _, hxs, hzero, hheads, hlens⟩
  obtain ⟨hsubeq, hys, hyzero⟩ := d.eq_map_of_subset hnodup hsub
  have hylen : (sub.map xCoordinate).length = k := by rw [List.length_map, hlen]
  rw [hsubeq, combine_shareAt (d.polys_ne_nil hsecret) (by omega) hys hyzero,
    Except.ok.injEq] at hcombine
  -- The first byte is already wrong.
  cases secret with
  | nil => exact hsecret rfl
  | cons b rest =>
    rw [show d.polys = (b :: (env.random (t + parts.toNat) (threshold.toNat - 1)).val)
      :: drawn env (threshold.toNat - 1) (t + parts.toNat + 1) rest from rfl, List.map_cons,
      List.cons.injEq] at hcombine
    refine interpolate_ne ?_ (by omega) hys hyzero hcombine.1
    have hrandom : (env.random (t + parts.toNat) (threshold.toNat - 1)).val
        = (List.range (threshold.toNat - 1)).map fun j => if j = k - 1 then 1 else 0 :=
      List.map_congr_left fun j _ => hunit _ j
    rw [toPoly_cons, hrandom, toPoly_unit _ (k - 1) (by omega), ← pow_succ', hylen,
      show k - 1 + 1 = k by omega, add_comm]

theorem split_spec (args : SplitArgs secret parts threshold) :
    Yields env.answer (split secret parts threshold) w
      (fun shares w' => SplitInto env w.tick secret parts threshold shares ∧
        w'.store = w.store ∧ Passed env (parts.toNat + secret.length) w w')
      (fun _ w' => Broke env (parts.toNat + secret.length) w w') := by
  have hhi := args.parts_le
  have hlo := args.two_le_threshold
  unfold Yields
  rw [exec_split args]
  refine Yields.bind ((randomCoordinates_yields (by omega)).mono ?_
    fun _ _ h => h.mono (by omega))
  rintro xs w₁ ⟨hnodup, hzero, hlen, hs₁, hp₁⟩
  refine Yields.bind ((randomPolynomials_yields (by omega) secret w₁).mono ?_
    fun _ _ h => h.after hp₁ hs₁ (Nat.le_refl _))
  rintro polys w₂ ⟨rfl, hs₂, hp₂⟩
  refine Yields.pure ⟨⟨xs, hnodup, hzero, hlen, ?_⟩, hs₂.trans hs₁, hp₁.trans hp₂⟩
  rw [hp₁.tick]

end Backend

/-! ### Any quorum recovers the secret -/

/--
**Sharing and recovery.**  Whatever the random source answers, the shares `split`
returns have pairwise distinct nonzero x-coordinates, and any part of at least
`threshold` of them, in any order, combines to the secret.  Shares are returned
whenever the source delivers.
-/
theorem split_recovers {σ : Type} (h : Outside σ) (s : σ) (secret : Bytes)
    (parts threshold : Int) (hsecret : secret ≠ []) (hparts : 2 ≤ parts ∧ parts ≤ 255)
    (hthreshold : 2 ≤ threshold ∧ threshold ≤ parts) :
    (Delivers h → ∃ shares s', exec h (split secret parts threshold) s = (.ok shares, s')) ∧
    ∀ shares s', exec h (split secret parts threshold) s = (.ok shares, s') →
      (shares.length : Int) = parts ∧ (shares.map xCoordinate).Nodup ∧
      (0 : Byte) ∉ shares.map xCoordinate ∧
      ∀ sub : List Share, sub.Subperm shares → threshold ≤ sub.length →
        combine sub = .ok secret := by
  have args : SplitArgs secret parts threshold :=
    ⟨hsecret, hparts.1, hparts.2, hthreshold.1, hthreshold.2⟩
  refine ⟨fun hd => split_ok hd args s, ?_⟩
  intro shares s' hrun
  obtain ⟨⟨d, rfl⟩, hlen⟩ := split_dealt hrun
  refine ⟨by omega, ?_, ?_, ?_⟩
  · rw [d.map_xCoordinate]
    exact d.nodup
  · rw [d.map_xCoordinate]
    exact d.nonzero
  · intro sub hsub hquorum
    have hnodup : sub.Nodup := by
      obtain ⟨l, hperm, hsl⟩ := hsub
      exact hperm.nodup_iff.mp (d.nodup_shares.sublist hsl)
    exact d.combine_eq hsecret (by omega) hnodup hsub.subset (by omega)

theorem delivers_counting : Delivers Env.counting.answer :=
  ⟨fun _ _ => ⟨_, _, rfl⟩, fun _ _ hpos => ⟨_, _, dif_pos hpos⟩⟩

theorem split_recovers_two_of_three :
    ∃ (a b c : Share) (w : World),
      exec Env.counting.answer (split [0x2a, 0x17] 3 2) ⟨∅, 0⟩ = (.ok [a, b, c], w) ∧
        combine [c, a] = .ok [0x2a, 0x17] := by
  obtain ⟨hok, hall⟩ := split_recovers Env.counting.answer ⟨∅, 0⟩ [0x2a, 0x17] 3 2 (by decide)
    (by decide) (by decide)
  obtain ⟨shares, w, hrun⟩ := hok delivers_counting
  obtain ⟨hlen, -, -, hrec⟩ := hall shares w hrun
  obtain ⟨a, b, c, rfl⟩ := List.length_eq_three.mp (Int.ofNat.inj hlen)
  refine ⟨a, b, c, w, hrun, hrec [c, a] ?_ (by simp)⟩
  exact ⟨[a, c], List.Perm.swap c a [], by simp⟩

end UbixVault.Shamir
