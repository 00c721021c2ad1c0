/-
Too few shares say nothing about the secret.

The coefficients `split` draws are put on a tape that the random source reads
off, so a choice of coefficients is a value and the choices that lead to given
share bytes can be counted.  Byte by byte the shares at some coordinates are the
secret byte plus an additive function of the coefficients, and
`Interpolation.card_tailValues_eq` counts its fibres: all of one size while there
are fewer coordinates than the threshold.
-/
import UbixVault.Proofs.Shamir.Split

namespace UbixVault.Shamir

open Program Polynomial

/-! ### A source that reads from a tape -/

/-- A source with the indices and the byte rows it will deliver laid out in advance. -/
def tape : Outside (List Nat × List Bytes) := fun (indices, rows) call =>
  match call with
  | .get _ => (.error .outside, indices, rows)
  | .put _ _ => (.error .outside, indices, rows)
  | .delete _ => (.error .outside, indices, rows)
  | .list _ => (.error .outside, indices, rows)
  | .randRead n =>
    match rows with
    | [] => (.error .outside, indices, [])
    | row :: rest =>
      (if h : row.length = n then .ok ⟨row, h⟩ else .error .outside, indices, rest)
  | .randInt bound =>
    match indices with
    | [] => (.error .outside, [], rows)
    | j :: rest => (if h : j < bound then .ok ⟨j, h⟩ else .error .outside, rest, rows)
  | .now => (0, indices, rows)
  | .wrap _ => (.error .outside, indices, rows)
  | .unwrap _ => (.error .outside, indices, rows)
  | .acquireLock => (.error .outside, indices, rows)
  | .releaseLock => (.error .outside, indices, rows)
  | .cleanup _ => (.error .outside, indices, rows)

/-- The rows that carry the coefficients `c`, one row per secret byte. -/
def rowsOf {l d : Nat} (c : Fin l → Fin d → Byte) : List Bytes :=
  List.ofFn fun i => List.ofFn (c i)

/-- Dealing polynomials with the coefficients on the tape gives these shares at `xs`. -/
def Samples {m : Nat} (secret : Bytes) (degree : Nat) (rows : List Bytes) (xs : Fin m → Byte)
    (observed : Fin m → Bytes) : Prop :=
  ∃ polys, (exec tape (randomPolynomials degree secret) ([], rows)).1 = .ok polys ∧
    ∀ j, shareAt polys (xs j) = observed j ++ [xs j]

/-- `split` with these indices and coefficients on the tape hands out the given shares. -/
def HandsOut {m : Nat} (secret : Bytes) (parts threshold : Int) (indices : List Nat)
    (rows : List Bytes) (xs : Fin m → Byte) (observed : Fin m → Bytes) : Prop :=
  ∃ shares, (exec tape (split secret parts threshold) (indices, rows)).1 = .ok shares ∧
    ∀ j, observed j ++ [xs j] ∈ shares

/-! ### The phases of `split` on the tape -/

theorem exec_tape_randomPolynomial {d : Nat} (hd : 0 < d) (b : Byte) (indices : List Nat)
    {row : Bytes} (hrow : row.length = d) (rest : List Bytes) :
    exec tape (randomPolynomial d b) (indices, row :: rest) = (.ok (b :: row), indices, rest) := by
  have hread : exec tape (Act.randRead d) (indices, row :: rest)
      = (.ok ⟨row, hrow⟩, indices, rest) := by
    rw [Act.exec_randRead]
    simp only [tape, dif_pos hrow]
  unfold randomPolynomial
  rw [if_pos hd]
  exact exec_bind_ok tape ((Act.exec_context_eq_ok tape "shamir: random coefficients").mpr hread) _

/-- Each secret byte is put before its row. -/
theorem exec_tape_randomPolynomials {d : Nat} (hd : 0 < d) (indices : List Nat) (secret : Bytes) :
    ∀ rows : List Bytes, secret.length = rows.length → (∀ row ∈ rows, row.length = d) →
      exec tape (randomPolynomials d secret) (indices, rows)
        = (.ok (List.zipWith List.cons secret rows), indices, []) := by
  induction secret with
  | nil =>
    intro rows hlen _
    have hnil : rows = [] := List.length_eq_zero_iff.mp hlen.symm
    subst hnil
    rfl
  | cons b secret ih =>
    intro rows hlen hrows
    cases rows with
    | nil => simp at hlen
    | cons row rest =>
      have hrow : row.length = d := hrows row (by simp)
      have hrest := ih rest (by simpa using hlen) fun r hr => hrows r (by simp [hr])
      exact (exec_bind_ok tape (exec_tape_randomPolynomial hd b indices hrow rest) _).trans
        (exec_bind_ok tape hrest _)

theorem exec_tape_rowsOf {l d : Nat} (hd : 0 < d) (indices : List Nat) (secret : Fin l → Byte)
    (c : Fin l → Fin d → Byte) :
    exec tape (randomPolynomials d (List.ofFn secret)) (indices, rowsOf c)
      = (.ok (List.ofFn fun i => secret i :: List.ofFn (c i)), indices, []) := by
  rw [exec_tape_randomPolynomials hd indices _ (rowsOf c) (by simp [rowsOf])]
  · congr 2
    refine List.ext_getElem (by simp [rowsOf]) ?_
    intro i h1 h2
    simp [rowsOf]
  · intro row hrow
    obtain ⟨i, rfl⟩ := (List.mem_ofFn' _ _).mp hrow
    simp

/-- The coordinates depend on the indices alone. -/
theorem exec_tape_shuffle (n : Nat) : ∀ (i : Nat) (all : Bytes) (indices : List Nat),
    ∃ r indices', ∀ rows, exec tape (shuffle n i all) (indices, rows) = (r, indices', rows) := by
  induction n with
  | zero => intro i all indices; exact ⟨_, _, fun _ => rfl⟩
  | succ n ih =>
    intro i all indices
    have hdraw : ∃ r indices', ∀ rows,
        exec tape ((Act.randInt (255 - i)).context "shamir: random index") (indices, rows)
          = (r, indices', rows) := by
      cases indices with
      | nil =>
        refine ⟨.error (.wrap "shamir: random index" .outside), [], fun rows => ?_⟩
        exact (Act.exec_context_eq_error tape _).mpr ⟨.outside, rfl, rfl⟩
      | cons j rest =>
        by_cases hj : j < 255 - i
        · refine ⟨.ok ⟨j, hj⟩, rest, fun rows => ?_⟩
          refine (Act.exec_context_eq_ok tape _).mpr ?_
          rw [Act.exec_randInt]
          simp only [tape, dif_pos hj]
        · refine ⟨.error (.wrap "shamir: random index" .outside), rest, fun rows => ?_⟩
          refine (Act.exec_context_eq_error tape _).mpr ⟨.outside, ?_, rfl⟩
          rw [Act.exec_randInt]
          simp only [tape, dif_neg hj]
    obtain ⟨r, indices₁, hr⟩ := hdraw
    cases r with
    | error e => exact ⟨_, indices₁, fun rows => exec_bind_error tape (hr rows) _⟩
    | ok j =>
      obtain ⟨r, indices₂, hrest⟩ := ih (i + 1) (swap all i (j.val + i)) indices₁
      exact ⟨r, indices₂, fun rows => (exec_bind_ok tape (hr rows) _).trans (hrest rows)⟩

theorem exec_tape_randomCoordinates (n : Nat) (indices : List Nat) :
    ∃ r indices', ∀ rows,
      exec tape (randomCoordinates n) (indices, rows) = (r, indices', rows) := by
  obtain ⟨r, indices₁, hr⟩ := exec_tape_shuffle n 0 allCoordinates indices
  cases r with
  | error e => exact ⟨_, _, fun rows => exec_bind_error tape (hr rows) _⟩
  | ok all => exact ⟨_, _, fun rows => exec_bind_ok tape (hr rows) _⟩

/-! ### Shares as values of the coefficients -/

theorem toPoly_ofFn_eval {d : Nat} (r : Fin d → Byte) (x : Gf) :
    (toPoly (List.ofFn r)).eval x = ∑ i, (⟨r i⟩ : Gf) * x ^ i.val := by
  induction d with
  | zero => simp [toPoly]
  | succ d ih =>
    rw [List.ofFn_succ, toPoly_cons, eval_add, eval_C, eval_mul, eval_X, ih, Fin.sum_univ_succ,
      Finset.mul_sum]
    congr 1
    · simp
    · refine Finset.sum_congr rfl fun i _ => ?_
      rw [Fin.val_succ]
      ring

/-- A share byte is the secret byte plus the value of the drawn coefficients. -/
theorem evaluate_cons_ofFn {d m : Nat} (b : Byte) (r : Fin d → Byte) (xs : Fin m → Byte)
    (j : Fin m) :
    (⟨evaluate (b :: List.ofFn r) (xs j)⟩ : Gf)
      = ⟨b⟩ + Interpolation.tailValues (fun j => (⟨xs j⟩ : Gf)) (fun i => ⟨r i⟩) j := by
  rw [evaluate_eq_eval, toPoly_cons, eval_add, eval_C, eval_mul, eval_X, toPoly_ofFn_eval,
    Interpolation.tailValues_apply, Finset.mul_sum]
  congr 1
  refine Finset.sum_congr rfl fun i _ => ?_
  ring

/-- What the drawn coefficients must satisfy to give the observed bytes. -/
theorem samples_iff {l d m : Nat} (hd : 0 < d) (secret : Fin l → Byte) (c : Fin l → Fin d → Byte)
    (xs : Fin m → Byte) (observed : Fin m → Fin l → Byte) :
    Samples (List.ofFn secret) d (rowsOf c) xs (fun j => List.ofFn (observed j)) ↔
      ∀ i j, evaluate (secret i :: List.ofFn (c i)) (xs j) = observed j i := by
  unfold Samples
  rw [exec_tape_rowsOf hd]
  simp only [Except.ok.injEq, exists_eq_left', shareAt, List.append_left_inj, List.map_ofFn,
    List.ofFn_inj, funext_iff, Function.comp_apply]
  exact forall_comm

/-! ### Counting -/

/-- The coefficients of one polynomial that give the bytes `y` at `xs`. -/
def fibre {d m : Nat} (b : Byte) (xs y : Fin m → Byte) : Set (Fin d → Byte) :=
  {r | ∀ j, evaluate (b :: List.ofFn r) (xs j) = y j}

theorem card_fibre {d m : Nat} (b : Byte) (xs y : Fin m → Byte) :
    Nat.card (fibre (d := d) b xs y) =
      Finset.card {c : Fin d → Gf | Interpolation.tailValues (fun j => (⟨xs j⟩ : Gf)) c
        = fun j => ⟨y j⟩ - ⟨b⟩} := by
  rw [← Fintype.card_subtype, ← Nat.card_eq_fintype_card]
  refine Nat.card_congr (Equiv.subtypeEquiv (Equiv.piCongrRight fun _ => Gf.equivByte.symm) ?_)
  intro r
  have hbyte : ∀ j, evaluate (b :: List.ofFn r) (xs j) = y j ↔
      Interpolation.tailValues (fun j => (⟨xs j⟩ : Gf)) (fun i => ⟨r i⟩) j = ⟨y j⟩ - ⟨b⟩ := by
    intro j
    rw [eq_sub_iff_add_eq, add_comm, ← evaluate_cons_ofFn]
    exact ⟨fun h => Gf.ext h, fun h => congrArg Gf.byte h⟩
  exact (forall_congr' hbyte).trans funext_iff.symm

section Few

variable {d m : Nat} {xs : Fin m → Byte} (hinj : Function.Injective xs) (hne : ∀ j, xs j ≠ 0)

include hinj hne

private theorem gf_nodes :
    Function.Injective (fun j => (⟨xs j⟩ : Gf)) ∧ ∀ j, (⟨xs j⟩ : Gf) ≠ 0 := by
  refine ⟨fun i j hij => hinj (congrArg Gf.byte hij), ?_⟩
  intro j h0
  exact hne j (congrArg Gf.byte h0)

theorem card_fibre_eq (hmd : m ≤ d) (b b' : Byte) (y : Fin m → Byte) :
    Nat.card (fibre (d := d) b xs y) = Nat.card (fibre (d := d) b' xs y) := by
  obtain ⟨hinj', hne'⟩ := gf_nodes hinj hne
  rw [card_fibre, card_fibre]
  exact Interpolation.card_tailValues_eq hinj' hne' hmd _ _

theorem card_fibre_eq_one (hmd : m = d) (b : Byte) (y : Fin m → Byte) :
    Nat.card (fibre (d := d) b xs y) = 1 := by
  subst hmd
  obtain ⟨hinj', hne'⟩ := gf_nodes hinj hne
  rw [card_fibre]
  exact Interpolation.card_tailValues_eq_one hinj' hne' _

end Few

/-- The bytes of the secret are shared independently, so the choices multiply. -/
theorem card_samples {l d m : Nat} (hd : 0 < d) (secret : Fin l → Byte) (xs : Fin m → Byte)
    (observed : Fin m → Fin l → Byte) :
    Nat.card {c : Fin l → Fin d → Byte //
        Samples (List.ofFn secret) d (rowsOf c) xs fun j => List.ofFn (observed j)}
      = ∏ i, Nat.card (fibre (d := d) (secret i) xs fun j => observed j i) := by
  rw [← Nat.card_pi]
  refine Nat.card_congr (Equiv.trans (Equiv.subtypeEquivRight ?_) Equiv.subtypePiEquivPi)
  intro c
  exact samples_iff hd secret c xs observed

theorem mem_map_shareAt {coords : Bytes} {polys : List Bytes} {x : Byte} {y : Bytes} :
    y ++ [x] ∈ coords.map (shareAt polys) ↔ x ∈ coords ∧ shareAt polys x = y ++ [x] := by
  constructor
  · intro hmem
    obtain ⟨x', hx', hshare⟩ := List.mem_map.mp hmem
    have hx : x' = x := by simpa using (List.append_inj' hshare rfl).2
    subst hx
    exact ⟨hx', hshare⟩
  · rintro ⟨hx, hshare⟩
    exact List.mem_map.mpr ⟨x, hx, hshare⟩

/--
The shares `split` hands out are samples of the polynomials it drew.  Which
coordinates are dealt is up to the indices alone, so it is one condition for all
secrets and coefficients.
-/
theorem handsOut_iff (l m : Nat) {t : Nat} (ht : 2 ≤ t) (parts : Int) (indices : List Nat) :
    ∃ possible : (Fin m → Byte) → Prop, ∀ (secret : Fin l → Byte) (c : Fin l → Fin (t - 1) → Byte)
      (xs : Fin m → Byte) (observed : Fin m → Fin l → Byte),
      HandsOut (List.ofFn secret) parts t indices (rowsOf c) xs (fun j => List.ofFn (observed j)) ↔
        possible xs ∧
          Samples (List.ofFn secret) (t - 1) (rowsOf c) xs fun j => List.ofFn (observed j) := by
  by_cases hargs : l ≠ 0 ∧ 2 ≤ parts ∧ parts ≤ 255 ∧ (t : Int) ≤ parts
  · obtain ⟨hl, hlo, hhi, hthi⟩ := hargs
    obtain ⟨r, indices', hr⟩ := exec_tape_randomCoordinates parts.toNat indices
    refine ⟨fun xs => ∃ coords, r = .ok coords ∧ ∀ j, xs j ∈ coords, ?_⟩
    intro secret c xs observed
    have args : SplitArgs (List.ofFn secret) parts t :=
      ⟨by simpa using hl, hlo, hhi, by omega, hthi⟩
    have hpolys := exec_tape_rowsOf (show 0 < t - 1 by omega) indices' secret c
    unfold HandsOut Samples
    rw [exec_split args, exec_bind, hr, exec_tape_rowsOf (by omega)]
    cases r with
    | error e => simp
    | ok coords =>
      simp only [exec_bind, Int.toNat_natCast, hpolys, exec_pure, Except.ok.injEq,
        exists_eq_left', mem_map_shareAt]
      exact forall_and
  · refine ⟨fun _ => False, ?_⟩
    intro secret c xs observed
    simp only [false_and, iff_false]
    rintro ⟨shares, hrun, -⟩
    have hsplit : exec tape (split (List.ofFn secret) parts t) (indices, rowsOf c)
        = (.ok shares, (exec tape (split (List.ofFn secret) parts t) (indices, rowsOf c)).2) :=
      Prod.ext hrun rfl
    have args := splitArgs_of_ok hsplit
    exact hargs ⟨by simpa using args.secret_ne, args.two_le_parts, args.parts_le, args.threshold_le⟩

/-! ### Secrecy -/

/--
**Perfect secrecy of sharing.**  At fewer coordinates than the threshold, the
choices of coefficients that give the observed bytes are equally many for any two
secrets, and exactly one per secret byte at one coordinate less than the threshold.
The same holds of what a whole `split` hands out, whichever coordinates it deals.
-/
theorem sharing_secrecy (t : Nat) (ht : 2 ≤ t) (m l : Nat) (hm : m ≤ t - 1) (xs : Fin m → Byte)
    (hinj : Function.Injective xs) (hne : ∀ j, xs j ≠ 0) (observed : Fin m → Fin l → Byte)
    (secret secret' : Fin l → Byte) :
    (Nat.card {c : Fin l → Fin (t - 1) → Byte //
        Samples (List.ofFn secret) (t - 1) (rowsOf c) xs fun j => List.ofFn (observed j)}
      = Nat.card {c : Fin l → Fin (t - 1) → Byte //
        Samples (List.ofFn secret') (t - 1) (rowsOf c) xs fun j => List.ofFn (observed j)}) ∧
    (m = t - 1 → ∀ i, Nat.card {r : Fin (t - 1) → Byte //
        Samples [secret i] (t - 1) [List.ofFn r] xs fun j => [observed j i]} = 1) ∧
    ∀ (parts : Int) (indices : List Nat),
      Nat.card {c : Fin l → Fin (t - 1) → Byte //
          HandsOut (List.ofFn secret) parts t indices (rowsOf c) xs
            fun j => List.ofFn (observed j)}
        = Nat.card {c : Fin l → Fin (t - 1) → Byte //
          HandsOut (List.ofFn secret') parts t indices (rowsOf c) xs
            fun j => List.ofFn (observed j)} := by
  have hd : 0 < t - 1 := by omega
  have hcount : ∀ s : Fin l → Byte, Nat.card {c : Fin l → Fin (t - 1) → Byte //
      Samples (List.ofFn s) (t - 1) (rowsOf c) xs fun j => List.ofFn (observed j)}
        = ∏ i, Nat.card (fibre (d := t - 1) (secret i) xs fun j => observed j i) := by
    intro s
    rw [card_samples hd]
    exact Finset.prod_congr rfl fun i _ => card_fibre_eq hinj hne hm _ _ _
  refine ⟨(hcount secret).trans (hcount secret').symm, ?_, ?_⟩
  · intro hexact i
    refine Eq.trans (Nat.card_congr (Equiv.subtypeEquivRight fun r => ?_))
      (card_fibre_eq_one (d := t - 1) hinj hne hexact (secret i) fun j => observed j i)
    -- A single byte is a secret of length one.
    exact (samples_iff hd (fun _ : Fin 1 => secret i) (fun _ => r) xs fun j _ => observed j i).trans
      ⟨fun h => h 0, fun h _ => h⟩
  · intro parts indices
    obtain ⟨possible, hpossible⟩ := handsOut_iff l m ht parts indices
    by_cases hp : possible xs
    · rw [Nat.card_congr (Equiv.subtypeEquivRight fun c => hpossible secret c xs observed),
        Nat.card_congr (Equiv.subtypeEquivRight fun c => hpossible secret' c xs observed)]
      simp only [hp, true_and]
      exact (hcount secret).trans (hcount secret').symm
    · have hnone : ∀ s : Fin l → Byte, Nat.card {c : Fin l → Fin (t - 1) → Byte //
          HandsOut (List.ofFn s) parts t indices (rowsOf c) xs
            fun j => List.ofFn (observed j)} = 0 := by
        intro s
        have : IsEmpty {c : Fin l → Fin (t - 1) → Byte // HandsOut (List.ofFn s) parts t indices
            (rowsOf c) xs fun j => List.ofFn (observed j)} :=
          ⟨fun c => hp ((hpossible s c.1 xs observed).mp c.2).1⟩
        exact Nat.card_of_isEmpty
      rw [hnone, hnone]

/-- One share of a three-of-many sharing of two bytes. -/
theorem sharing_secrecy_one_share :
    Nat.card {c : Fin 2 → Fin 2 → Byte //
        Samples [0x2a, 0x17] 2 (rowsOf c) (fun _ : Fin 1 => (5 : Byte)) fun _ => [0x99, 0x01]}
      = Nat.card {c : Fin 2 → Fin 2 → Byte //
        Samples [0, 0xff] 2 (rowsOf c) (fun _ : Fin 1 => (5 : Byte)) fun _ => [0x99, 0x01]} :=
  (sharing_secrecy 3 (by decide) 1 2 (by decide) (fun _ => 5)
    (fun i j _ => Subsingleton.elim i j) (fun _ => by decide) (fun _ => ![0x99, 0x01])
    ![0x2a, 0x17] ![0, 0xff]).1

end UbixVault.Shamir
