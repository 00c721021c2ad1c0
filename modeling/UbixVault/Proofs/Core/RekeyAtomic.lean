/-
Whether a rekey is atomic when one of its calls fails.

The keyring and the configuration are two writes.  When the second one fails the
keyring needs the new shares, which are returned, but the stored threshold is still
the old one, and it decides when unseal combines what it has gathered.  With the
threshold unchanged the new shares work all the same.  With a larger one, unseal
combines too few of them and drops them; with a smaller one it waits for more.
-/
import UbixVault.Proofs.Core.Quorum

namespace UbixVault

open Program Shamir

variable {P : Platform} {env : Env} {s : VaultState} {n k n' k' : Int} {i : Nat}
  {keys : List Share}

/-- A new core over the store of an old one. -/
def VaultState.restart (s : VaultState) : VaultState :=
  ⟨Core.new s.core.autoSeal s.core.ha, s.world⟩

/-- Without failures, `threshold` different shares of `pool` unseal the vault. -/
def Unseals (P : Platform) (pool : List Share) (threshold : Int) (s : VaultState) : Prop :=
  ∀ later : Env, later.Works → ∀ subs ⊆ pool, threshold ≤ subs.toFinset.card →
    (s.submit P later subs).sealed = false

/-- A vault whose `n` shares are `keys`, `k` of them required, on its way to `k'` of `n'`. -/
structure Rekeying (P : Platform) (n k n' k' : Int) (keys : List Share) (s : VaultState) :
    Prop where
  issued : ∃ K B, Issued P s.world.store K B n k keys
  attempt : ∃ attempt, s.core.rekey = some attempt ∧ attempt.newShares = n' ∧
    attempt.newThreshold = k'

/-- After a restart the new shares unseal if there are any, and else the old ones do. -/
def Event.Recovers (P : Platform) (k : Int) (keys : List Share) (e : Event) : Prop :=
  match e.issue with
  | some issue => Unseals P issue.keys issue.threshold e.after.restart
  | none => Unseals P keys k e.after.restart

/--
A rekey from `k` of `n` to `k'` of `n'` survives the failure of its call number `i`,
for every share that is supplied and every outcome of the random source.
-/
def RekeyAtomic (P : Platform) (n k n' k' : Int) (i : Nat) : Prop :=
  ∀ (env : Env) (s : VaultState) (keys : List Share) (nonce : Bytes) (share : Share),
    Rekeying P n k n' k' keys s →
    (s.step P (env.failAt (s.world.tick + i)) (.rekeyUpdate nonce share)).Recovers P k keys

/-! ### Where it holds -/

theorem LockedBy.unseals {shares threshold : Int} {pool : List Share}
    (h : LockedBy P s.world.store shares threshold pool)
    (hopens : ∀ sub, Attempted pool threshold sub → ∃ key, ∃ B : CipherKey,
      combine sub = .ok key ∧ OpensKeyring P.aead s.world.store key B.val) :
    Unseals P pool threshold s.restart := by
  intro later hworks subs hsub henough
  have hcollecting : Collecting P s.world.store threshold pool s.restart :=
    ⟨rfl, rfl, List.nodup_nil, List.nil_subset _, h.positive⟩
  exact submit_unseals hworks.storageWorks h hopens hcollecting hsub henough

theorem Issued.unseals {K B : CipherKey} (h : Issued P s.world.store K B n k keys) :
    Unseals P keys k s.restart := by
  have hissue : Issued P s.world.store K B n (Issue.mk keys k).threshold (Issue.mk keys k).keys := h
  exact (hissue.locked hissue.issue_dealt.length).unseals fun sub hatt => hissue.opens hatt

theorem Event.recovers_of_none {e : Event} (hissue : e.issue = none)
    (h : Unseals P keys k e.after.restart) : e.Recovers P k keys := by
  unfold Event.Recovers
  rw [hissue]
  exact h

theorem Event.recovers_of_some {e : Event} {issue : Issue} (hissue : e.issue = some issue) :
    e.Recovers P k keys ↔ Unseals P issue.keys issue.threshold e.after.restart := by
  unfold Event.Recovers
  rw [hissue]

/-- The last share that the attempt needs, in an unsealed vault. -/
structure Completing (s : VaultState) (k : Int) (K : CipherKey) (attempt : RekeyAttempt)
    (nonce : Bytes) (share : Share) : Prop where
  length : share.length = masterKeySize + 1
  nonce : nonce = attempt.nonce
  unsealed : s.sealed = false
  enough : k ≤ (gather attempt.progress share).length
  combined : combine (gather attempt.progress share) = .ok K.val
  valid : validShares attempt.newShares attempt.newThreshold = true

/-- What a share supplied to a rekey in progress leads to. -/
inductive Rekeyed (P : Platform) (env : Env) (n k : Int) (K B : CipherKey) (keys : List Share)
    (attempt : RekeyAttempt) (s : VaultState) (nonce : Bytes) (share : Share) (e : Event) : Prop
  | kept (issue : e.issue = none) (issued : Issued P e.after.world.store K B n k keys)
      (why : Completing s k K attempt nonce share →
        Faulted env (callsToConfig attempt.newShares) s.world)
  | written {K' : CipherKey} {st : RekeyStatus}
      (issue : e.issue = some ⟨st.keys, attempt.newThreshold⟩)
      (issued : Issued P e.after.world.store K' B attempt.newShares attempt.newThreshold st.keys)
      (passed : ∃ call, env.fails (s.world.tick + callsToConfig attempt.newShares) call = false)
  | failed {K' : CipherKey} {st : RekeyStatus}
      (issue : e.issue = some ⟨st.keys, attempt.newThreshold⟩)
      (wraps : Wraps P.aead e.after.world.store K' B)
      (config : storedConfig P e.after.world.store = some (shamirConfig n k))
      (valid : validShares attempt.newShares attempt.newThreshold = true)
      (split : SplitInto env (s.world.tick + 3) K'.val attempt.newShares attempt.newThreshold
        st.keys)
      (fault : ∃ call, env.fails (s.world.tick + callsToConfig attempt.newShares) call = true)
      (fresh : K' = env.random (s.world.tick + 2) masterKeySize)
      (answer : ∃ err, e.result = .ok (.rekey st (some err)))

theorem step_rekeyed (env : Env) {K B : CipherKey} {attempt : RekeyAttempt}
    (hissued : Issued P s.world.store K B n k keys) (hattempt : s.core.rekey = some attempt)
    (nonce : Bytes) (share : Share) :
    Rekeyed P env n k K B keys attempt s nonce share
      (s.step P env (.rekeyUpdate nonce share)) := by
  have hout := step_outcome P env hissued.coherent (.rekeyUpdate nonce share)
  generalize s.step P env (.rekeyUpdate nonce share) = e at hout ⊢
  obtain ⟨before, call, result, core, world⟩ := e
  have hsame : world.store = s.world.store → Issued P world.store K B n k keys := by
    intro hstore
    rw [hstore]
    exact hissued
  have hready : Completing s k K attempt nonce share →
      RekeyShare P s.core s.world nonce share attempt (shamirConfig n k) :=
    fun h => ⟨h.length, hattempt, h.nonce, hissued.config, h.unsealed⟩
  cases hout with
  | rekeyed outcome answer =>
    dsimp only at answer
    subst answer
    cases outcome with
    | refused store why =>
      refine .kept (by cases call <;> rfl) (hsame store) fun h => ?_
      exact (why _ _ (hready h)).mono (by unfold callsToConfig; omega)
    | gathered store ready few incomplete =>
      refine .kept (issue_rekey_incomplete incomplete) (hsame store) fun h => ?_
      obtain ⟨rfl, rfl⟩ := ready.unique (hready h)
      exact absurd few (not_lt.mpr h.enough)
    | ended store ready why =>
      refine .kept (by cases call <;> rfl) (hsame store) fun h => ?_
      obtain ⟨rfl, -⟩ := ready.unique (hready h)
      exact why _ h.combined (hissued.wraps.isMasterKey_iff.mpr rfl) h.valid
    | replaced ready enough combined done =>
      obtain rfl := Option.some.inj (ready.inProgress.symm.trans hattempt)
      obtain ⟨nonce', hn, hwrite⟩ := done.stored
      have hB := (hissued.wraps.opensKeyring_iff.mp done.opens).2
      generalize hstore : world.store = store' at hwrite
      cases hwrite with
      | written passed =>
        refine .written done.issue_eq (done.issued hissued.wraps ?_) ⟨_, passed⟩
        rw [hstore]
        exact storedConfig_insert _ _
      | failed failed =>
        subst hB
        refine .failed done.issue_eq done.lookup_keyring ?_ done.valid done.split ⟨_, failed⟩
          done.fresh ⟨_, rfl⟩
        show storedConfig P world.store = _
        rw [hstore]
        exact (storedConfig_insert_of_ne sealConfigPath_ne_keyringPath.symm _).trans
          hissued.config

section Stored

variable {K' B : CipherKey} {shares : List Share} {t : Nat} {w : World}

theorem SplitInto.issue_dealt (hnew : validShares n' k' = true)
    (h : SplitInto env t K'.val n' k' shares) : (Issue.mk shares k').Dealt K' := by
  have htwo := (validShares_iff.mp hnew).2.2.1
  exact ⟨h.dealt htwo, htwo⟩

/-- The new keyring with the old configuration. -/
theorem locked_of_failed (hold : validShares n k = true) (hnew : validShares n' k' = true)
    (hw : Wraps P.aead w.store K' B) (hconfig : storedConfig P w.store = some (shamirConfig n k))
    (hsplit : SplitInto env t K'.val n' k' shares) {pool : List Share} (hpool : pool ⊆ shares) :
    LockedBy P w.store n k pool := by
  have htwo := (validShares_iff.mp hold).2.2.1
  exact ⟨hconfig, hw.lookup_isSome, by omega,
    fun share hshare => (SplitInto.issue_dealt hnew hsplit).length share (hpool hshare)⟩

end Stored

/-- Equal thresholds, or another failure than that of the configuration write, do no harm. -/
theorem rekeyAtomic_of (h : k = k' ∨ i ≠ callsToConfig n') : RekeyAtomic P n k n' k' i := by
  intro env s keys nonce share hs
  obtain ⟨⟨K, B, hissued⟩, attempt, hattempt, rfl, rfl⟩ := hs
  cases step_rekeyed (env.failAt (s.world.tick + i)) hissued hattempt nonce share with
  | kept issue issued why => exact Event.recovers_of_none issue issued.unseals
  | written issue issued passed => exact (Event.recovers_of_some issue).mpr issued.unseals
  | @failed K' st issue wraps config valid split fault =>
    obtain ⟨call, hfails⟩ := fault
    have hi : i = callsToConfig attempt.newShares := by
      have := Env.failAt_fails.mp hfails
      omega
    have hk : k = attempt.newThreshold := h.resolve_right (not_not_intro hi)
    rw [hk] at config
    have hdealt := SplitInto.issue_dealt valid split
    have hlocked := locked_of_failed (hk ▸ hissued.valid) valid wraps config split
      (List.Subset.refl st.keys)
    refine (Event.recovers_of_some issue).mpr (hlocked.unseals ?_)
    intro sub hatt
    exact ⟨K'.val, B, hdealt.combine_eq hatt.nodup hatt.subset (le_of_eq hatt.length.symm),
      wraps.opensKeyring_iff.mpr ⟨rfl, rfl⟩⟩

/-! ### Where it fails -/

/-- A vault with a rekey in progress that is one share short. -/
theorem exists_completing (P : Platform) (hold : validShares n k = true)
    (hnew : validShares n' k' = true) :
    ∃ s keys K B attempt share, Issued P s.world.store K B n k keys ∧
      s.core.rekey = some attempt ∧ attempt.newShares = n' ∧ attempt.newThreshold = k' ∧
      Completing s k K attempt attempt.nonce share := by
  obtain ⟨hn, hn255, hk, hkn⟩ := validShares_iff.mp hold
  let K : CipherKey := ⟨List.replicate keySize 0, List.length_replicate⟩
  obtain ⟨hnodup, hzero, hlen⟩ :=
    take_allCoordinates (n := n.toNat) (by omega) (List.Perm.refl allCoordinates)
  obtain ⟨keys, ⟨d, rfl⟩, hkeys⟩ :=
    exists_dealt K.val (show 0 < k.toNat by omega) hnodup hzero
  rw [hlen] at hkeys
  -- The first shares have been gathered, and the next one is the last that is needed.
  have hquorum : (d.shares.take k.toNat).length = k.toNat := by
    rw [List.length_take, hkeys]
    omega
  obtain ⟨progress, share, hsplit⟩ : ∃ progress share, d.shares.take k.toNat = progress ++ [share] := by
    rcases List.eq_nil_or_concat (d.shares.take k.toNat) with hnil | ⟨progress, share, h⟩
    · rw [hnil] at hquorum
      have : (0 : Nat) = k.toNat := hquorum
      omega
    · exact ⟨progress, share, by rw [h, List.concat_eq_append]⟩
  have hquorumNodup : (progress ++ [share]).Nodup := by
    rw [← hsplit]
    exact d.nodup_shares.sublist (List.take_sublist _ _)
  have hgather : gather progress share = d.shares.take k.toNat := by
    rw [hsplit]
    refine if_neg ?_
    intro hmem
    exact (List.nodup_append.mp hquorumNodup).2.2 share hmem share (by simp) rfl
  have hshare : share ∈ d.shares := by
    refine List.take_subset k.toNat _ ?_
    rw [hsplit]
    simp
  let store : Store := ((∅ : Store).insert keyringPath
    (blobOf P.aead K (List.replicate nonceSize 0) K.val keyringPath)).insert sealConfigPath
      (P.sealConfigJson.marshal (shamirConfig n k))
  let attempt : RekeyAttempt := ⟨[], n', k', progress⟩
  let core : Core :=
    { autoSeal := none, ha := false, barrier := ⟨some K⟩, progress := [], rootAttempt := none
      rekey := some attempt }
  refine ⟨⟨core, ⟨store, 0⟩⟩, d.shares, K, K, attempt, share, ⟨?_, ?_, hold, ⟨d, rfl⟩, hkeys⟩, rfl,
    rfl, rfl, ⟨?_, rfl, rfl, ?_, ?_, hnew⟩⟩
  · exact (Wraps.of_insert List.length_replicate).insert_of_ne sealConfigPath_ne_keyringPath _
  · exact storedConfig_insert _ _
  · rw [d.length_of_mem hshare, K.property]
    rfl
  · rw [hgather, hquorum]
    omega
  · rw [hgather]
    exact d.combine_eq K.ne_nil (by omega) (d.nodup_shares.sublist (List.take_sublist _ _))
      (List.take_subset _ _) (le_of_eq hquorum.symm)

/-- Random bytes that are zero but for a one at one position. -/
def Env.unit (m : Nat) : Env :=
  { Env.faultless with randomByte := fun _ j => if j = m then 1 else 0 }

/-- With the old threshold stored, a quorum of the new shares need not unseal the vault. -/
theorem not_unseals_of_failed {K' B : CipherKey} {shares : List Share} {t : Nat}
    (hold : validShares n k = true) (hnew : validShares n' k' = true) (hne : k ≠ k')
    (hunit : ∀ t j, env.randomByte t j = if j = k.toNat - 1 then 1 else 0)
    (hw : Wraps P.aead s.world.store K' B)
    (hconfig : storedConfig P s.world.store = some (shamirConfig n k))
    (hsplit : SplitInto env t K'.val n' k' shares) : ¬ Unseals P shares k' s.restart := by
  intro hunseals
  obtain ⟨hn, hn255, hk, hkn⟩ := validShares_iff.mp hold
  obtain ⟨hn', hn255', hk', hkn'⟩ := validShares_iff.mp hnew
  have hsub : shares.take k'.toNat ⊆ shares := List.take_subset _ _
  have hlength : (shares.take k'.toNat).length = k'.toNat := by
    rw [List.length_take, hsplit.length]
    omega
  have hnodup : (shares.take k'.toNat).Nodup := by
    obtain ⟨⟨d, hd⟩, -⟩ := SplitInto.issue_dealt hnew hsplit
    have hshares : shares.Nodup := by
      rw [show shares = d.shares from hd.symm]
      exact d.nodup_shares
    exact hshares.sublist (List.take_sublist _ _)
  have hpowerless : ∀ sub key, Attempted (shares.take k'.toNat) k sub → combine sub = .ok key →
      ¬ IsMasterKey P.aead s.world.store key := by
    intro sub key hatt hcombine hmaster
    have hlen := hatt.length
    rcases lt_or_gt_of_ne hne with hlt | hgt
    · -- Too few are combined, and they miss the key.
      rw [hw.isMasterKey_iff.mp hmaster] at hcombine
      exact hsplit.combine_ne hunit K'.ne_nil (by omega) (by omega) hatt.nodup
        (List.Subset.trans hatt.subset hsub) (by omega) hcombine
    · -- There are not enough to be combined at all.
      have := (List.subperm_of_subset hatt.nodup hatt.subset).length_le
      omega
  have hlocked := locked_of_failed hold hnew hw hconfig hsplit hsub
  have hcollecting : Collecting P s.world.store k (shares.take k'.toNat) s.restart :=
    ⟨rfl, rfl, List.nodup_nil, List.nil_subset _, hlocked.positive⟩
  have hworks : Env.faultless.Works := fun _ _ => rfl
  have hsealed := (submit_powerless hworks.storageWorks hlocked hpowerless _ hcollecting
    (List.Subset.refl _)).sealed
  rw [hunseals .faultless hworks _ hsub (by
    rw [List.toFinset_card_of_nodup hnodup, hlength]
    omega)] at hsealed
  cases hsealed

/-- When the thresholds differ, the failure of the configuration write does harm. -/
theorem not_rekeyAtomic (hold : validShares n k = true) (hnew : validShares n' k' = true)
    (hne : k ≠ k') : ¬ RekeyAtomic P n k n' k' (callsToConfig n') := by
  intro hatomic
  obtain ⟨s, keys, K, B, attempt, share, hissued, hattempt, rfl, rfl, hcompleting⟩ :=
    exists_completing P hold hnew
  have hrecovers := hatomic (.unit (k.toNat - 1)) s keys attempt.nonce share
    ⟨⟨K, B, hissued⟩, attempt, hattempt, rfl, rfl⟩
  cases step_rekeyed ((Env.unit (k.toNat - 1)).failAt
      (s.world.tick + callsToConfig attempt.newShares)) hissued hattempt attempt.nonce share with
  | kept issue issued why =>
    obtain ⟨j, hj, call, -, hfails⟩ := why hcompleting
    have := Env.failAt_fails.mp hfails
    omega
  | written issue issued passed =>
    obtain ⟨call, hfails⟩ := passed
    rw [Env.failAt_fails.mpr rfl] at hfails
    cases hfails
  | failed issue wraps config valid split fault =>
    exact not_unseals_of_failed hold hnew hne (fun _ _ => rfl) wraps config split
      ((Event.recovers_of_some issue).mp hrecovers)

/--
**A rekey is atomic exactly when the thresholds agree or the configuration is written.**

Take a vault with `k` of `n` shares and a rekey to `k'` of `n'` in progress, and let
call number `i` of an update fail, counted from zero.  In every such state, for every
share supplied and every outcome of the random source: if the call returns new
shares, any `k'` of them unseal a restarted core, and if it does not, any `k` of the
old ones do.  This holds if and only if `k` and `k'` are equal or call number `i` is
not the one that writes the configuration.
-/
theorem rekey_atomic_iff (P : Platform) (n k n' k' : Int) (i : Nat)
    (hold : validShares n k = true) (hnew : validShares n' k' = true) :
    RekeyAtomic P n k n' k' i ↔ k = k' ∨ i ≠ callsToConfig n' := by
  constructor
  · intro hatomic
    by_contra hcon
    rw [not_or, not_not] at hcon
    rw [hcon.2] at hatomic
    exact not_rekeyAtomic hold hnew hcon.1 hatomic
  · exact rekeyAtomic_of

/-- From two of three to two of five, even that failure does no harm. -/
theorem rekey_atomic_same_threshold : RekeyAtomic .transparent 3 2 5 2 (callsToConfig 5) :=
  (rekey_atomic_iff .transparent 3 2 5 2 (callsToConfig 5) (by decide) (by decide)).mpr (.inl rfl)

/-- From two of three to three of three it does. -/
theorem rekey_not_atomic_raising_threshold :
    ¬ RekeyAtomic .transparent 3 2 3 3 (callsToConfig 3) :=
  not_rekeyAtomic (by decide) (by decide) (by decide)

end UbixVault
