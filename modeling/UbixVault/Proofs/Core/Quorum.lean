/-
Who can unseal a Shamir vault, and what stays readable.

Shares are submitted one at a time to a vault whose stored records do not change
meanwhile.  A pool of shares in which every large enough part combines to the
master key unseals the vault as soon as enough of it has been submitted; a pool in
which no such part does never unseals it.  The shares last handed out are a pool of
the first kind, superseded ones a pool of the second.  A stored value is a blob
under the barrier key, which no call replaces.
-/
import UbixVault.Proofs.Core.Seal
import UbixVault.Proofs.Platform

namespace UbixVault

open Program Shamir

variable {P : Platform} {env : Env} {s : VaultState}

/-- Submit shares one after the other. -/
def VaultState.submit (P : Platform) (env : Env) (s : VaultState) (shares : List Share) :
    VaultState := s.after P env (shares.map .unsealShare)

theorem VaultState.submit_cons (share : Share) (shares : List Share) :
    s.submit P env (share :: shares)
      = VaultState.submit P env (s.step P env (.unsealShare share)).after shares := rfl

/-! ### Submitting shares to a vault that was initialized -/

/-- The parts of `pool` that unseal tries: different shares, as many as the threshold asks for. -/
structure Attempted (pool : List Share) (threshold : Int) (shares : List Share) : Prop where
  nodup : shares.Nodup
  subset : shares ⊆ pool
  length : (shares.length : Int) = threshold

/-- A sealed Shamir vault in which some of `pool`, but not enough, has been gathered. -/
structure Collecting (P : Platform) (store : Store) (threshold : Int) (pool : List Share)
    (s : VaultState) : Prop where
  store : s.world.store = store
  sealed : s.sealed = true
  nodup : s.core.progress.Nodup
  subset : s.core.progress ⊆ pool
  few : (s.core.progress.length : Int) < threshold

/-- What is stored for a Shamir vault with the given threshold. -/
structure LockedBy (P : Platform) (store : Store) (shares threshold : Int) (pool : List Share) :
    Prop where
  config : storedConfig P store = some (shamirConfig shares threshold)
  keyring : (store.lookup keyringPath).isSome
  positive : 0 < threshold
  length : ∀ share ∈ pool, share.length = masterKeySize + 1

/-- What one more share of the pool does. -/
inductive Submitted (P : Platform) (store : Store) (threshold : Int) (pool : List Share)
    (s : VaultState) (share : Share) (e : Event) : Prop
  | gathered (collecting : Collecting P store threshold pool e.after)
      (progress : e.after.core.progress = gather s.core.progress share)
      (few : ((gather s.core.progress share).length : Int) < threshold)
  | unsealed {key : Bytes} (attempted : Attempted pool threshold (gather s.core.progress share))
      (combined : combine (gather s.core.progress share) = .ok key)
      (opens : IsMasterKey P.aead store key) (unsealed : e.after.sealed = false)
  | failed (attempted : Attempted pool threshold (gather s.core.progress share))
      (collecting : Collecting P store threshold pool e.after)
      (why : ∀ key (B : CipherKey), combine (gather s.core.progress share) = .ok key →
        ¬ OpensKeyring P.aead store key B.val)
      (message : ∀ key, combine (gather s.core.progress share) = .ok key →
        e.result = .error (.core .unsealFailed))

section Submitting

variable {store : Store} {shares threshold : Int} {pool : List Share}

theorem Collecting.step (hstorage : env.StorageWorks) (hlocked : LockedBy P store shares threshold pool)
    (h : Collecting P store threshold pool s) {share : Share} (hshare : share ∈ pool) :
    Submitted P store threshold pool s share (s.step P env (.unsealShare share)) := by
  have hstore := h.store
  have hnodup := nodup_gather h.nodup share
  have hsubset : gather s.core.progress share ⊆ pool := by
    intro x hx
    rcases mem_gather.mp hx with hmem | rfl
    · exact h.subset hmem
    · exact hshare
  -- The progress was below the threshold, so it is not exceeded.
  have hattempted : threshold ≤ (gather s.core.progress share).length →
      Attempted pool threshold (gather s.core.progress share) := by
    intro henough
    have hfew := h.few
    have hlength := length_gather_le s.core.progress share
    exact ⟨hnodup, hsubset, by omega⟩
  have hconfig : ∀ {cfg}, storedConfig P s.world.store = some cfg → cfg.threshold = threshold := by
    intro cfg hcfg
    rw [hstore, hlocked.config, Option.some.injEq] at hcfg
    rw [← hcfg]
    rfl
  obtain ⟨r, hout, hanswer⟩ := step_unsealShare P env s share
  generalize s.step P env (.unsealShare share) = e at hout hanswer ⊢
  obtain ⟨before, call, result, core, world⟩ := e
  dsimp only at hout hanswer
  cases hout with
  | refused store' why =>
    have hshamir : ∃ cfg, storedConfig P s.world.store = some cfg ∧ isAutoSeal cfg.kind = false :=
      ⟨_, by rw [hstore]; exact hlocked.config, rfl⟩
    exact absurd (why (hlocked.length share hshare) hshamir) hstorage.not_faulted
  | already store' unsealed =>
    have hsealed : s.core.barrier.sealed = true := h.sealed
    rw [unsealed] at hsealed
    cases hsealed
  | gathered store' sealed config few =>
    rw [hconfig config] at few
    exact .gathered ⟨store'.trans hstore, h.sealed, hnodup, hsubset, few⟩ rfl few
  | unsealed store' sealed config enough combined opens =>
    rw [hconfig config] at enough
    rw [hstore] at opens
    exact .unsealed (hattempted enough) combined ⟨_, opens⟩ rfl
  | failed store' sealed config enough why message =>
    rw [hconfig config] at enough
    rw [hstore] at why message
    refine .failed (hattempted enough) ⟨store'.trans hstore, h.sealed, List.nodup_nil,
      List.nil_subset _, hlocked.positive⟩ ?_ ?_
    · intro key B hkey hopens
      exact hstorage.not_faulted (why key B hkey hopens)
    · intro key hkey
      rcases message key hkey with rfl | hnone | hfault
      · exact hanswer
      · have hsome := hlocked.keyring
        rw [hnone] at hsome
        cases hsome
      · exact absurd hfault hstorage.not_faulted

theorem unsealed_step (hopen : s.sealed = false) (share : Share) :
    (s.step P env (.unsealShare share)).after.sealed = false := by
  have hfalse : ∀ {p : Prop}, s.core.barrier.sealed = true → p := by
    intro p hsealed
    have hopen' : s.core.barrier.sealed = false := hopen
    rw [hsealed] at hopen'
    cases hopen'
  obtain ⟨r, hout, -⟩ := step_unsealShare P env s share
  generalize (s.step P env (.unsealShare share)).after = s' at hout ⊢
  obtain ⟨core, world⟩ := s'
  cases hout with
  | refused store' => exact hopen
  | already store' => exact hopen
  | gathered store' sealed => exact hfalse sealed
  | unsealed store' => rfl
  | failed store' sealed => exact hfalse sealed

/-- An unsealed vault takes shares without effect. -/
theorem unsealed_submit (subs : List Share) : ∀ {s : VaultState}, s.sealed = false →
    (s.submit P env subs).sealed = false := by
  induction subs with
  | nil => intro s hopen; exact hopen
  | cons share rest ih =>
    intro s hopen
    rw [VaultState.submit_cons]
    exact ih (unsealed_step hopen share)

/-- While the vault stays sealed and every attempt succeeds, all submitted shares are kept. -/
private theorem submit_keeps (hstorage : env.StorageWorks)
    (hlocked : LockedBy P store shares threshold pool)
    (hopens : ∀ sub, Attempted pool threshold sub → ∃ key, ∃ B : CipherKey,
      combine sub = .ok key ∧ OpensKeyring P.aead store key B.val) (subs : List Share) :
    ∀ {s : VaultState}, Collecting P store threshold pool s → subs ⊆ pool →
      (s.submit P env subs).sealed = false ∨
        Collecting P store threshold pool (s.submit P env subs) ∧
          ∀ share, share ∈ s.core.progress ∨ share ∈ subs →
            share ∈ (s.submit P env subs).core.progress := by
  induction subs with
  | nil =>
    intro s h _
    refine .inr ⟨h, ?_⟩
    rintro share (hmem | hmem)
    · exact hmem
    · cases hmem
  | cons share rest ih =>
    intro s h hsub
    rw [List.cons_subset] at hsub
    rw [VaultState.submit_cons]
    cases h.step hstorage hlocked hsub.1 with
    | gathered collecting progress few =>
      rcases ih collecting hsub.2 with hopen | ⟨hcoll, hmem⟩
      · exact .inl hopen
      · refine .inr ⟨hcoll, ?_⟩
        intro x hx
        refine hmem x ?_
        rw [progress, mem_gather]
        rcases hx with hx | hx
        · exact .inl (.inl hx)
        · rcases List.mem_cons.mp hx with rfl | hx
          · exact .inl (.inr rfl)
          · exact .inr hx
    | unsealed attempted combined opens unsealed => exact .inl (unsealed_submit rest unsealed)
    | failed attempted collecting why message =>
      obtain ⟨key, B, hkey, hopen⟩ := hopens _ attempted
      exact absurd hopen (why key B hkey)

/--
**A pool whose large enough parts are the master key unseals the vault**, in any
order and with repetitions, once enough different shares have been submitted.
-/
theorem submit_unseals (hstorage : env.StorageWorks)
    (hlocked : LockedBy P store shares threshold pool)
    (hopens : ∀ sub, Attempted pool threshold sub → ∃ key, ∃ B : CipherKey,
      combine sub = .ok key ∧ OpensKeyring P.aead store key B.val)
    (h : Collecting P store threshold pool s) {subs : List Share} (hsub : subs ⊆ pool)
    (henough : threshold ≤ subs.toFinset.card) : (s.submit P env subs).sealed = false := by
  rcases submit_keeps hstorage hlocked hopens subs h hsub with hopen | ⟨hcoll, hmem⟩
  · exact hopen
  · exfalso
    have hcard : subs.toFinset.card ≤ (s.submit P env subs).core.progress.length := by
      refine le_trans (Finset.card_le_card ?_) (List.toFinset_card_le _)
      intro share hshare
      rw [List.mem_toFinset] at hshare ⊢
      exact hmem share (.inr hshare)
    have hfew := hcoll.few
    omega

/-- **A pool without such a part never unseals it.** -/
theorem submit_powerless (hstorage : env.StorageWorks)
    (hlocked : LockedBy P store shares threshold pool)
    (hpowerless : ∀ sub key, Attempted pool threshold sub → combine sub = .ok key →
      ¬ IsMasterKey P.aead store key) (subs : List Share) :
    ∀ {s : VaultState}, Collecting P store threshold pool s → subs ⊆ pool →
      Collecting P store threshold pool (s.submit P env subs) := by
  induction subs with
  | nil => intro s h _; exact h
  | cons share rest ih =>
    intro s h hsub
    rw [List.cons_subset] at hsub
    rw [VaultState.submit_cons]
    cases h.step hstorage hlocked hsub.1 with
    | gathered collecting progress few => exact ih collecting hsub.2
    | unsealed attempted combined opens unsealed =>
      exact absurd opens (hpowerless _ _ attempted combined)
    | failed attempted collecting why message => exact ih collecting hsub.2

end Submitting

/-! ### The shares of a phase -/

section Pools

variable {store : Store} {K B : CipherKey} {shares : Int} {issue : Issue}

theorem Issue.Dealt.length {key : CipherKey} (h : issue.Dealt key) :
    ∀ share ∈ issue.keys, share.length = masterKeySize + 1 := by
  obtain ⟨⟨d, hd⟩, -⟩ := h
  intro share hshare
  rw [← hd] at hshare
  rw [d.length_of_mem hshare, key.property]
  rfl

/-- A quorum of an issue combines to its key. -/
theorem Issue.Dealt.combine_eq {key : CipherKey} (h : issue.Dealt key) {sub : List Share}
    (hnodup : sub.Nodup) (hsub : sub ⊆ issue.keys) (henough : issue.threshold ≤ sub.length) :
    combine sub = .ok key.val := by
  obtain ⟨⟨d, hd⟩, htwo⟩ := h
  exact d.combine_eq key.ne_nil (by omega) hnodup (by rw [hd]; exact hsub) (by omega)

theorem Issue.Dealt.combine_ok {key : CipherKey} (h : issue.Dealt key) {threshold : Int}
    (htwo : 2 ≤ threshold) {sub : List Share} (hsub : Attempted issue.keys threshold sub) :
    ∃ key, combine sub = .ok key := by
  obtain ⟨⟨d, hd⟩, -⟩ := h
  have hlength := hsub.length
  exact d.combine_ok key.ne_nil hsub.nodup (by rw [hd]; exact hsub.subset) (by omega)

/-- Any pool of shares meets a vault whose shares were issued. -/
theorem Issued.locked (h : Issued P store K B shares issue.threshold issue.keys)
    {pool : List Share} (hpool : ∀ share ∈ pool, share.length = masterKeySize + 1) :
    LockedBy P store shares issue.threshold pool := by
  have htwo := h.issue_dealt.2
  exact ⟨h.config, h.wraps.lookup_isSome, by omega, hpool⟩

theorem Issued.opens (h : Issued P store K B shares issue.threshold issue.keys) {sub : List Share}
    (hsub : Attempted issue.keys issue.threshold sub) :
    ∃ key, ∃ B : CipherKey, combine sub = .ok key ∧ OpensKeyring P.aead store key B.val :=
  ⟨K.val, B, h.issue_dealt.combine_eq hsub.nodup hsub.subset (le_of_eq hsub.length.symm),
    h.wraps.opensKeyring_iff.mpr ⟨rfl, rfl⟩⟩

theorem Issued.nodup (h : Issued P store K B shares issue.threshold issue.keys) :
    issue.keys.Nodup := by
  obtain ⟨d, hd⟩ := h.dealt
  rw [← hd]
  exact d.nodup_shares

/-- All shares together tell the key they were dealt from. -/
theorem Issued.key_eq (h : Issued P store K B shares issue.threshold issue.keys) {K' : CipherKey}
    (hdealt : issue.Dealt K') : K' = K := by
  have henough : issue.threshold ≤ issue.keys.length := by
    have hvalid := validShares_iff.mp h.valid
    rw [h.length]
    omega
  have hK := h.issue_dealt.combine_eq h.nodup (List.Subset.refl _) henough
  rw [hdealt.combine_eq h.nodup (List.Subset.refl _) henough, Except.ok.injEq] at hK
  exact Subtype.ext hK

end Pools

/-- The last issue of a history is the current one. -/
theorem Reached.issued {es : List Event} (h : Reached P env es s) {older : List Issue} {issue : Issue}
    (hissues : issues es = older ++ [issue]) :
    (∃ K B shares, Issued P s.world.store K B shares issue.threshold issue.keys) ∧
      ∀ old ∈ older, ∃ key, old.Dealt key := by
  have hphase := h.phase
  rw [hissues] at hphase
  generalize hhanded : older ++ [issue] = handed at hphase
  cases hphase with
  | empty keyring config sealed => simp at hhanded
  | stranded wraps config holds => simp at hhanded
  | issued issued holds superseded =>
    obtain ⟨rfl, hlast⟩ := List.append_inj' hhanded rfl
    cases hlast
    exact ⟨⟨_, _, _, issued⟩, superseded⟩

/-- No two draws of a master key before call `n` are the same. -/
def Env.DrawsDiffer (env : Env) (n : Nat) : Prop :=
  ∀ t < n, ∀ t' < n, t ≠ t' → env.random t masterKeySize ≠ env.random t' masterKeySize

/-- The key of an older issue is not the current one. -/
theorem Reached.superseded {es : List Event} (h : Reached P env es s) {older : List Issue}
    {issue : Issue} (hissues : issues es = older ++ [issue]) {old : Issue} (hold : old ∈ older) :
    ∃ oldKey : CipherKey, old.Dealt oldKey ∧
      (env.DrawsDiffer s.world.tick → ¬ IsMasterKey P.aead s.world.store oldKey.val) := by
  obtain ⟨⟨K, B, shares, hissued⟩, -⟩ := h.issued hissues
  obtain ⟨t, ht, hdealt, holder⟩ := (hissues ▸ h.dealt : DealtFrom env (older ++ [issue]) _).last
  obtain ⟨t', ht', hdealt'⟩ := holder old hold
  refine ⟨_, hdealt', ?_⟩
  rintro hdiffer ⟨B', hopens⟩
  have hkey := Subtype.ext (hissued.wraps.opensKeyring_iff.mp hopens).1
  rw [← hissued.key_eq hdealt] at hkey
  exact hdiffer t' (by omega) t ht (by omega) hkey

/-! ### Stored values -/

/-- The blob at `key`, which the barrier key `B` opens, in a vault that has no other key. -/
structure Keeps (P : Platform) (B : CipherKey) (key : Key) (blob : Bytes) (s : VaultState) :
    Prop where
  wraps : ∃ K, Wraps P.aead s.world.store K B
  holds : s.core.barrier.Holds B
  lookup : s.world.store.lookup key = some blob

section Values

variable {B : CipherKey} {key : Key} {blob : Bytes}

theorem Keeps.step (hkey : DataKey key) (h : Keeps P B key blob s) (call : VaultCall)
    (huntouched : ¬ (s.step P env call).Touches P key) :
    Keeps P B key blob (s.step P env call).after := by
  obtain ⟨⟨K, hw⟩, hholds, hlookup⟩ := h
  have hfresh : ∀ {p : Prop}, s.world.store.lookup keyringPath = none → p := by
    intro p hnone
    have hsome := hw.lookup_isSome
    rw [hnone] at hsome
    cases hsome
  cases (step_outcome P env (fun hnone => hfresh hnone) call).move with
  | kept store barrier =>
    refine ⟨⟨K, by rw [store]; exact hw⟩, ?_, by rw [store]; exact hlookup⟩
    intro k hk
    rcases barrier with hb | hb
    · rw [hb] at hk
      exact hholds k hk
    · rw [hb] at hk
      cases hk
  | opened store opens barrier =>
    refine ⟨⟨K, by rw [store]; exact hw⟩, ?_, by rw [store]; exact hlookup⟩
    intro k hk
    rw [barrier, Option.some.injEq] at hk
    rw [← hk]
    exact Subtype.ext (hw.opensKeyring_iff.mp opens).2
  | @stored key' dataKey others barrier touches =>
    have hne : key ≠ key' := by
      rintro rfl
      exact huntouched touches
    refine ⟨⟨K, hw.congr (others _ (dataKey.ne_of_reserved reserved_keyringPath).symm)⟩, ?_,
      (others key hne).trans hlookup⟩
    rw [barrier]
    exact hholds
  | stranded fresh => exact hfresh fresh
  | started fresh => exact hfresh fresh
  | replaced config inProgress barrier done =>
    have hB := (hw.opensKeyring_iff.mp done.opens).2
    subst hB
    refine ⟨⟨_, done.lookup_keyring⟩, ?_, (done.lookup_of_dataKey hkey).trans hlookup⟩
    rw [barrier]
    exact hholds

/-- A blob is kept by every run that does not touch its key. -/
theorem Keeps.run (hkey : DataKey key) (h : Keeps P B key blob s) (calls : List VaultCall)
    (huntouched : ∀ e ∈ s.events P env calls, ¬ e.Touches P key) :
    Keeps P B key blob (s.after P env calls) := by
  refine Run.holds
    (I := fun (es : List Event) s' => (∀ e ∈ es, ¬ e.Touches P key) → Keeps P B key blob s')
    (fun _ => h) ?_ calls huntouched
  intro es s' call ih hes
  exact (ih fun e he => hes e (by simp [he])).step hkey call (hes _ (by simp))

/-- What a read through the barrier of `s` returns. -/
def VaultState.read (P : Platform) (env : Env) (s : VaultState) (key : Key) :
    Except Err (Option Bytes) := (Act.exec env (s.core.barrier.get P.aead key) s.world).1

/-- With working storage a read finds what the barrier key opens. -/
theorem read_eq_ok (hstorage : env.StorageWorks) {k : CipherKey}
    (hk : s.core.barrier.aead = some k) {value : Bytes} :
    s.read P env key = .ok (some value) ↔
      DataKey key ∧ Barrier.Finds P.aead k s.world.store key (some value) := by
  have hspec := @Barrier.get_spec P.aead env s.world s.core.barrier key
  unfold VaultState.read
  rcases hrun : Act.exec env (s.core.barrier.get P.aead key) s.world with ⟨r, w'⟩
  constructor
  · rintro rfl
    obtain ⟨hkey, ⟨k', hk', hfinds⟩, -⟩ := hspec.of_ok hrun
    rw [hk, Option.some.injEq] at hk'
    rw [hk']
    exact ⟨hkey, hfinds⟩
  · rintro ⟨hkey, hfinds⟩
    cases r with
    | error e =>
      have hhalt := hspec.of_error hrun
      exact absurd (hhalt.faulted ⟨hkey, k, _, hk, hfinds⟩) hstorage.not_faulted
    | ok r =>
      obtain ⟨-, ⟨k', hk', hfinds'⟩, -⟩ := hspec.of_ok hrun
      rw [hk, Option.some.injEq] at hk'
      rw [← hk'] at hfinds'
      obtain ⟨blob, hlookup, hdec⟩ := hfinds
      cases r with
      | none =>
        rw [Barrier.Finds, hlookup] at hfinds'
        cases hfinds'
      | some value' =>
        obtain ⟨blob', hlookup', hdec'⟩ := hfinds'
        rw [hlookup, Option.some.injEq] at hlookup'
        rw [← hlookup', hdec, Except.ok.injEq] at hdec'
        rw [hdec']

end Values

/-! ### The seal as a whole -/

section Whole

variable {es : List Event}

/-- Only a quorum that is the master key unseals. -/
theorem Reached.unsealed_by (h : Reached P env es s) {call : VaultCall} (hsealed : s.sealed = true)
    (hopen : (s.step P env call).after.sealed = false) :
    ∃ share key, call = .unsealShare share ∧ (gather (receivedShares es) share).Nodup ∧
      Quorum P s.world.store (gather (receivedShares es) share) key ∧
      IsMasterKey P.aead s.world.store key := by
  have hstays : ∀ {b : Barrier}, (s.step P env call).after.core.barrier = b →
      b.sealed = true → ∀ {p : Prop}, p := by
    intro b hb hbs p
    have hopen' : (s.step P env call).after.core.barrier.sealed = false := hopen
    rw [hb, hbs] at hopen'
    cases hopen'
  have hbefore : s.core.barrier.sealed = true := hsealed
  cases h.move call with
  | kept store barrier =>
    rcases barrier with hb | hb
    · exact hstays hb hbefore
    · exact hstays hb rfl
  | opened store opens barrier means =>
    rcases means with hauto | ⟨share, rfl, hquorum⟩
    · have hmode : s.core.autoSeal.isSome = true := hauto
      rw [h.mode] at hmode
      cases hmode
    · refine ⟨share, _, rfl, ?_, ?_, ⟨_, opens⟩⟩
      · rw [← h.progress]
        exact nodup_gather h.nodup share
      · rw [← h.progress]
        exact hquorum
  | stored dataKey others barrier => exact hstays barrier hbefore
  | stranded fresh left =>
    rcases left.core with hcore | ⟨hauto, -⟩
    · exact hstays (congrArg Core.barrier hcore) rfl
    · have hmode : s.core.autoSeal.isSome = true := hauto
      rw [h.mode] at hmode
      cases hmode
  | started fresh started =>
    generalize hcore : (s.step P env call).after.core = c' at started
    cases started with
    | shamir mode noRecovery issued => exact hstays (congrArg Core.barrier hcore) rfl
    | auto mode noKeys recoverable =>
      have hmode : s.core.autoSeal = _ := mode
      rw [h.mode] at hmode
      cases hmode
  | replaced config inProgress barrier done => exact hstays barrier hbefore

/-- A quorum of the current shares unseals. -/
theorem Reached.quorum_unseals (hstorage : env.StorageWorks) (h : Reached P env es s)
    {older : List Issue} {issue : Issue} (hissues : issues es = older ++ [issue])
    (hsealed : s.sealed = true) (hempty : s.core.progress = []) {subs : List Share}
    (hsub : subs ⊆ issue.keys) (henough : issue.threshold ≤ subs.toFinset.card) :
    (s.submit P env subs).sealed = false := by
  obtain ⟨⟨K, B, shares, hissued⟩, -⟩ := h.issued hissues
  have htwo := hissued.issue_dealt.2
  refine submit_unseals hstorage (hissued.locked hissued.issue_dealt.length)
    (fun sub hatt => hissued.opens hatt) ⟨rfl, hsealed, h.nodup, ?_, ?_⟩ hsub henough
  · rw [hempty]
    exact List.nil_subset _
  · rw [hempty]
    exact_mod_cast (by omega : (0 : Int) < issue.threshold)

/-- Superseded shares combine to the superseded key, and that key is refused. -/
theorem Reached.superseded_refused (hstorage : env.StorageWorks) (h : Reached P env es s)
    {older : List Issue} {issue : Issue} (hissues : issues es = older ++ [issue])
    (hsealed : s.sealed = true) (hempty : s.core.progress = []) {old : Issue} {oldKey : CipherKey}
    (hold : old.Dealt oldKey) (hkey : ¬ IsMasterKey P.aead s.world.store oldKey.val)
    (hfew : issue.threshold < old.threshold → ∀ sub key, Attempted old.keys issue.threshold sub →
      combine sub = .ok key → ¬ IsMasterKey P.aead s.world.store key) {subs : List Share}
        (hsub : subs ⊆ old.keys) :
    (s.submit P env subs).sealed = true ∧
      ∀ share ∈ old.keys,
        issue.threshold ≤ (gather (s.submit P env subs).core.progress share).length →
        ((s.submit P env subs).step P env (.unsealShare share)).result
          = .error (.core .unsealFailed) := by
  obtain ⟨⟨K, B, shares, hissued⟩, -⟩ := h.issued hissues
  have htwo := hissued.issue_dealt.2
  have hlocked := hissued.locked hold.length
  have hpowerless : ∀ sub key, Attempted old.keys issue.threshold sub → combine sub = .ok key →
      ¬ IsMasterKey P.aead s.world.store key := by
    intro sub key hatt hcombine
    by_cases hlt : issue.threshold < old.threshold
    · exact hfew hlt sub key hatt hcombine
    · have hlength := hatt.length
      rw [hold.combine_eq hatt.nodup hatt.subset (by omega), Except.ok.injEq] at hcombine
      rwa [← hcombine]
  have hcollecting : Collecting P s.world.store issue.threshold old.keys s := by
    refine ⟨rfl, hsealed, h.nodup, ?_, ?_⟩
    · rw [hempty]
      exact List.nil_subset _
    · rw [hempty]
      exact_mod_cast (by omega : (0 : Int) < issue.threshold)
  have hafter := submit_powerless hstorage hlocked hpowerless subs hcollecting hsub
  refine ⟨hafter.sealed, ?_⟩
  intro share hshare henough
  cases hafter.step hstorage hlocked hshare with
  | gathered collecting progress few => omega
  | unsealed attempted combined opens unsealed =>
    exact absurd opens (hpowerless _ _ attempted combined)
  | failed attempted collecting why message =>
    obtain ⟨key, hcombine⟩ := hold.combine_ok htwo attempted
    exact message key hcombine

/-- A rekey that completes hands out the shares that were asked for, of another key. -/
theorem Reached.rekeyed (hstorage : env.StorageWorks) (h : Reached P env es s) {nonce : Bytes}
    {share : Share} {st : RekeyStatus} {err : Option Err} (hcomplete : st.complete = true)
    {e : Event} (he : s.step P env (.rekeyUpdate nonce share) = e)
    (hresult : e.result = .ok (.rekey st err)) :
    ∃ attempt, s.core.rekey = some attempt ∧ err = none ∧
      issues (es ++ [e]) = issues es ++ [⟨st.keys, attempt.newThreshold⟩] ∧
      st.keys.Nodup ∧ (st.keys.length : Int) = attempt.newShares ∧
      (env.DrawsDiffer e.after.world.tick → ∀ key, IsMasterKey P.aead s.world.store key →
        ¬ IsMasterKey P.aead e.after.world.store key) := by
  subst he
  have hissued : (s.step P env (.rekeyUpdate nonce share)).issue ≠ none := by
    have hshape : s.step P env (.rekeyUpdate nonce share)
        = ⟨s, .rekeyUpdate nonce share, (s.step P env (.rekeyUpdate nonce share)).result,
          (s.step P env (.rekeyUpdate nonce share)).after⟩ := rfl
    rw [hshape, hresult, issue_rekey, hcomplete, if_pos rfl]
    exact Option.some_ne_none _
  have hnext := h.step hstorage (.rekeyUpdate nonce share)
  cases h.move (.rekeyUpdate nonce share) with
  | kept store barrier issue => exact absurd issue hissued
  | opened store opens barrier means issue => exact absurd issue hissued
  | stored dataKey others barrier touches issue => exact absurd issue hissued
  | stranded fresh left issue => exact absurd issue hissued
  | started fresh started answer =>
    rw [hresult] at answer
    cases answer
  | replaced config inProgress barrier done issue answer drawn =>
    rw [hresult] at answer
    cases answer
    have hissues := (@Reached.issues_step P env s es _).trans (congrArg (issues es ++ ·.toList) issue)
    refine ⟨_, inProgress, done.err_eq hstorage.configWrites, hissues, ?_, ?_,
      fun hdiffer key hkey => ?_⟩
    · obtain ⟨⟨_, _, _, hnew⟩, -⟩ := hnext.issued hissues
      exact hnew.nodup
    · have hvalid := validShares_iff.mp done.valid
      rw [done.split.length]
      omega
    · -- The key before is that of the last issue, which the new one supersedes.
      obtain ⟨older, current, hcurrent⟩ := h.phase.exists_issue config
      obtain ⟨⟨K, B, _, hissued⟩, -⟩ := h.issued hcurrent
      have hcur : current ∈ issues es := by simp [hcurrent]
      obtain ⟨oldKey, hdealt, hnot⟩ := hnext.superseded hissues hcur
      obtain ⟨B', hopens⟩ := hkey
      rw [(hissued.wraps.opensKeyring_iff.mp hopens).1, ← hissued.key_eq hdealt]
      exact hnot hdiffer

/-- What was readable stays readable. -/
theorem Reached.value_kept (hstorage : env.StorageWorks) (h : Reached P env es s) {key : Key}
    {value : Bytes} (hopen : s.sealed = false) (hread : s.read P env key = .ok (some value))
    {more : List VaultCall} (huntouched : ∀ e ∈ s.events P env more, ¬ e.Touches P key)
    (hopen' : (s.after P env more).sealed = false) :
    (s.after P env more).read P env key = .ok (some value) := by
  have hunsealed : ∀ {s : VaultState}, s.sealed = false → ∃ k, s.core.barrier.aead = some k := by
    intro s hs
    exact Option.isSome_iff_exists.mp (by simpa [VaultState.sealed, Barrier.sealed] using hs)
  obtain ⟨B, hB⟩ := hunsealed hopen
  obtain ⟨hkey, blob, hlookup, hdec⟩ := (read_eq_ok hstorage hB).mp hread
  obtain ⟨K, B', hw, hholds⟩ := h.phase.wraps_of_unsealed hB
  obtain rfl := hholds B hB
  have hkept := Keeps.run hkey ⟨⟨K, hw⟩, hholds, hlookup⟩ more huntouched
  obtain ⟨k, hk⟩ := hunsealed hopen'
  obtain rfl := hkept.holds k hk
  exact (read_eq_ok hstorage hk).mpr ⟨hkey, blob, hkept.lookup, hdec⟩

end Whole

/--
**The seal of a Shamir vault, after every sequence of calls.**

  * A call unseals a sealed vault only if it supplies a share that, with the
    different shares received since the progress was last empty, reaches the stored
    threshold and combines to the key of the stored keyring.
  * From empty progress, enough different shares of the last issue unseal it.
  * A quorum of an older issue combines to the key of that issue.  Unless a key was drawn
    twice, it does not open the keyring.  Then the shares leave the vault sealed, and the
    share that reaches the threshold is refused.  When the stored threshold is below that
    of the older issue, fewer shares than a quorum are tried; they must not open it by
    chance.
  * A rekey that completes hands out as many different shares as were asked for, and
    from then on they are the last issue.  Unless a key was drawn twice, what opened the
    keyring before no longer does.
  * A value that can be read can still be read whenever the vault is unsealed later,
    unless something was written or deleted at its key.
-/
theorem seal_state_machine (P : Platform) (env : Env) (hstorage : env.StorageWorks) (ha : Bool)
    (tick : Nat) (calls : List VaultCall) :
    let es := (VaultState.blank none ha tick).events P env calls
    let s := (VaultState.blank none ha tick).after P env calls
    (∀ call, s.sealed = true → (s.step P env call).after.sealed = false →
      ∃ share key, call = .unsealShare share ∧ (gather (receivedShares es) share).Nodup ∧
        Quorum P s.world.store (gather (receivedShares es) share) key ∧
        IsMasterKey P.aead s.world.store key) ∧
    (∀ older (issue : Issue), issues es = older ++ [issue] → s.sealed = true → s.core.progress = [] →
      (∀ subs ⊆ issue.keys, issue.threshold ≤ subs.toFinset.card →
        (s.submit P env subs).sealed = false) ∧
      ∀ old ∈ older, ∃ oldKey : CipherKey,
        (∀ sub ⊆ old.keys, sub.Nodup → old.threshold ≤ sub.length →
          combine sub = .ok oldKey.val) ∧
        (env.DrawsDiffer s.world.tick → ¬ IsMasterKey P.aead s.world.store oldKey.val) ∧
        (¬ IsMasterKey P.aead s.world.store oldKey.val →
          (issue.threshold < old.threshold → ∀ sub key,
            Attempted old.keys issue.threshold sub → combine sub = .ok key →
            ¬ IsMasterKey P.aead s.world.store key) →
          ∀ subs ⊆ old.keys, (s.submit P env subs).sealed = true ∧
            ∀ share ∈ old.keys,
              issue.threshold ≤ (gather (s.submit P env subs).core.progress share).length →
              ((s.submit P env subs).step P env (.unsealShare share)).result
                = .error (.core .unsealFailed))) ∧
    (∀ nonce share st err, st.complete = true →
      (s.step P env (.rekeyUpdate nonce share)).result = .ok (.rekey st err) →
      ∃ attempt, s.core.rekey = some attempt ∧ err = none ∧
        issues (es ++ [s.step P env (.rekeyUpdate nonce share)])
          = issues es ++ [⟨st.keys, attempt.newThreshold⟩] ∧
        st.keys.Nodup ∧ (st.keys.length : Int) = attempt.newShares ∧
        (env.DrawsDiffer (s.step P env (.rekeyUpdate nonce share)).after.world.tick →
          ∀ key, IsMasterKey P.aead s.world.store key →
            ¬ IsMasterKey P.aead (s.step P env (.rekeyUpdate nonce share)).after.world.store key)) ∧
    (∀ key value, s.sealed = false → s.read P env key = .ok (some value) →
      ∀ more, (∀ e ∈ s.events P env more, ¬ e.Touches P key) →
        (s.after P env more).sealed = false →
        (s.after P env more).read P env key = .ok (some value)) := by
  intro es s
  have h : Reached P env es s := reached_run hstorage ha tick calls
  refine ⟨?_, ?_, ?_, ?_⟩
  · intro call hsealed hopen
    exact h.unsealed_by hsealed hopen
  · intro older issue hissues hsealed hempty
    refine ⟨fun subs hsub henough => h.quorum_unseals hstorage hissues hsealed hempty hsub henough, ?_⟩
    intro old hold
    obtain ⟨oldKey, hdealt, hother⟩ := h.superseded hissues hold
    refine ⟨oldKey, fun sub hsub hnodup henough => hdealt.combine_eq hnodup hsub henough, hother, ?_⟩
    intro hkey hfew subs hsub
    exact h.superseded_refused hstorage hissues hsealed hempty hdealt hkey hfew hsub
  · intro nonce share st err hcomplete hresult
    exact h.rekeyed hstorage hcomplete rfl hresult
  · intro key value hopen hread more huntouched hopen'
    exact h.value_kept hstorage hopen hread huntouched hopen'

/-! ### A vault that is rekeyed -/

/-- The shares that were handed out last. -/
def sharesOf (env : Env) (calls : List VaultCall) : List Share :=
  ((issues ((VaultState.blank none false 0).events .transparent env calls)).getLast?.map
    Issue.keys).getD []

/-- A vault is unsealed, a secret is written, and a rekey is asked for. -/
def rekeyStarted : List VaultCall :=
  [.initVault ⟨3, 2⟩] ++ ((sharesOf .counting [.initVault ⟨3, 2⟩]).take 2).map .unsealShare ++
    [.write (str "secret/a") (str "v"), .rekeyInit 3 2]

/-- The first shares are given to the rekey. -/
def rekeyShares (n : Nat) : List VaultCall :=
  let attempt := ((VaultState.blank none false 0).after .transparent .counting rekeyStarted).core.rekey
  ((sharesOf .counting rekeyStarted).take n).map (.rekeyUpdate ((attempt.map (·.nonce)).getD []))

/-- Two shares complete the rekey, and the vault is sealed. -/
def rekeyedCalls : List VaultCall := rekeyStarted ++ rekeyShares 2 ++ [.sealVault]

theorem drawsDiffer_counting {n : Nat} (hn : n ≤ 256) : Env.counting.DrawsDiffer n := by
  intro t ht t' ht' hne heq
  have hfirst : some (BitVec.ofNat 8 t) = some (BitVec.ofNat 8 t') :=
    congrArg (fun b => b.val.head?) heq
  have hmod := congrArg BitVec.toNat (Option.some.inj hfirst)
  simp only [BitVec.toNat_ofNat] at hmod
  omega

/-- The vault after these calls. -/
def rekeyedVault : VaultState := (VaultState.blank none false 0).after .transparent .counting rekeyedCalls

/-- The new shares unseal the vault and show the secret; the old ones do nothing. -/
theorem seal_state_machine_two_of_three :
    Env.counting.StorageWorks ∧ Env.counting.DrawsDiffer rekeyedVault.world.tick ∧
      issues ((VaultState.blank none false 0).events .transparent .counting rekeyedCalls)
        = [⟨sharesOf .counting rekeyStarted, 2⟩] ++ [⟨sharesOf .counting rekeyedCalls, 2⟩] ∧
      (∀ subs ⊆ sharesOf .counting rekeyStarted,
        (rekeyedVault.submit .transparent .counting subs).sealed = true) ∧
      (rekeyedVault.submit .transparent .counting ((sharesOf .counting rekeyedCalls).take 2)).sealed = false ∧
      (rekeyedVault.submit .transparent .counting ((sharesOf .counting rekeyedCalls).take 2)).read
        .transparent .counting (str "secret/a") = .ok (some (str "v")) := by
  have hstorage : Env.counting.StorageWorks := fun _ _ _ => rfl
  have hdiffer : Env.counting.DrawsDiffer rekeyedVault.world.tick :=
    drawsDiffer_counting (by decide +kernel)
  have hissues : issues ((VaultState.blank none false 0).events .transparent .counting rekeyedCalls)
      = [⟨sharesOf .counting rekeyStarted, 2⟩] ++ [⟨sharesOf .counting rekeyedCalls, 2⟩] := by decide +kernel
  obtain ⟨hnew, hold⟩ := (seal_state_machine .transparent .counting hstorage false 0 rekeyedCalls).2.1
    _ _ hissues (by decide +kernel) (by decide +kernel)
  rw [← rekeyedVault] at hnew hold
  obtain ⟨oldKey, -, hother, hrefused⟩ := hold _ (List.mem_singleton_self _)
  dsimp only at hnew hrefused
  have hold := hrefused (hother hdiffer) (fun hlt => absurd hlt (Int.lt_irrefl 2))
  have htwo : (sharesOf .counting rekeyedCalls).take 2 ⊆ sharesOf .counting rekeyedCalls :=
    List.take_subset _ _
  have hopen := hnew ((sharesOf .counting rekeyedCalls).take 2) htwo (by decide +kernel)
  exact ⟨hstorage, hdiffer, hissues, fun subs hsubs => (hold subs hsubs).1, hopen, by decide +kernel⟩

end UbixVault
