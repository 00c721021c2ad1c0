/-
Whether initialization is all or nothing when one of its calls fails.

Up to and including the write of the keyring it is: nothing has been stored, and
initializing again works.  From then on it is not.  The keyring stays, the key that
wraps it is lost with the call, and every later initialization finds the vault
initialized already.
-/
import UbixVault.Proofs.Core.Quorum

namespace UbixVault

open Program Shamir

variable {P : Platform} {env later : Env} {mode : Option AutoSeal} {ha : Bool} {cfg : InitConfig}
  {i : Nat}

/-- The shares work: they unseal the vault, or in auto mode authorise a root token. -/
def InitResult.Usable (P : Platform) (env : Env) (cfg : InitConfig) (res : InitResult)
    (s : VaultState) : Prop :=
  match s.core.autoSeal with
  | none => res.keys.length = cfg.secretShares.toNat ∧ res.keys.Nodup ∧
      ∀ subs ⊆ res.keys, cfg.secretThreshold ≤ subs.toFinset.card →
        (s.submit P env subs).sealed = false
  | some _ => res.recoveryKeys.length = cfg.secretShares.toNat ∧ res.recoveryKeys.Nodup ∧
      ∀ sub ⊆ res.recoveryKeys, sub.Nodup → cfg.secretThreshold ≤ sub.length → ∃ key stored,
        combine sub = .ok key ∧ storedConfig P s.world.store = some stored ∧
          Authorizes P s.world.store stored key

/--
An initialization that fails leaves a sealed barrier and a store on which a later
one, with any valid configuration and without failures, succeeds.
-/
def AllOrNothing (P : Platform) (env : Env) (cfg : InitConfig) (s : VaultState) : Prop :=
  ∀ e, (s.step P env (.initVault cfg)).result = .error e →
    (s.step P env (.initVault cfg)).after.sealed = true ∧
    ∀ (later : Env) (cfg' : InitConfig), later.Works →
      validShares (s.core.initConfig cfg').secretShares
        (s.core.initConfig cfg').secretThreshold = true →
      ∃ res, ((s.step P env (.initVault cfg)).after.step P later (.initVault cfg')).result
          = .ok (.init res) ∧
        res.Usable P later (s.core.initConfig cfg')
          ((s.step P env (.initVault cfg)).after.step P later (.initVault cfg')).after

/-! ### Success -/

/-- What a successful initialization of a new core hands out works. -/
theorem Started.usable (hworks : later.Works) {s : VaultState} {K B : CipherKey} {res : InitResult}
    (hcore : s.core = Core.new mode ha) {s' : VaultState}
    (h : Started P env cfg s.core K B res s'.core s'.world.store) : res.Usable P later cfg s' := by
  obtain ⟨core, world⟩ := s'
  dsimp only at h
  unfold InitResult.Usable
  rw [hcore] at h
  cases h with
  | shamir hmode noRecovery issued =>
    obtain ⟨d, hd⟩ := issued.dealt
    have hmode' : mode = none := hmode
    subst hmode'
    refine ⟨issued.length, by rw [← hd]; exact d.nodup_shares, ?_⟩
    intro subs hsub henough
    let issue : Issue := ⟨res.keys, cfg.secretThreshold⟩
    have hissued : Issued P world.store K B cfg.secretShares issue.threshold issue.keys := issued
    have htwo := hissued.issue_dealt.2
    refine submit_unseals hworks.storageWorks (hissued.locked hissued.issue_dealt.length)
      (fun sub hatt => hissued.opens hatt) ⟨rfl, rfl, List.nodup_nil, List.nil_subset _, ?_⟩
      hsub henough
    exact lt_of_lt_of_le (by decide : (0 : Int) < 2) htwo
  | @auto _ autoMode R hmode noKeys recoverable =>
    obtain ⟨d, hd⟩ := recoverable.dealt
    have hmode' : mode = some autoMode := hmode
    subst hmode'
    refine ⟨recoverable.length, by rw [← hd]; exact d.nodup_shares, ?_⟩
    intro sub hsub hnodup henough
    have hvalid := validShares_iff.mp recoverable.valid
    refine ⟨R.val, _, ?_, recoverable.config, ?_⟩
    · exact d.combine_eq R.ne_nil (by omega) hnodup (by rw [hd]; exact hsub) (by omega)
    · rfl

/-! ### Failure -/

/-- The position of the failure decides what an error has left behind. -/
theorem init_failed_cases (P : Platform) (env : Env) {s : VaultState} (hcore : s.core = Core.new mode ha)
    (hfresh : s.world.store.lookup keyringPath = none)
    (hvalid : validShares (s.core.initConfig cfg).secretShares
      (s.core.initConfig cfg).secretThreshold = true)
    (hi : i < callsToKeyring ha + callsAfterKeyring mode (s.core.initConfig cfg).secretShares)
    (hclock : i ≠ callsToKeyring ha + 2) :
    (∃ e, (s.step P (env.failAt (s.world.tick + i)) (.initVault cfg)).result = .error e) ∧
    ((i < callsToKeyring ha ∧
        (s.step P (env.failAt (s.world.tick + i)) (.initVault cfg)).after.core = s.core ∧
        (s.step P (env.failAt (s.world.tick + i)) (.initVault cfg)).after.world.store
          = s.world.store) ∨
      (callsToKeyring ha ≤ i ∧
        ((s.step P (env.failAt (s.world.tick + i)) (.initVault cfg)).after.world.store.lookup
          keyringPath).isSome)) := by
  have hha : s.core.ha = ha := by rw [hcore]; rfl
  have hmode : s.core.autoSeal = mode := by rw [hcore]; rfl
  have hsealed : s.core.barrier.sealed = true := by rw [hcore]; rfl
  -- No call succeeds at the number of the failure.
  have hloud : ¬ ∃ call, (env.failAt (s.world.tick + i)).fails (s.world.tick + i) call = false := by
    rintro ⟨call, hfails⟩
    rw [Env.failAt_fails.mpr rfl] at hfails
    cases hfails
  have hout := step_outcome P (env.failAt (s.world.tick + i)) (fun _ => hsealed) (.initVault cfg)
  generalize s.step P (env.failAt (s.world.tick + i)) (.initVault cfg) = ev at hout ⊢
  obtain ⟨before, call, result, core, world⟩ := ev
  cases hout with
  | invalidInit invalid =>
    rw [hvalid] at invalid
    cases invalid
  | init outcome answer =>
    rw [hha] at outcome
    cases outcome with
    | refused halted =>
      obtain ⟨j, hj, call, -, hfails⟩ := halted.faulted hfresh
      have hji : j = i := by
        have := Env.failAt_fails.mp hfails
        omega
      exact ⟨⟨_, answer⟩, .inl ⟨by omega, rfl, halted.store⟩⟩
    | stranded fresh left quiet faulted =>
      refine ⟨⟨_, answer⟩, .inr ⟨?_, left.wraps.lookup_isSome⟩⟩
      by_contra hlt
      exact hloud (quiet i (by omega))
    | started fresh started quiet =>
      rw [hmode] at quiet
      exact absurd (quiet i hi hclock) hloud

/-- A vault that has a keyring cannot be initialized. -/
theorem init_refused_of_keyring {s : VaultState} (hs : (s.world.store.lookup keyringPath).isSome)
    {res : InitResult} : (s.step P env (.initVault cfg)).result ≠ .ok (.init res) := by
  intro hres
  have hnot : s.world.store.lookup keyringPath ≠ none := by
    intro hnone
    rw [hnone] at hs
    cases hs
  have hout := step_outcome P env (fun hnone => absurd hnone hnot) (.initVault cfg)
  generalize s.step P env (.initVault cfg) = ev at hout hres
  obtain ⟨before, call, result, core, world⟩ := ev
  cases hout with
  | invalidInit invalid => cases hres
  | init outcome answer =>
    rw [answer] at hres
    cases outcome with
    | refused halted => cases hres
    | stranded fresh left => cases hres
    | started fresh started => exact hnot fresh

section Positions

variable {s : VaultState} (hcore : s.core = Core.new mode ha)
  (hfresh : s.world.store.lookup keyringPath = none)
  (hvalid : validShares (s.core.initConfig cfg).secretShares
    (s.core.initConfig cfg).secretThreshold = true)
  (hi : i < callsToKeyring ha + callsAfterKeyring mode (s.core.initConfig cfg).secretShares)
  (hclock : i ≠ callsToKeyring ha + 2)

include hcore hfresh hvalid hi hclock

/-- A failure up to the write of the keyring undoes the initialization. -/
theorem allOrNothing_of_lt (hlt : i < callsToKeyring ha) :
    AllOrNothing P (env.failAt (s.world.tick + i)) cfg s := by
  rintro e -
  obtain ⟨-, ⟨-, hafter, hstore⟩ | ⟨hge, -⟩⟩ :=
    init_failed_cases P env hcore hfresh hvalid hi hclock
  swap
  · omega
  generalize s.step P (env.failAt (s.world.tick + i)) (.initVault cfg) = ev at hafter hstore ⊢
  have hsealed : ev.after.sealed = true := by
    show ev.after.core.barrier.sealed = true
    rw [hafter, hcore]
    rfl
  refine ⟨hsealed, ?_⟩
  intro later cfg' hworks hvalid'
  rw [← hafter] at hvalid' ⊢
  rw [← hstore] at hfresh
  obtain ⟨res, K, B, hres, hstarted⟩ := step_init_started P hworks hfresh hsealed hvalid'
  exact ⟨res, hres, hstarted.usable hworks (hafter.trans hcore)⟩

/-- A failure after it strands the vault. -/
theorem not_allOrNothing_of_le (hle : callsToKeyring ha ≤ i) :
    ¬ AllOrNothing P (env.failAt (s.world.tick + i)) cfg s := by
  intro h
  obtain ⟨⟨e, he⟩, ⟨hlt, -⟩ | ⟨-, hsome⟩⟩ :=
    init_failed_cases P env hcore hfresh hvalid hi hclock
  · omega
  · obtain ⟨-, hlater⟩ := h e he
    obtain ⟨res, hres, -⟩ := hlater .faultless cfg (fun _ _ => rfl) hvalid
    exact init_refused_of_keyring hsome hres

end Positions

/--
**Initialization is all or nothing exactly up to the write of the keyring.**

Of the calls that a new vault's initialization makes, in either mode, let number `i`
fail; the one that reads the clock cannot.  An error then leaves the vault sealed
and open to a later initialization if and only if the failure came no later than the
write of the keyring.
-/
theorem init_all_or_nothing_iff (P : Platform) (env : Env) (mode : Option AutoSeal) (ha : Bool)
    (cfg : InitConfig) (w : World) (i : Nat) (hfresh : w.store.lookup keyringPath = none)
    (hvalid : validShares ((Core.new mode ha).initConfig cfg).secretShares
      ((Core.new mode ha).initConfig cfg).secretThreshold = true)
    (hi : i < callsToKeyring ha
      + callsAfterKeyring mode ((Core.new mode ha).initConfig cfg).secretShares)
    (hclock : i ≠ callsToKeyring ha + 2) :
    AllOrNothing P (env.failAt (w.tick + i)) cfg ⟨Core.new mode ha, w⟩ ↔
      i < callsToKeyring ha := by
  constructor
  · intro h
    by_contra hge
    exact not_allOrNothing_of_le (s := ⟨Core.new mode ha, w⟩) rfl hfresh hvalid hi hclock
      (by omega) h
  · intro hlt
    exact allOrNothing_of_lt (s := ⟨Core.new mode ha, w⟩) rfl hfresh hvalid hi hclock hlt

/-- The sixth call is the write of the keyring; when it fails, nothing has happened. -/
theorem init_all_or_nothing_keyring_write :
    AllOrNothing .transparent (Env.faultless.failAt 5) ⟨3, 2⟩ (.blank none false 0) :=
  (init_all_or_nothing_iff .transparent .faultless none false ⟨3, 2⟩ ⟨∅, 0⟩ 5
    (Finmap.lookup_empty _) (by decide) (by decide) (by decide)).mpr (by decide)

/-- The eleventh call stores the root token; when it fails, the vault is stranded. -/
theorem init_stranded_by_root_token_write :
    ¬ AllOrNothing .transparent (Env.faultless.failAt 10) ⟨3, 2⟩ (.blank none false 0) := by
  have hvalid : validShares ((VaultState.blank none false 0).core.initConfig ⟨3, 2⟩).secretShares
      ((VaultState.blank none false 0).core.initConfig ⟨3, 2⟩).secretThreshold = true := by decide
  have hstranded : ¬ AllOrNothing .transparent
      (Env.faultless.failAt ((VaultState.blank none false 0).world.tick + 10)) ⟨3, 2⟩ _ :=
    not_allOrNothing_of_le rfl (Finmap.lookup_empty _) hvalid (by decide) (by decide) (by decide)
  exact hstranded

end UbixVault
