/-
What one call of the machine can do.

`StepOutcome` collects the outcomes of the calls.  Most invariants ask less of them,
namely what became of the keyring, the configuration and the barrier; `Move` says
that, so such an invariant is one case analysis over six cases.
-/
import UbixVault.Machine
import UbixVault.Proofs.Core.RootGen
import UbixVault.Proofs.Core.Unseal

namespace UbixVault

open Program Shamir

variable {P : Platform} {env : Env} {s : VaultState}

variable {call : VaultCall} {s' : VaultState} {st : RekeyStatus} {err : Option Err}
  {attempt : RekeyAttempt} {old barrierKey : Bytes}

/-! ### Steps -/

/-- Without a keyring the barrier has nothing to be unsealed with. -/
def VaultState.Coherent (s : VaultState) : Prop :=
  s.world.store.lookup keyringPath = none → s.core.barrier.sealed = true

/-- Every way a call can end, with the state it leaves. -/
inductive StepOutcome (P : Platform) (env : Env) (s : VaultState) :
    VaultCall → Except Err Answer → VaultState → Prop
  | invalidInit {cfg : InitConfig} {e : Err}
      (invalid : validShares (s.core.initConfig cfg).secretShares
        (s.core.initConfig cfg).secretThreshold = false) :
      StepOutcome P env s (.initVault cfg) (.error e) s
  | init {cfg : InitConfig} {r : Except Err InitResult} {result : Except Err Answer}
      {c' : Core} {w' : World}
      (outcome : InitOutcome P env (callsToKeyring s.core.ha) (s.core.initConfig cfg) s.core
        s.world r c' w')
      (answer : result = r.map .init) :
      StepOutcome P env s (.initVault cfg) result ⟨c', w'⟩
  | unsealed {share : Share} {r : Except Err SealStatus} {result : Except Err Answer}
      {c' : Core} {w' : World} (outcome : UnsealOutcome P env s.core s.world share r c' w')
      (answer : result = r.map .status) :
      StepOutcome P env s (.unsealShare share) result ⟨c', w'⟩
  | sealed : StepOutcome P env s .sealVault (.ok .done) ⟨s.core.sealBarrier.resetProgress, s.world⟩
  | autoUnsealed {key : Bytes} {B : CipherKey} {w' : World}
      (mode : s.core.autoSeal.isSome) (store : w'.store = s.world.store)
      (opens : OpensKeyring P.aead s.world.store key B.val) :
      StepOutcome P env s .autoUnsealVault (.ok .done) ⟨{ s.core with barrier := ⟨some B⟩ }, w'⟩
  | autoUnsealIdle {result : Except Err Answer} {w' : World} (store : w'.store = s.world.store)
      (answer : result = .ok .done ∨ ∃ e, result = .error e) :
      StepOutcome P env s .autoUnsealVault result ⟨s.core, w'⟩
  | rekeyStarted {shares threshold : Int} {st : RekeyStatus} {w' : World}
      (store : w'.store = s.world.store)
      (config : ∃ cfg, storedConfig P s.world.store = some cfg ∧ isAutoSeal cfg.kind = false)
      (incomplete : st.complete = false) (noKeys : st.keys = []) :
      StepOutcome P env s (.rekeyInit shares threshold) (.ok (.rekey st none))
        ⟨{ s.core with rekey := some ⟨st.nonce, shares, threshold, []⟩ }, w'⟩
  | rekeyNotStarted {shares threshold : Int} {e : Err} {w' : World}
      (store : w'.store = s.world.store)
      (why : validShares shares threshold = true ∧
        (∃ cfg, storedConfig P s.world.store = some cfg ∧ isAutoSeal cfg.kind = false) ∧
        s.core.barrier.sealed = false → Faulted env 2 s.world) :
      StepOutcome P env s (.rekeyInit shares threshold) (.error e) ⟨s.core, w'⟩
  | rekeyed {nonce : Bytes} {share : Share} {r : Except Err (RekeyStatus × Option Err)}
      {result : Except Err Answer} {c' : Core} {w' : World}
      (outcome : RekeyOutcome P env s.core s.world nonce share r c' w')
      (answer : result = r.map fun p => .rekey p.1 p.2) :
      StepOutcome P env s (.rekeyUpdate nonce share) result ⟨c', w'⟩
  | rekeyCancelled : StepOutcome P env s .rekeyCancel (.ok .done) ⟨s.core.endRekey, s.world⟩
  | rootStarted {st : RootGenStatus} {w' : World} (store : w'.store = s.world.store)
      (incomplete : st.complete = false) :
      StepOutcome P env s .generateRootInit (.ok (.rootGen st))
        ⟨{ s.core with rootAttempt := some ⟨st.nonce, []⟩ }, w'⟩
  | rootNotStarted {e : Err} {w' : World} (store : w'.store = s.world.store) :
      StepOutcome P env s .generateRootInit (.error e) ⟨s.core, w'⟩
  | rootUpdated {nonce : Bytes} {share : Share} {r : Except Err RootGenStatus}
      {result : Except Err Answer} {c' : Core} {w' : World}
      (outcome : RootOutcome P env s.core s.world nonce share r c' w')
      (answer : result = r.map .rootGen) :
      StepOutcome P env s (.generateRootUpdate nonce share) result ⟨c', w'⟩
  | rootCancelled :
      StepOutcome P env s .generateRootCancel (.ok .done) ⟨s.core.endRootAttempt, s.world⟩
  | written {key : Key} {value nonce : Bytes} {k : CipherKey} {w' : World} (dataKey : DataKey key)
      (unsealed : s.core.barrier.aead = some k) (nonceLength : nonce.length = nonceSize)
      (store : w'.store = s.world.store.insert key (blobOf P.aead k nonce value key)) :
      StepOutcome P env s (.write key value) (.ok .done) ⟨s.core, w'⟩
  | notWritten {key : Key} {value : Bytes} {e : Err} {w' : World}
      (store : w'.store = s.world.store) :
      StepOutcome P env s (.write key value) (.error e) ⟨s.core, w'⟩
  | removed {key : Key} {w' : World} (dataKey : DataKey key)
      (store : w'.store = s.world.store.erase key) :
      StepOutcome P env s (.remove key) (.ok .done) ⟨s.core, w'⟩
  | notRemoved {key : Key} {e : Err} {w' : World} (store : w'.store = s.world.store) :
      StepOutcome P env s (.remove key) (.error e) ⟨s.core, w'⟩

/-- A call that runs `x` ends as `x` does. -/
private theorem step_ends {α : Type} {x : CoreM α} {g : α → Answer}
    (hperform : call.perform P = x >>= fun a => pure (g a))
    {O : Except Err Answer → VaultState → Prop}
    (hx : YieldsState env.answer x s.core s.world (fun a c w => O (.ok (g a)) ⟨c, w⟩)
      (fun e c w => O (.error e) ⟨c, w⟩)) :
    O (s.step P env call).result (s.step P env call).after := by
  have hrun := hx.outcome_holds (O := fun r c w => O (r.map g) ⟨c, w⟩)
  unfold VaultState.step
  rw [hperform, execState_bind_pure]
  exact hrun

theorem step_unsealShare (P : Platform) (env : Env) (s : VaultState) (share : Share) :
    ∃ r, UnsealOutcome P env s.core s.world share r
        (s.step P env (.unsealShare share)).after.core
        (s.step P env (.unsealShare share)).after.world ∧
      (s.step P env (.unsealShare share)).result = r.map .status :=
  step_ends (x := Core.unseal P share) (g := .status)
    (O := fun result s' => ∃ r, UnsealOutcome P env s.core s.world share r s'.core s'.world ∧
      result = r.map .status) rfl
    ((unseal_spec share).mono (fun _ _ _ h => ⟨_, h, rfl⟩) fun _ _ _ h => ⟨_, h, rfl⟩)

/-- **What a call can do.** -/
theorem step_outcome (P : Platform) (env : Env) (hs : s.Coherent) (call : VaultCall) :
    StepOutcome P env s call (s.step P env call).result (s.step P env call).after := by
  cases call with
  | initVault cfg =>
    refine step_ends (x := Core.initializeVault P cfg) rfl ((initializeVault_spec cfg hs).mono ?_ ?_)
    · rintro res c w ⟨-, hout⟩
      exact .init hout rfl
    · rintro e c w ⟨hvalid, hinvalid⟩
      by_cases hcfg : validShares (s.core.initConfig cfg).secretShares
          (s.core.initConfig cfg).secretThreshold = true
      · exact .init (hvalid hcfg) rfl
      · have hcfg' := Bool.eq_false_iff.mpr hcfg
        obtain ⟨rfl, rfl⟩ := hinvalid hcfg'
        exact .invalidInit hcfg'
  | unsealShare share =>
    obtain ⟨r, hout, hanswer⟩ := step_unsealShare P env s share
    exact .unsealed hout hanswer
  | sealVault => exact .sealed
  | autoUnsealVault =>
    refine step_ends (x := Core.autoUnseal P) (g := fun _ => .done) rfl (autoUnseal_spec.mono ?_ ?_)
    · rintro - c w ⟨hstore, hmode, rfl | ⟨key, B, hopens, rfl⟩⟩
      · exact .autoUnsealIdle hstore (.inl rfl)
      · exact .autoUnsealed hmode hstore hopens
    · rintro e c w ⟨hstore, rfl⟩
      exact .autoUnsealIdle hstore (.inr ⟨e, rfl⟩)
  | rekeyInit shares threshold =>
    refine step_ends (x := Core.rekeyInit P shares threshold) (g := fun st => .rekey st none) rfl
      ((rekeyInit_spec shares threshold).mono ?_ ?_)
    · rintro st c w ⟨hstore, -, hconfig, hincomplete, hkeys, rfl⟩
      exact .rekeyStarted hstore hconfig hincomplete hkeys
    · rintro e c w ⟨rfl, hhalt⟩
      exact .rekeyNotStarted hhalt.store hhalt.faulted
  | rekeyUpdate nonce share =>
    exact step_ends (x := Core.rekeyUpdate P nonce share) (g := fun p => .rekey p.1 p.2) rfl
      ((rekeyUpdate_spec nonce share).mono (fun _ _ _ h => .rekeyed h rfl)
        fun _ _ _ h => .rekeyed h rfl)
  | rekeyCancel => exact .rekeyCancelled
  | generateRootInit =>
    refine step_ends (x := Core.generateRootInit P) rfl (generateRootInit_spec.mono ?_ ?_)
    · rintro st c w ⟨hstore, hincomplete, rfl⟩
      exact .rootStarted hstore hincomplete
    · rintro e c w ⟨hstore, rfl⟩
      exact .rootNotStarted hstore
  | generateRootUpdate nonce share =>
    exact step_ends (x := Core.generateRootUpdate P nonce share) rfl
      ((generateRootUpdate_spec nonce share).mono (fun _ _ _ h => .rootUpdated h rfl)
        fun _ _ _ h => .rootUpdated h rfl)
  | generateRootCancel => exact .rootCancelled
  | write key value =>
    refine step_ends (x := do stateless (Barrier.put P.aead (← get).barrier key value))
      (g := fun _ => .done) rfl
      (YieldsState.get_bind (YieldsState.stateless ((Barrier.put_spec key value).mono ?_ ?_)))
    · rintro - w ⟨hkey, ⟨k, nonce, hk, hn, hstore⟩, -⟩
      exact .written hkey hk hn hstore
    · rintro e w hhalt
      exact .notWritten hhalt.store
  | remove key =>
    refine step_ends (x := do stateless (Barrier.delete (← get).barrier key))
      (g := fun _ => .done) rfl
      (YieldsState.get_bind (YieldsState.stateless ((Barrier.delete_spec key).mono ?_ ?_)))
    · rintro - w ⟨hkey, -, hstore, -⟩
      exact .removed hkey hstore
    · rintro e w hhalt
      exact .notRemoved hhalt.store

/-- Where no keyring is and no call fails, a valid initialization succeeds. -/
theorem step_init_started (P : Platform) (hworks : env.Works)
    (hfresh : s.world.store.lookup keyringPath = none)
    (hsealed : s.sealed = true) {cfg : InitConfig}
    (hvalid : validShares (s.core.initConfig cfg).secretShares
      (s.core.initConfig cfg).secretThreshold = true) :
    ∃ res K B, (s.step P env (.initVault cfg)).result = .ok (.init res) ∧
      Started P env (s.core.initConfig cfg) s.core K B res
        (s.step P env (.initVault cfg)).after.core
        (s.step P env (.initVault cfg)).after.world.store := by
  have hout := step_outcome P env (fun _ => hsealed) (.initVault cfg)
  generalize s.step P env (.initVault cfg) = e at hout ⊢
  obtain ⟨before, call, result, core, world⟩ := e
  cases hout with
  | invalidInit invalid =>
    rw [hvalid] at invalid
    cases invalid
  | init outcome answer =>
    obtain ⟨res, K, B, rfl, hstarted⟩ := outcome.started_of_works hworks hfresh
    exact ⟨res, K, B, answer, hstarted⟩

/-- The mode of a core never changes. -/
theorem StepOutcome.autoSeal_eq {result : Except Err Answer}
    (h : StepOutcome P env s call result s') : s'.core.autoSeal = s.core.autoSeal := by
  cases h with
  | init outcome answer =>
    cases outcome with
    | refused halted => rfl
    | stranded fresh left =>
      rcases left.core with hcore | ⟨-, hcore⟩
      · rw [hcore]
        rfl
      · rw [hcore]
    | started fresh started => cases started <;> rfl
  | unsealed outcome answer => cases outcome <;> rfl
  | rekeyed outcome answer => cases outcome <;> rfl
  | rootUpdated outcome answer => cases outcome <;> rfl
  | _ => rfl

/-! ### What becomes of the store and the barrier -/

/-- The shares reach the stored threshold and combine to `key`. -/
def Quorum (P : Platform) (store : Store) (shares : List Share) (key : Bytes) : Prop :=
  ∃ cfg, storedConfig P store = some cfg ∧ cfg.threshold ≤ shares.length ∧
    combine shares = .ok key

/--
What an event did to the store and the barrier, and the shares it handed out.  The
cases follow what became of the keyring: it was left alone, opened, created or
replaced.
-/
inductive Move (P : Platform) (env : Env) (e : Event) : Prop
  | kept (store : e.after.world.store = e.before.world.store)
      (barrier : e.after.core.barrier = e.before.core.barrier ∨ e.after.core.barrier = .new)
      (issue : e.issue = none)
  | opened {key : Bytes} {B : CipherKey} (store : e.after.world.store = e.before.world.store)
      (opens : OpensKeyring P.aead e.before.world.store key B.val)
      (barrier : e.after.core.barrier = ⟨some B⟩)
      (means : e.before.core.autoSeal.isSome ∨ ∃ share, e.call = .unsealShare share ∧
        Quorum P e.before.world.store (gather e.before.core.progress share) key)
      (issue : e.issue = none)
  | stored {key : Key} (dataKey : DataKey key)
      (others : ∀ path ≠ key, e.after.world.store.lookup path = e.before.world.store.lookup path)
      (barrier : e.after.core.barrier = e.before.core.barrier) (touches : e.Touches P key)
      (issue : e.issue = none)
  | stranded {K B : CipherKey} (fresh : e.before.world.store.lookup keyringPath = none)
      (left : Stranded P e.before.core e.before.world K B e.after.core e.after.world)
      (issue : e.issue = none)
  | started {cfg : InitConfig} {res : InitResult} {K B : CipherKey}
      (fresh : e.before.world.store.lookup keyringPath = none)
      (started : Started P env cfg e.before.core K B res e.after.core e.after.world.store)
      (answer : e.result = .ok (.init res)) (issue : e.issue = some ⟨res.keys, cfg.secretThreshold⟩)
      (drawn : Drawn env e.before.world e.after.world K)
  | replaced {cfg : SealConfig} {attempt : RekeyAttempt} {st : RekeyStatus} {err : Option Err}
      {old : Bytes} {K' : CipherKey} {barrierKey : Bytes}
      (config : storedConfig P e.before.world.store = some cfg)
      (inProgress : e.before.core.rekey = some attempt)
      (barrier : e.after.core.barrier = e.before.core.barrier)
      (done : Replaced P env e.before.world attempt st err old K' barrierKey e.after.world.store)
      (issue : e.issue = some ⟨st.keys, attempt.newThreshold⟩)
      (answer : e.result = .ok (.rekey st err)) (drawn : Drawn env e.before.world e.after.world K')

private theorem lookup_of_insert {store store' : Store} {key : Key} {value : Bytes}
    (h : store' = store.insert key value) (path : Key) (hpath : path ≠ key) :
    store'.lookup path = store.lookup path := by
  rw [h, Finmap.lookup_insert_of_ne _ hpath]

private theorem lookup_of_erase {store store' : Store} {key : Key} (h : store' = store.erase key)
    (path : Key) (hpath : path ≠ key) : store'.lookup path = store.lookup path := by
  rw [h, Finmap.lookup_erase_ne hpath]

theorem issue_rekey :
    Event.issue ⟨s, call, .ok (.rekey st err), s'⟩
      = if st.complete then some ⟨st.keys, st.newThreshold⟩ else none := by
  cases call <;> rfl

theorem issue_rekey_incomplete (h : st.complete = false) :
    Event.issue ⟨s, call, .ok (.rekey st err), s'⟩ = none := by
  rw [issue_rekey, h]
  rfl

/-- A rekey that went through hands out its shares, whether or not it reports an error. -/
theorem Replaced.issue_eq {w : World} {K' : CipherKey} {store' : Store}
    (h : Replaced P env w attempt st err old K' barrierKey store') :
    Event.issue ⟨s, call, .ok (.rekey st err), s'⟩ = some ⟨st.keys, attempt.newThreshold⟩ := by
  rw [issue_rekey, h.complete, if_pos rfl, h.newThreshold]

/-- Every call is a move. -/
theorem StepOutcome.move {result : Except Err Answer}
    (h : StepOutcome P env s call result s') : Move P env ⟨s, call, result, s'⟩ := by
  cases h with
  | invalidInit invalid => exact .kept rfl (.inl rfl) rfl
  | init outcome answer =>
    subst answer
    cases outcome with
    | refused halted => exact .kept halted.store (.inl rfl) rfl
    | stranded fresh left quiet faulted => exact .stranded fresh left rfl
    | started fresh started quiet drawn => exact .started fresh started rfl rfl drawn
  | unsealed outcome answer =>
    subst answer
    cases outcome with
    | refused store => exact .kept store (.inl rfl) rfl
    | already store => exact .kept store (.inl rfl) rfl
    | gathered store => exact .kept store (.inl rfl) rfl
    | unsealed store sealed config enough combined opens =>
      exact .opened store opens rfl (.inr ⟨_, rfl, _, config, enough, combined⟩) rfl
    | failed store => exact .kept store (.inl rfl) rfl
  | sealed => exact .kept rfl (.inr rfl) rfl
  | autoUnsealed mode store opens => exact .opened store opens rfl (.inl mode) rfl
  | autoUnsealIdle store answer =>
    rcases answer with rfl | ⟨e, rfl⟩
    · exact .kept store (.inl rfl) rfl
    · exact .kept store (.inl rfl) rfl
  | rekeyStarted store config incomplete =>
    exact .kept store (.inl rfl) (issue_rekey_incomplete incomplete)
  | rekeyNotStarted store => exact .kept store (.inl rfl) rfl
  | rekeyed outcome answer =>
    subst answer
    cases outcome with
    | refused store => exact .kept store (.inl rfl) rfl
    | gathered store ready few incomplete =>
      exact .kept store (.inl rfl) (issue_rekey_incomplete incomplete)
    | ended store => exact .kept store (.inl rfl) rfl
    | replaced ready enough combined done drawn =>
      exact .replaced ready.config ready.inProgress rfl done done.issue_eq rfl drawn
  | rekeyCancelled => exact .kept rfl (.inl rfl) rfl
  | rootStarted store => exact .kept store (.inl rfl) rfl
  | rootNotStarted store => exact .kept store (.inl rfl) rfl
  | rootUpdated outcome answer =>
    subst answer
    cases outcome with
    | refused store => exact .kept store (.inl rfl) rfl
    | gathered store => exact .kept store (.inl rfl) rfl
    | ended store => exact .kept store (.inl rfl) rfl
    | minted hattempt hnonce config enough combined authorized complete token root unsealed
        nonceLength store =>
        refine .stored (P.tokens.dataKey_storeKey _) (lookup_of_insert store) rfl ?_ rfl
        exact .inr (.inr ⟨_, rfl, complete, by rw [token]⟩)
  | rootCancelled => exact .kept rfl (.inl rfl) rfl
  | written dataKey unsealed nonceLength store =>
    exact .stored dataKey (lookup_of_insert store) rfl (.inl ⟨_, rfl⟩) rfl
  | notWritten store => exact .kept store (.inl rfl) rfl
  | removed dataKey store =>
    exact .stored dataKey (lookup_of_erase store) rfl (.inr (.inl rfl)) rfl
  | notRemoved store => exact .kept store (.inl rfl) rfl

/-- The keyring after a rekey holds what the old one held. -/
theorem Replaced.lookup_keyring {w : World} {K' : CipherKey} {store' : Store}
    (h : Replaced P env w attempt st err old K' barrierKey store') :
    ∃ nonce, nonce.length = nonceSize ∧
      store'.lookup keyringPath = some (blobOf P.aead K' nonce barrierKey keyringPath) := by
  obtain ⟨nonce, hn, hwrite⟩ := h.stored
  refine ⟨nonce, hn, ?_⟩
  have hlookup : (rewrapped P w.store K' nonce barrierKey).lookup keyringPath
      = some (blobOf P.aead K' nonce barrierKey keyringPath) := Finmap.lookup_insert _
  cases hwrite with
  | written passed => rwa [Finmap.lookup_insert_of_ne _ sealConfigPath_ne_keyringPath.symm]
  | failed failed => exact hlookup

/-- A rekey touches two records. -/
theorem Replaced.lookup_of_dataKey {w : World} {K' : CipherKey} {store' : Store}
    (h : Replaced P env w attempt st err old K' barrierKey store') {key : Key}
    (hkey : DataKey key) : store'.lookup key = w.store.lookup key := by
  obtain ⟨nonce, -, hwrite⟩ := h.stored
  have hlookup : (rewrapped P w.store K' nonce barrierKey).lookup key = w.store.lookup key :=
    Finmap.lookup_insert_of_ne _ (hkey.ne_of_reserved reserved_keyringPath)
  cases hwrite with
  | written passed =>
    rwa [Finmap.lookup_insert_of_ne _ (hkey.ne_of_reserved reserved_sealConfigPath)]
  | failed failed => exact hlookup

theorem Started.lookup_isSome {cfg : InitConfig} {c c' : Core} {K B : CipherKey}
    {res : InitResult} {store : Store} (h : Started P env cfg c K B res c' store) :
    (store.lookup keyringPath).isSome := by
  cases h with
  | shamir mode noRecovery issued => exact issued.wraps.lookup_isSome
  | auto mode noKeys recoverable => exact recoverable.wraps.lookup_isSome

/-- The keyring is never lost. -/
theorem Move.fresh_of_fresh {e : Event} (h : Move P env e)
    (hnone : e.after.world.store.lookup keyringPath = none) :
    e.before.world.store.lookup keyringPath = none := by
  cases h with
  | kept store barrier => rwa [store] at hnone
  | opened store opens => rwa [store] at hnone
  | stored dataKey others barrier =>
    rwa [others _ (dataKey.ne_of_reserved reserved_keyringPath).symm] at hnone
  | stranded fresh left => exact fresh
  | started fresh started => exact fresh
  | replaced config inProgress barrier done =>
    obtain ⟨nonce, -, hlookup⟩ := done.lookup_keyring
    rw [hnone] at hlookup
    cases hlookup

theorem Move.coherent {e : Event} (h : Move P env e) (hs : e.before.Coherent) :
    e.after.Coherent := by
  intro hnone
  have hbefore := hs (h.fresh_of_fresh hnone)
  cases h with
  | kept store barrier =>
    rcases barrier with hb | hb
    · rw [hb]
      exact hbefore
    · rw [hb]
      rfl
  | opened store opens =>
    rw [store] at hnone
    exact absurd ⟨_, opens⟩ (not_isMasterKey_of_lookup hnone)
  | stored dataKey others barrier =>
    rw [barrier]
    exact hbefore
  | stranded fresh left =>
    have hsome := left.wraps.lookup_isSome
    rw [hnone] at hsome
    cases hsome
  | started fresh started =>
    have hsome := started.lookup_isSome
    rw [hnone] at hsome
    cases hsome
  | replaced config inProgress barrier done =>
    rw [barrier]
    exact hbefore

end UbixVault
