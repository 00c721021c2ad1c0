/-
Root regeneration, over every history of calls and every pattern of failures.

An attempt lives in the core between its start and the call that ends it.  While it
does, the nonce and the shares it holds are the ones the history shows.  The stored
configuration tells the mode the vault was initialized in, and in auto mode its
hash is that of the recovery key whose shares initialization handed out.
-/
import UbixVault.Proofs.Core.Quorum

namespace UbixVault

open Program Shamir

variable {P : Platform} {env : Env} {s : VaultState} {es : List Event}

/-! ### The configuration tells the mode -/

/-- The result of an initialization of the history. -/
def InitializedWith (es : List Event) (res : InitResult) : Prop :=
  ∃ e ∈ es, e.result = .ok (.init res)

theorem initializedWith_append {e : Event} {res : InitResult} :
    InitializedWith (es ++ [e]) res ↔ InitializedWith es res ∨ e.result = .ok (.init res) := by
  simp [InitializedWith, or_and_right, exists_or]

/-- A configuration that fits the mode and the one initialization of the history. -/
structure ConfigFits (P : Platform) (es : List Event) (mode : Option AutoSeal) (cfg : SealConfig) :
    Prop where
  kind : isAutoSeal cfg.kind = mode.isSome
  recovery : mode.isSome → ∃ res key, (∀ res', InitializedWith es res' ↔ res' = res) ∧
    combine res.recoveryKeys = .ok key ∧ cfg.recoveryHash = P.sha256.sum key

theorem ConfigFits.append {mode : Option AutoSeal} {cfg : SealConfig}
    (h : ConfigFits P es mode cfg) {e : Event} (he : ∀ res, e.result ≠ .ok (.init res)) :
    ConfigFits P (es ++ [e]) mode cfg := by
  refine ⟨h.kind, ?_⟩
  intro hmode
  obtain ⟨res, key, honly, hcombine, hhash⟩ := h.recovery hmode
  refine ⟨res, key, ?_, hcombine, hhash⟩
  intro res'
  rw [initializedWith_append, honly]
  exact or_iff_left (he res')

/-- A rekey writes a Shamir configuration or leaves the one there was. -/
theorem Replaced.storedConfig_cases {w : World} {attempt : RekeyAttempt} {st : RekeyStatus}
    {err : Option Err} {old barrierKey : Bytes} {K' : CipherKey} {store' : Store}
    (h : Replaced P env w attempt st err old K' barrierKey store') :
    storedConfig P store' = some (shamirConfig attempt.newShares attempt.newThreshold) ∨
      storedConfig P store' = storedConfig P w.store := by
  obtain ⟨nonce, -, hwrite⟩ := h.stored
  cases hwrite with
  | written passed => exact .inl (storedConfig_insert _ _)
  | failed failed => exact .inr (storedConfig_insert_of_ne sealConfigPath_ne_keyringPath.symm _)

/-- The shares of a recovery key combine to it. -/
theorem Recoverable.combine_eq {store : Store} {K B R : CipherKey} {mode : AutoSeal}
    {shares threshold : Int} {keys : List Share}
    (h : Recoverable P env store K B R mode shares threshold keys) :
    combine keys = .ok R.val := by
  obtain ⟨d, rfl⟩ := h.dealt
  have hvalid := validShares_iff.mp h.valid
  have hlength := h.length
  exact d.combine_eq R.ne_nil (by omega) d.nodup_shares (List.Subset.refl _) (by omega)

/-- A new configuration fits the mode it was written in; others are as before. -/
theorem Move.configFits {e : Event} (h : Move P env e)
    (hfresh : e.before.world.store.lookup keyringPath = none → ∀ res, ¬ InitializedWith es res)
    (hinit : ∀ res, e.result = .ok (.init res) → e.issue ≠ none)
    (hconfig : ∀ cfg, storedConfig P e.before.world.store = some cfg →
      ConfigFits P es e.before.core.autoSeal cfg)
    (hrekey : e.before.core.rekey.isSome → e.before.core.autoSeal = none) :
    ∀ cfg, storedConfig P e.after.world.store = some cfg →
      ConfigFits P (es ++ [e]) e.before.core.autoSeal cfg := by
  intro cfg hcfg
  have hsame : storedConfig P e.after.world.store = storedConfig P e.before.world.store →
      (∀ res, e.result ≠ .ok (.init res)) →
      ConfigFits P (es ++ [e]) e.before.core.autoSeal cfg := by
    intro heq he
    rw [heq] at hcfg
    exact (hconfig cfg hcfg).append he
  have hshamir : ∀ {shares threshold : Int}, e.before.core.autoSeal = none →
      cfg = shamirConfig shares threshold →
      ConfigFits P (es ++ [e]) e.before.core.autoSeal cfg := by
    rintro shares threshold hmode rfl
    rw [hmode]
    exact ⟨rfl, fun hsome => (by cases hsome)⟩
  cases h with
  | kept store barrier issue => exact hsame (by rw [store]) fun res hr => hinit res hr issue
  | opened store opens barrier means issue =>
    exact hsame (by rw [store]) fun res hr => hinit res hr issue
  | stored dataKey others barrier touches issue =>
    exact hsame (storedConfig_congr
      (others _ (dataKey.ne_of_reserved reserved_sealConfigPath).symm))
      fun res hr => hinit res hr issue
  | stranded fresh left issue =>
    exact hsame (storedConfig_congr left.config) fun res hr => hinit res hr issue
  | @started cfg₀ res K B fresh started answer issue =>
    generalize e.after.core = c' at started
    cases started with
    | shamir mode noRecovery issued =>
      rw [issued.config, Option.some.injEq] at hcfg
      exact hshamir mode hcfg.symm
    | auto mode noKeys recoverable =>
      rw [recoverable.config, Option.some.injEq] at hcfg
      rw [mode, ← hcfg]
      refine ⟨rfl, fun _ => ⟨res, _, ?_, recoverable.combine_eq, rfl⟩⟩
      intro res'
      rw [initializedWith_append, answer]
      constructor
      · rintro (h | h)
        · exact absurd h (hfresh fresh res')
        · cases h
          rfl
      · rintro rfl
        exact .inr rfl
  | replaced config inProgress barrier done issue =>
    have hmode := hrekey (by rw [inProgress]; rfl)
    rcases done.storedConfig_cases with hnew | hold
    · rw [hnew, Option.some.injEq] at hcfg
      exact hshamir hmode hcfg.symm
    · rw [hold] at hcfg
      have hfits := hconfig cfg hcfg
      rw [hmode] at hfits ⊢
      exact ⟨hfits.kind, fun hsome => (by cases hsome)⟩

/-! ### The attempt in force -/

/-- The attempt, if there is one, holds what was received. -/
def AttemptFits (received : Bytes × List Share) (c : Core) : Prop :=
  ∀ attempt, c.rootAttempt = some attempt →
    attempt.nonce = received.1 ∧ attempt.progress = received.2 ∧ attempt.progress.Nodup

/-- What a call does to the two attempts. -/
structure Attempts (P : Platform) (e : Event) : Prop where
  rekey : e.after.core.rekey.isSome → e.before.core.rekey.isSome ∨
    ∃ cfg, storedConfig P e.before.world.store = some cfg ∧ isAutoSeal cfg.kind = false
  root : ∀ received, AttemptFits received e.before.core →
    AttemptFits (receiveRoot received e) e.after.core
  /-- Only one call starts a root generation. -/
  starts : e.call ≠ .generateRootInit → e.before.core.rootAttempt = none →
    e.after.core.rootAttempt = none

/-- A call that touches no attempt. -/
private theorem Attempts.of_kept {e : Event} (hrekey : e.after.core.rekey = e.before.core.rekey)
    (hroot : e.after.core.rootAttempt = e.before.core.rootAttempt)
    (hreceive : ∀ received, receiveRoot received e = received) : Attempts P e := by
  refine ⟨?_, ?_, ?_⟩
  · rw [hrekey]
    exact .inl
  · intro received hfits
    rw [hreceive]
    unfold AttemptFits
    rw [hroot]
    exact hfits
  · intro _ hnone
    exact hroot.trans hnone

theorem StepOutcome.attempts {call : VaultCall} {result : Except Err Answer} {s' : VaultState}
    (h : StepOutcome P env s call result s') : Attempts P ⟨s, call, result, s'⟩ := by
  cases h with
  | init outcome answer =>
    cases outcome with
    | refused halted => exact .of_kept rfl rfl fun _ => rfl
    | stranded fresh left =>
      rcases left.core with hcore | ⟨-, hcore⟩
      · subst hcore
        exact .of_kept rfl rfl fun _ => rfl
      · subst hcore
        exact .of_kept rfl rfl fun _ => rfl
    | started fresh started => cases started <;> exact .of_kept rfl rfl fun _ => rfl
  | unsealed outcome answer => cases outcome <;> exact .of_kept rfl rfl fun _ => rfl
  | rekeyStarted store config incomplete =>
    exact ⟨fun _ => .inr config, fun _ hfits => hfits, fun _ hnone => hnone⟩
  | rekeyed outcome answer =>
    cases outcome with
    | refused store => exact .of_kept rfl rfl fun _ => rfl
    | gathered store ready =>
      exact ⟨fun _ => .inl (by rw [ready.inProgress]; rfl), fun _ hfits => hfits,
        fun _ hnone => hnone⟩
    | ended store => exact ⟨fun h => (by cases h), fun _ hfits => hfits, fun _ hnone => hnone⟩
    | replaced ready => exact ⟨fun h => (by cases h), fun _ hfits => hfits, fun _ hnone => hnone⟩
  | rekeyCancelled => exact ⟨fun h => (by cases h), fun _ hfits => hfits, fun _ hnone => hnone⟩
  | rootStarted store incomplete =>
    refine ⟨.inl, ?_, fun hcall => absurd rfl hcall⟩
    rintro received - attempt hattempt
    cases hattempt
    exact ⟨rfl, rfl, List.nodup_nil⟩
  | @rootUpdated nonce share _ _ _ _ outcome answer =>
    subst answer
    cases outcome with
    | refused store => exact .of_kept rfl rfl fun _ => rfl
    | @gathered st w' attempt store hattempt hnonce incomplete =>
      refine ⟨.inl, ?_, fun _ hnone => ?_⟩
      · rintro ⟨nonce', received⟩ hfits attempt' hattempt'
        cases hattempt'
        obtain ⟨hn, hp, hnodup⟩ := hfits attempt hattempt
        refine ⟨hn, ?_, nodup_gather hnodup share⟩
        show gather attempt.progress share
          = if nonce = nonce' then gather received share else received
        rw [if_pos (hnonce.trans hn), hp]
      · rw [hnone] at hattempt
        cases hattempt
    | ended store => exact ⟨.inl, fun _ _ _ h => (by cases h), fun _ _ => rfl⟩
    | minted hattempt => exact ⟨.inl, fun _ _ _ h => (by cases h), fun _ _ => rfl⟩
  | rootCancelled => exact ⟨.inl, fun _ _ _ h => (by cases h), fun _ _ => rfl⟩
  | _ => exact .of_kept rfl rfl fun _ => rfl

/-! ### Every history -/

/-- What holds of any vault after the events `es`. -/
structure RootReached (P : Platform) (mode : Option AutoSeal) (es : List Event) (s : VaultState) :
    Prop where
  coherent : s.Coherent
  fresh : s.world.store.lookup keyringPath = none → ∀ res, ¬ InitializedWith es res
  autoSeal : s.core.autoSeal = mode
  config : ∀ cfg, storedConfig P s.world.store = some cfg → ConfigFits P es mode cfg
  rekey : s.core.rekey.isSome → mode = none
  attempt : AttemptFits (receivedRootShares es) s.core

private theorem map_ne {α : Type} {r : Except Err α} {g : α → Answer} {answer : Answer}
    (h : ∀ a, answer ≠ g a) : (.ok answer : Except Err Answer) ≠ r.map g := by
  cases r with
  | error e => rintro ⟨⟩
  | ok a => exact fun hr => h a (Except.ok.inj hr)

/-- A successful initialization leaves a keyring and hands out its shares. -/
theorem StepOutcome.of_init {call : VaultCall} {result : Except Err Answer} {s' : VaultState}
    (h : StepOutcome P env s call result s') {res : InitResult}
    (hres : result = .ok (.init res)) :
    Event.issue ⟨s, call, result, s'⟩ ≠ none ∧ (s'.world.store.lookup keyringPath).isSome := by
  cases h with
  | init outcome answer =>
    subst answer
    cases outcome with
    | refused halted => cases hres
    | stranded fresh left => cases hres
    | started fresh started => exact ⟨fun h => (by cases h), started.lookup_isSome⟩
  | unsealed outcome answer =>
    rw [hres] at answer
    exact absurd answer (map_ne fun _ => by rintro ⟨⟩)
  | rekeyed outcome answer =>
    rw [hres] at answer
    exact absurd answer (map_ne fun _ => by rintro ⟨⟩)
  | rootUpdated outcome answer =>
    rw [hres] at answer
    exact absurd answer (map_ne fun _ => by rintro ⟨⟩)
  | autoUnsealIdle store answer =>
    rcases answer with rfl | ⟨e, rfl⟩
    · cases hres
    · cases hres
  | _ => cases hres

theorem RootReached.step {mode : Option AutoSeal} (h : RootReached P mode es s)
    (call : VaultCall) :
    RootReached P mode (es ++ [s.step P env call]) (s.step P env call).after := by
  have hout := step_outcome P env h.coherent call
  have hattempts : Attempts P (s.step P env call) := hout.attempts
  have hmove : Move P env (s.step P env call) := hout.move
  obtain ⟨hcoherent, hfresh, rfl, hconfig, hrekey, hattempt⟩ := h
  refine ⟨hmove.coherent hcoherent, ?_, hout.autoSeal_eq,
    hmove.configFits hfresh (fun res hres => (hout.of_init hres).1) hconfig hrekey, ?_, ?_⟩
  · intro hnone res hres
    rcases initializedWith_append.mp hres with hbefore | hnow
    · exact hfresh (hmove.fresh_of_fresh hnone) res hbefore
    · have hsome := (hout.of_init hnow).2
      rw [hnone] at hsome
      cases hsome
  · intro hsome
    rcases hattempts.rekey hsome with hbefore | ⟨cfg, hcfg, hshamir⟩
    · exact hrekey hbefore
    · have hkind := (hconfig cfg hcfg).kind
      rw [hshamir] at hkind
      exact Option.isNone_iff_eq_none.mp (Option.isSome_eq_false_iff.mp hkind.symm)
  · unfold receivedRootShares
    rw [List.foldl_append]
    exact hattempts.root _ hattempt

theorem rootReached_run (P : Platform) (env : Env) (mode : Option AutoSeal) (ha : Bool)
    (tick : Nat) (calls : List VaultCall) :
    RootReached P mode ((VaultState.blank mode ha tick).events P env calls)
      ((VaultState.blank mode ha tick).after P env calls) := by
  refine Run.holds ?_ (fun es s call h => h.step call) calls
  refine ⟨fun _ => rfl, ?_, rfl, ?_, fun h => (by cases h), fun _ h => (by cases h)⟩
  · rintro - res ⟨e, he, -⟩
    cases he
  · intro cfg hcfg
    have hnone : storedConfig P (VaultState.blank mode ha tick).world.store = none :=
      storedConfig_of_lookup (Finmap.lookup_empty _)
    rw [hnone] at hcfg
    cases hcfg

/-! ### What completing an attempt takes -/

/-- One root token is stored through the barrier, and nothing else changes. -/
def StoresRoot (P : Platform) (b : Barrier) (id : Bytes) (store store' : Store) : Prop :=
  ∃ (t : Token) (k : CipherKey) (nonce : Bytes), t.isRoot = true ∧ t.id = id ∧
    b.aead = some k ∧ nonce.length = nonceSize ∧
    store' = store.insert (P.tokens.storeKey id)
      (blobOf P.aead k nonce (P.tokenJson.marshal t) (P.tokens.storeKey id))

/-- What a call that completes a root generation was given and did. -/
structure Completes (P : Platform) (e : Event) (nonce : Bytes) (share : Share) (st : RootGenStatus)
    (attempt : RootGen) (key : Bytes) : Prop where
  call : e.call = .generateRootUpdate nonce share
  result : e.result = .ok (.rootGen st)
  inForce : e.before.core.rootAttempt = some attempt
  nonce : nonce = attempt.nonce
  quorum : Quorum P e.before.world.store (gather attempt.progress share) key
  authorized : ∃ cfg, storedConfig P e.before.world.store = some cfg ∧
    Authorizes P e.before.world.store cfg key
  ended : e.after.core.rootAttempt = none
  stored : StoresRoot P e.before.core.barrier st.rootToken e.before.world.store e.after.world.store

theorem StepOutcome.completes {call : VaultCall} {result : Except Err Answer} {s' : VaultState}
    (h : StepOutcome P env s call result s') (hmints : Event.Mints ⟨s, call, result, s'⟩) :
    ∃ nonce share st attempt key,
      Completes P ⟨s, call, result, s'⟩ nonce share st attempt key := by
  obtain ⟨st, hst, hcomplete⟩ := hmints
  have hst' : result = .ok (.rootGen st) := hst
  cases h with
  | init outcome answer =>
    rw [hst'] at answer
    exact absurd answer (map_ne fun _ => by rintro ⟨⟩)
  | unsealed outcome answer =>
    rw [hst'] at answer
    exact absurd answer (map_ne fun _ => by rintro ⟨⟩)
  | rekeyed outcome answer =>
    rw [hst'] at answer
    exact absurd answer (map_ne fun _ => by rintro ⟨⟩)
  | autoUnsealIdle store answer =>
    rcases answer with rfl | ⟨e, rfl⟩
    · cases hst'
    · cases hst'
  | rootStarted store incomplete =>
    cases hst'
    rw [incomplete] at hcomplete
    cases hcomplete
  | rootUpdated outcome answer =>
    subst answer
    cases outcome with
    | refused store => cases hst'
    | ended store => cases hst'
    | gathered store hattempt hnonce incomplete =>
      cases hst'
      rw [incomplete] at hcomplete
      cases hcomplete
    | minted hattempt hnonce config enough combined authorized complete token root unsealed
        nonceLength store =>
        rw [← token] at store
        exact ⟨_, _, _, _, _, rfl, rfl, hattempt, hnonce, ⟨_, config, enough, combined⟩,
          ⟨_, config, authorized⟩, rfl, _, _, _, root, token.symm, unsealed, nonceLength, store⟩
  | _ => cases hst'

/-- After an attempt has ended, none is completed before another one is started. -/
theorem no_mint_run (more : List VaultCall) (hmore : .generateRootInit ∉ more) :
    ∀ {s : VaultState}, s.Coherent → s.core.rootAttempt = none →
      ∀ e ∈ s.events P env more, ¬ e.Mints := by
  induction more with
  | nil => rintro s - - e ⟨⟩
  | cons call rest ih =>
    rintro s hs hnone e he
    rw [List.mem_cons, not_or] at hmore
    have hout := step_outcome P env hs call
    rcases List.mem_cons.mp he with rfl | he
    · intro hmints
      obtain ⟨nonce, share, st, attempt, key, hc⟩ := hout.completes hmints
      have hforce : s.core.rootAttempt = some attempt := hc.inForce
      rw [hnone] at hforce
      cases hforce
    · exact ih hmore.2 (hout.move.coherent hs)
        (hout.attempts.starts (fun h => hmore.1 h.symm) hnone) e he

/-- An update that does not complete its attempt stores nothing. -/
theorem store_of_not_mints (hs : s.Coherent) {nonce : Bytes} {share : Share}
    (hmints : ¬ (s.step P env (.generateRootUpdate nonce share)).Mints) :
    (s.step P env (.generateRootUpdate nonce share)).after.world.store = s.world.store := by
  have hout := step_outcome P env hs (.generateRootUpdate nonce share)
  generalize s.step P env (.generateRootUpdate nonce share) = e at hout hmints ⊢
  obtain ⟨before, call, result, core, world⟩ := e
  cases hout with
  | rootUpdated outcome answer =>
    cases outcome with
    | refused store => exact store
    | gathered store => exact store
    | ended store => exact store
    | minted hattempt hnonce config enough combined authorized complete =>
      exact absurd ⟨_, answer, complete⟩ hmints

/-- The key that completes an attempt is the master key, or the recovery key in auto mode. -/
theorem RootReached.key_cases {mode : Option AutoSeal} (h : RootReached P mode es s)
    {cfg : SealConfig} {key : Bytes} (hcfg : storedConfig P s.world.store = some cfg)
    (hauth : Authorizes P s.world.store cfg key) :
    (mode = none → IsMasterKey P.aead s.world.store key) ∧
      (mode.isSome → ∃ res, (∀ res', InitializedWith es res' ↔ res' = res) ∧
        combine res.recoveryKeys = .ok key) := by
  have hfits := h.config cfg hcfg
  unfold Authorizes at hauth
  rw [hfits.kind] at hauth
  constructor
  · rintro rfl
    simpa using hauth
  · intro hmode
    rw [if_pos hmode] at hauth
    obtain ⟨res, recoveryKey, honly, hcombine, hhash⟩ := hfits.recovery hmode
    rw [hhash] at hauth
    rw [P.sha256.sum_injective hauth]
    exact ⟨res, honly, hcombine⟩

/--
**Regenerating the root token needs a quorum**, after every sequence of calls, in
either mode and whatever fails.

A call mints a token only if it supplies a share to the attempt last started, under
its nonce, and the different shares this attempt has received reach the stored
threshold.  They combine to the key of the stored keyring, or in auto mode to the
recovery key of the one initialization there was.  The call stores one root token
and ends the attempt, and no call mints another before the next attempt is started.
An update that does not mint stores nothing.
-/
theorem root_generation_needs_quorum (P : Platform) (env : Env) (mode : Option AutoSeal) (ha : Bool)
    (tick : Nat) (calls : List VaultCall) :
    let es := (VaultState.blank mode ha tick).events P env calls
    let s := (VaultState.blank mode ha tick).after P env calls
    (∀ call, (s.step P env call).Mints →
      ∃ nonce share st key, call = .generateRootUpdate nonce share ∧
        (s.step P env call).result = .ok (.rootGen st) ∧
        nonce = (receivedRootShares es).1 ∧
        (gather (receivedRootShares es).2 share).Nodup ∧
        Quorum P s.world.store (gather (receivedRootShares es).2 share) key ∧
        (mode = none → IsMasterKey P.aead s.world.store key) ∧
        (mode.isSome → ∃ res, (∀ res', InitializedWith es res' ↔ res' = res) ∧
          combine res.recoveryKeys = .ok key) ∧
        StoresRoot P s.core.barrier st.rootToken s.world.store
          (s.step P env call).after.world.store ∧
        (s.step P env call).after.core.rootAttempt = none ∧
        ∀ more, .generateRootInit ∉ more →
          ∀ e ∈ (s.step P env call).after.events P env more, ¬ e.Mints) ∧
    (∀ nonce share, ¬ (s.step P env (.generateRootUpdate nonce share)).Mints →
      (s.step P env (.generateRootUpdate nonce share)).after.world.store = s.world.store) := by
  intro es s
  have h : RootReached P mode es s := rootReached_run P env mode ha tick calls
  refine ⟨?_, fun nonce share hmints => store_of_not_mints h.coherent hmints⟩
  intro call hmints
  have hout := step_outcome P env h.coherent call
  obtain ⟨nonce, share, st, attempt, key, hc⟩ := hout.completes hmints
  obtain ⟨hnonce, hprogress, hnodup⟩ := h.attempt attempt hc.inForce
  obtain ⟨cfg, hcfg, hauth⟩ := hc.authorized
  obtain ⟨hshamir, hauto⟩ := h.key_cases hcfg hauth
  refine ⟨nonce, share, st, key, hc.call, hc.result, hc.nonce.trans hnonce, ?_, ?_, hshamir, hauto,
    hc.stored, hc.ended, ?_⟩
  · rw [← hprogress]
    exact nodup_gather hnodup share
  · rw [← hprogress]
    exact hc.quorum
  · intro more hmore
    exact no_mint_run more hmore (hout.move.coherent h.coherent) hc.ended

/-! ### A token that is minted -/

instance decidableMints (e : Event) : Decidable e.Mints :=
  decidable_of_iff ((match e.result with
      | .ok (.rootGen st) => st.complete
      | _ => false) = true) (by
    unfold Event.Mints
    split <;> simp_all)

/-- A vault is unsealed, and the first of two shares is given to a root generation. -/
def rootStarted : List VaultCall :=
  let shares := sharesOf .counting [.initVault ⟨3, 2⟩]
  let started := [.initVault ⟨3, 2⟩] ++ (shares.take 2).map .unsealShare ++ [.generateRootInit]
  let attempt := ((VaultState.blank none false 0).after .transparent .counting started).core.rootAttempt
  started ++ (shares.take 1).map (.generateRootUpdate ((attempt.map (·.nonce)).getD []))

/-- The second share mints a token, and both together are the master key. -/
theorem root_generation_needs_quorum_two_shares :
    ∃ nonce share key,
      (((VaultState.blank none false 0).after .transparent .counting rootStarted).step .transparent
        .counting (.generateRootUpdate nonce share)).Mints ∧
      Quorum .transparent
        ((VaultState.blank none false 0).after .transparent .counting rootStarted).world.store
        (gather (receivedRootShares
          ((VaultState.blank none false 0).events .transparent .counting rootStarted)).2 share) key ∧
      IsMasterKey Platform.transparent.aead
        ((VaultState.blank none false 0).after .transparent .counting rootStarted).world.store key := by
  have hneeds := (root_generation_needs_quorum .transparent .counting none false 0 rootStarted).1
  have hmints : ∃ nonce share,
      (((VaultState.blank none false 0).after .transparent .counting rootStarted).step .transparent
        .counting (.generateRootUpdate nonce share)).Mints :=
    ⟨(receivedRootShares ((VaultState.blank none false 0).events .transparent .counting rootStarted)).1,
      ((sharesOf .counting [.initVault ⟨3, 2⟩]).drop 1).headD [], by decide +kernel⟩
  obtain ⟨nonce, share, hmints⟩ := hmints
  obtain ⟨_, _, _, key, hcall, -, -, -, hquorum, hkey, -⟩ := hneeds _ hmints
  cases hcall
  exact ⟨nonce, share, key, hmints, hquorum, hkey rfl⟩

end UbixVault
