/-
What a share supplied to a rekey attempt can do.

A rekey is committed by two writes, the keyring and then the configuration.
`RekeyOutcome.replaced` is the case in which the first one took effect, and it
keeps apart whether the second did; every other case stored nothing.  The number
of calls before the second write depends only on the number of new shares.
-/
import UbixVault.Proofs.Core.Init

namespace UbixVault

open Program Shamir

variable {P : Platform} {env : Env} {w : World} {c : Core}

/-- A share for an attempt that is in progress, in an unsealed vault. -/
structure RekeyShare (P : Platform) (c : Core) (w : World) (nonce : Bytes) (share : Share)
    (attempt : RekeyAttempt) (cfg : SealConfig) : Prop where
  length : share.length = masterKeySize + 1
  inProgress : c.rekey = some attempt
  nonce : nonce = attempt.nonce
  config : storedConfig P w.store = some cfg
  unsealed : c.barrier.sealed = false

theorem RekeyShare.unique {nonce : Bytes} {share : Share} {attempt attempt' : RekeyAttempt}
    {cfg cfg' : SealConfig} (h : RekeyShare P c w nonce share attempt cfg)
    (h' : RekeyShare P c w nonce share attempt' cfg') : attempt = attempt' ∧ cfg = cfg' :=
  ⟨Option.some.inj (h.inProgress.symm.trans h'.inProgress),
    Option.some.inj (h.config.symm.trans h'.config)⟩

/-- How many calls a completing update makes before it writes the configuration. -/
def callsToConfig (newShares : Int) : Nat := newShares.toNat + 38

/-- The store after the keyring has been rewrapped. -/
def rewrapped (P : Platform) (store : Store) (K' : CipherKey) (nonce barrierKey : Bytes) : Store :=
  store.insert keyringPath (blobOf P.aead K' nonce barrierKey keyringPath)

/-- The configuration write that ends a rekey: done, or failed without effect. -/
inductive ConfigWrite (P : Platform) (env : Env) (t : Nat) (attempt : RekeyAttempt)
    (store : Store) : Option Err → Store → Prop
  | written (passed : env.fails t (.put sealConfigPath (P.sealConfigJson.marshal
        (shamirConfig attempt.newShares attempt.newThreshold))) = false) :
      ConfigWrite P env t attempt store none (store.insert sealConfigPath
        (P.sealConfigJson.marshal (shamirConfig attempt.newShares attempt.newThreshold)))
  | failed {e : Err} (failed : env.fails t (.put sealConfigPath (P.sealConfigJson.marshal
        (shamirConfig attempt.newShares attempt.newThreshold))) = true) :
      ConfigWrite P env t attempt store (some e) store

/-- The master key was replaced by `K'`, and its shares are in the status. -/
structure Replaced (P : Platform) (env : Env) (w : World) (attempt : RekeyAttempt)
    (st : RekeyStatus) (err : Option Err) (old : Bytes) (K' : CipherKey) (barrierKey : Bytes)
    (store' : Store) : Prop where
  opens : OpensKeyring P.aead w.store old barrierKey
  valid : validShares attempt.newShares attempt.newThreshold = true
  complete : st.complete = true
  newThreshold : st.newThreshold = attempt.newThreshold
  fresh : K' = env.random (w.tick + 2) masterKeySize
  split : SplitInto env (w.tick + 3) K'.val attempt.newShares attempt.newThreshold st.keys
  stored : ∃ nonce, nonce.length = nonceSize ∧
    ConfigWrite P env (w.tick + callsToConfig attempt.newShares) attempt
      (rewrapped P w.store K' nonce barrierKey) err store'
  quiet : ∀ i < callsToConfig attempt.newShares, ∃ call, env.fails (w.tick + i) call = false

/-- Every way a call of `Core.rekeyUpdate` can end. -/
inductive RekeyOutcome (P : Platform) (env : Env) (c : Core) (w : World) (nonce : Bytes)
    (share : Share) : Except Err (RekeyStatus × Option Err) → Core → World → Prop
  | refused {e : Err} {w' : World} (store : w'.store = w.store)
      (why : ∀ attempt cfg, RekeyShare P c w nonce share attempt cfg → Faulted env 1 w) :
      RekeyOutcome P env c w nonce share (.error e) c w'
  | gathered {st : RekeyStatus} {w' : World} {attempt : RekeyAttempt} {cfg : SealConfig}
      (store : w'.store = w.store) (ready : RekeyShare P c w nonce share attempt cfg)
      (few : ((gather attempt.progress share).length : Int) < cfg.threshold)
      (incomplete : st.complete = false) (noKeys : st.keys = []) :
      RekeyOutcome P env c w nonce share (.ok (st, none))
        { c with rekey := some { attempt with progress := gather attempt.progress share } } w'
  | ended {e : Err} {w' : World} {attempt : RekeyAttempt} {cfg : SealConfig}
      (store : w'.store = w.store) (ready : RekeyShare P c w nonce share attempt cfg)
      (why : ∀ key, combine (gather attempt.progress share) = .ok key →
        IsMasterKey P.aead w.store key →
        validShares attempt.newShares attempt.newThreshold = true →
        Faulted env (callsToConfig attempt.newShares) w)
      (enough : cfg.threshold ≤ (gather attempt.progress share).length) :
      RekeyOutcome P env c w nonce share (.error e) c.endRekey w'
  | replaced {st : RekeyStatus} {err : Option Err} {w' : World} {attempt : RekeyAttempt}
      {cfg : SealConfig} {old : Bytes} {K' : CipherKey} {barrierKey : Bytes}
      (ready : RekeyShare P c w nonce share attempt cfg)
      (enough : cfg.threshold ≤ (gather attempt.progress share).length)
      (combined : combine (gather attempt.progress share) = .ok old)
      (done : Replaced P env w attempt st err old K' barrierKey w'.store)
      (drawn : Drawn env w w' K') :
      RekeyOutcome P env c w nonce share (.ok (st, err)) c.endRekey w'

theorem split_spec_of_not_valid {parts threshold : Int} {secret : Bytes}
    (hinvalid : validShares parts threshold ≠ true) :
    Yields env.answer (split secret parts threshold) w (fun _ _ => False)
      (fun _ w' => w' = w) := by
  rw [Ne, validShares_iff] at hinvalid
  unfold split
  by_cases hsecret : secret = []
  · rw [if_pos hsecret]
    exact Yields.throw rfl
  rw [if_neg hsecret]
  by_cases hparts : parts < 2 ∨ parts > 255
  · rw [if_pos hparts]
    exact Yields.throw rfl
  rw [if_neg hparts]
  by_cases hthreshold : threshold < 2 ∨ threshold > parts
  · rw [if_pos hthreshold]
    exact Yields.throw rfl
  · exact absurd ⟨by omega, by omega, by omega, by omega⟩ hinvalid

/-- Replacing the master key, from the third call of the update on. -/
theorem replaceMasterKey_spec {cfg : SealConfig} {attempt : RekeyAttempt} {old : Bytes} {w₂ : World}
    {c₂ : Core} (hs₂ : w₂.store = w.store) (hp₂ : Passed env 2 w w₂) :
    YieldsState env.answer (Core.replaceMasterKey P cfg attempt old) c₂ w₂
      (fun r c' w' => c' = c₂.endRekey ∧ ∃ K' barrierKey,
        Replaced P env w attempt r.1 r.2 old K' barrierKey w'.store ∧ Drawn env w w' K')
      (fun _ c' w' => c' = c₂.endRekey ∧
        Halted env (callsToConfig attempt.newShares)
          (IsMasterKey P.aead w.store old ∧
            validShares attempt.newShares attempt.newThreshold = true) w w') := by
  have hcalls : callsToConfig attempt.newShares = attempt.newShares.toNat + 38 := rfl
  refine YieldsState.bind (YieldsState.onError (Act.yields_context (Act.randRead_spec.mono ?_
    fun _ _ h => ⟨rfl, (h.after hp₂ hs₂ (Nat.le_refl _)).halted (by omega)⟩)))
  rintro K' w₃ ⟨hK', hs₃, hp₃⟩
  rw [hp₂.tick] at hK'
  have hs₃' : w₃.store = w.store := hs₃.trans hs₂
  have hp₃' := hp₂.trans hp₃
  let K : CipherKey := K'
  have hlen : K.val.length = 32 := K.property
  by_cases hvalid : validShares attempt.newShares attempt.newThreshold = true
  swap
  · refine YieldsState.bind (YieldsState.onError (Act.yields_context
      ((split_spec_of_not_valid hvalid).mono (fun _ _ h => h.elim) ?_)))
    rintro e w₄ rfl
    exact ⟨rfl, .of_not hs₃' fun h => hvalid h.2⟩
  have hargs := splitArgs_of_validShares hvalid K.ne_nil
  refine YieldsState.bind (YieldsState.onError (Act.yields_context ((split_spec hargs).mono ?_ ?_)))
  swap
  · rintro e w₄ hbroke
    rw [hlen] at hbroke
    exact ⟨rfl, (hbroke.after hp₃' hs₃' (Nat.le_refl _)).halted (by omega)⟩
  rintro shares w₄ ⟨hsplit, hs₄, hp₄⟩
  rw [hlen] at hp₄
  rw [hp₃'.tick] at hsplit
  have hs₄' : w₄.store = w.store := hs₄.trans hs₃'
  have hp₄' := hp₃'.trans hp₄
  refine YieldsState.bind (YieldsState.onError (Act.yields_context
    ((Barrier.rekey_spec old K).mono ?_ ?_)))
  swap
  · rintro e w₅ hhalt
    refine ⟨rfl, hhalt.after hp₄'.tick hs₄' (by omega) fun h => ?_⟩
    rw [hs₄']
    exact h.1
  rintro - w₅ ⟨barrierKey, nonce, hopens, hn, hs₅, hp₅⟩
  rw [hs₄'] at hopens hs₅
  have hp₅' := hp₄'.trans hp₅
  have ht₅ : w₅.tick = w.tick + callsToConfig attempt.newShares := by rw [hp₅'.tick]; omega
  have hquiet : ∀ i < callsToConfig attempt.newShares,
      ∃ call, env.fails (w.tick + i) call = false := fun i hi => hp₅'.quiet i (by omega)
  refine YieldsState.bind (YieldsState.outcome ((writeSealConfig_spec _).mono ?_ ?_))
  · rintro - w₆ ⟨hs₆, ht₆, hf₆⟩
    rw [ht₅] at hf₆
    refine YieldsState.modify_bind (YieldsState.pure ⟨rfl, K, barrierKey, ?_,
      w.tick + 2, Nat.le_add_right _ _, by omega, hK'⟩)
    refine ⟨hopens, hvalid, rfl, rfl, hK', hsplit, ⟨nonce, hn, ?_⟩, hquiet⟩
    rw [hs₆, hs₅]
    exact .written hf₆
  · rintro e w₆ ⟨rfl, hf₆⟩
    rw [ht₅] at hf₆
    refine YieldsState.modify_bind (YieldsState.pure ⟨rfl, K, barrierKey, ?_,
      w.tick + 2, Nat.le_add_right _ _, by rw [World.next_tick]; omega, hK'⟩)
    refine ⟨hopens, hvalid, rfl, rfl, hK', hsplit, ⟨nonce, hn, ?_⟩, hquiet⟩
    rw [World.next_store, hs₅]
    exact .failed hf₆

/-- Trying the gathered shares, from a state in which they are gathered. -/
theorem rekeyQuorum_spec {nonce : Bytes} {share : Share} {attempt : RekeyAttempt} {cfg : SealConfig}
    {w₁ : World} (hready : RekeyShare P c w nonce share attempt cfg)
    (henough : cfg.threshold ≤ (gather attempt.progress share).length)
    (hs : w₁.store = w.store) (hp : Passed env 1 w w₁) :
    YieldsState env.answer (Core.rekeyQuorum P cfg attempt (gather attempt.progress share))
      { c with rekey := some { attempt with progress := gather attempt.progress share } } w₁
      (fun r c' w' => RekeyOutcome P env c w nonce share (.ok r) c' w')
      (fun e c' w' => RekeyOutcome P env c w nonce share (.error e) c' w') := by
  refine YieldsState.bind (YieldsState.onError (Act.yields_context (Act.yields_ofExcept ?_ ?_)))
  swap
  · intro e hcombine
    refine .ended hs hready ?_ henough
    intro key hkey
    rw [hcombine] at hkey
    cases hkey
  intro old hcombine
  have hsame : ∀ {p : Prop}, (IsMasterKey P.aead w.store old → p) →
      ∀ key, combine (gather attempt.progress share) = .ok key →
        IsMasterKey P.aead w.store key → p := by
    intro p hp key hkey hmaster
    rw [hcombine, Except.ok.injEq] at hkey
    rw [← hkey] at hmaster
    exact hp hmaster
  refine YieldsState.bind (YieldsState.onError ((Barrier.verifyMasterKey_spec old).mono ?_ ?_))
  swap
  · rintro e w₂ hhalt
    refine .ended (hhalt.store.trans hs) hready (hsame fun hmaster _ => ?_) henough
    rw [← hs] at hmaster
    exact (hhalt.faulted hmaster).after hp.tick (by unfold callsToConfig; omega)
  rintro ok w₂ ⟨hok, hs₂, hp₂⟩
  rw [hs] at hok
  cases ok with
  | false =>
    refine YieldsState.modify_bind (YieldsState.throw ?_)
    exact .ended (hs₂.trans hs) hready
      (hsame fun hmaster => absurd (hok.mpr hmaster) Bool.false_ne_true) henough
  | true =>
    refine (replaceMasterKey_spec (hs₂.trans hs) (hp.trans hp₂)).mono ?_ ?_
    · rintro ⟨st, err⟩ c' w' ⟨rfl, K', barrierKey, hdone, hdrawn⟩
      exact .replaced hready henough hcombine hdone hdrawn
    · rintro e c' w' ⟨rfl, hhalt⟩
      exact .ended hhalt.store hready
        (hsame fun hmaster hvalid => hhalt.faulted ⟨hmaster, hvalid⟩) henough

/-- **Every way a share can be received by a rekey.** -/
theorem rekeyUpdate_spec (nonce : Bytes) (share : Share) :
    YieldsState env.answer (Core.rekeyUpdate P nonce share) c w
      (fun r c' w' => RekeyOutcome P env c w nonce share (.ok r) c' w')
      (fun e c' w' => RekeyOutcome P env c w nonce share (.error e) c' w') := by
  unfold Core.rekeyUpdate
  by_cases hlen : share.length ≠ masterKeySize + 1
  · rw [if_pos hlen]
    exact YieldsState.throw (.refused rfl fun _ _ h => absurd h.length hlen)
  rw [if_neg hlen]
  refine YieldsState.get_bind ?_
  cases hrekey : c.rekey with
  | none =>
    refine YieldsState.throw (.refused rfl fun _ _ h => ?_)
    have := h.inProgress
    rw [hrekey] at this
    cases this
  | some attempt =>
    dsimp only
    have huniq : ∀ {attempt' : RekeyAttempt} {cfg : SealConfig},
        RekeyShare P c w nonce share attempt' cfg → attempt' = attempt := by
      intro attempt' cfg h
      have := h.inProgress
      rw [hrekey, Option.some.injEq] at this
      exact this.symm
    by_cases hnonce : nonce ≠ attempt.nonce
    · rw [if_pos hnonce]
      refine YieldsState.throw (.refused rfl fun _ _ h => absurd ?_ hnonce)
      rw [← huniq h]
      exact h.nonce
    rw [if_neg hnonce]
    refine YieldsState.bind (YieldsState.stateless (readSealConfig_spec.mono ?_ ?_))
    swap
    · rintro e w₁ hhalt
      exact .refused hhalt.store fun _ _ h =>
        (hhalt.faulted (by rw [h.config]; rfl)).mono (Nat.le_refl _)
    rintro cfg w₁ ⟨hconfig, hs, hp⟩
    by_cases hsealed : c.barrier.sealed = true
    · rw [if_pos hsealed]
      refine YieldsState.throw (.refused hs fun _ _ h => ?_)
      have := h.unsealed
      rw [hsealed] at this
      cases this
    rw [if_neg hsealed]
    have hready : RekeyShare P c w nonce share attempt cfg :=
      ⟨by simpa using hlen, hrekey, by simpa using hnonce, hconfig, by simpa using hsealed⟩
    refine YieldsState.set_bind ?_
    by_cases hfew : ((gather attempt.progress share).length : Int) < cfg.threshold
    · rw [if_pos hfew]
      exact YieldsState.pure (.gathered hs hready hfew rfl rfl)
    · rw [if_neg hfew]
      exact rekeyQuorum_spec hready (by omega) hs hp

/-! ### Starting an attempt -/

theorem randomNonce_spec :
    Yields env.answer randomNonce w (fun _ w' => w'.store = w.store)
      (fun _ w' => Broke env 1 w w') := by
  refine Yields.bind (Act.yields_context (Act.randRead_spec.mono ?_ fun _ _ h => h))
  rintro v w' ⟨-, hs, -⟩
  exact hs

/-- A new attempt has valid parameters and no shares; nothing is stored. -/
theorem rekeyInit_spec (newShares newThreshold : Int) :
    YieldsState env.answer (Core.rekeyInit P newShares newThreshold) c w
      (fun st c' w' => w'.store = w.store ∧ validShares newShares newThreshold = true ∧
        (∃ cfg, storedConfig P w.store = some cfg ∧ isAutoSeal cfg.kind = false) ∧
        st.complete = false ∧ st.keys = [] ∧
        c' = { c with rekey := some ⟨st.nonce, newShares, newThreshold, []⟩ })
      (fun _ c' w' => c' = c ∧ Halted env 2 (validShares newShares newThreshold = true ∧
        (∃ cfg, storedConfig P w.store = some cfg ∧ isAutoSeal cfg.kind = false) ∧
        c.barrier.sealed = false) w w') := by
  unfold Core.rekeyInit
  by_cases hvalid : validShares newShares newThreshold = true
  swap
  · rw [if_neg hvalid]
    exact YieldsState.throw ⟨rfl, .of_not rfl fun h => hvalid h.1⟩
  rw [if_pos hvalid]
  refine YieldsState.bind (YieldsState.stateless (readSealConfig_spec.mono ?_ ?_))
  swap
  · rintro e w₁ hhalt
    refine ⟨rfl, hhalt.store, ?_⟩
    rintro ⟨-, ⟨cfg, hconfig, -⟩, -⟩
    exact (hhalt.faulted (by rw [hconfig]; rfl)).mono (by omega)
  rintro cfg w₁ ⟨hconfig, hs₁, hp₁⟩
  by_cases hauto : isAutoSeal cfg.kind = true
  · rw [if_pos hauto]
    refine YieldsState.throw ⟨rfl, .of_not hs₁ ?_⟩
    rintro ⟨-, ⟨cfg', hconfig', hshamir⟩, -⟩
    rw [hconfig, Option.some.injEq] at hconfig'
    rw [← hconfig', hauto] at hshamir
    cases hshamir
  rw [if_neg hauto]
  refine YieldsState.get_bind ?_
  by_cases hsealed : c.barrier.sealed = true
  · rw [if_pos hsealed]
    refine YieldsState.throw ⟨rfl, .of_not hs₁ ?_⟩
    rintro ⟨-, -, hopen⟩
    rw [hsealed] at hopen
    cases hopen
  rw [if_neg hsealed]
  refine YieldsState.bind (YieldsState.stateless (randomNonce_spec.mono ?_
    fun _ _ h => ⟨rfl, (h.after hp₁ hs₁ (Nat.le_refl _)).halted (Nat.le_refl _)⟩))
  intro nonce w₂ hs₂
  exact YieldsState.set_bind (YieldsState.pure
    ⟨hs₂.trans hs₁, hvalid, ⟨cfg, hconfig, Bool.eq_false_iff.mpr hauto⟩, rfl, rfl, rfl⟩)

end UbixVault
