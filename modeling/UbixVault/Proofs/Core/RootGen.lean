/-
What a share supplied to a root regeneration can do.

The only case of `RootOutcome` that stores something is the one that minted a
token, and it carries what authorised it: the gathered shares reach the stored
threshold, and what they combine to is the master key or, in auto mode, has the
stored hash.
-/
import UbixVault.Proofs.Core.Rekey

namespace UbixVault

open Program Shamir

variable {P : Platform} {env : Env} {w : World} {c : Core}

/-- What the combined shares must be for a token to be minted. -/
def Authorizes (P : Platform) (store : Store) (cfg : SealConfig) (key : Bytes) : Prop :=
  if isAutoSeal cfg.kind then P.sha256.sum key = cfg.recoveryHash
  else IsMasterKey P.aead store key

/-- Every way a call of `Core.generateRootUpdate` can end. -/
inductive RootOutcome (P : Platform) (env : Env) (c : Core) (w : World) (nonce : Bytes)
    (share : Share) : Except Err RootGenStatus → Core → World → Prop
  | refused {e : Err} {w' : World} (store : w'.store = w.store) :
      RootOutcome P env c w nonce share (.error e) c w'
  | gathered {st : RootGenStatus} {w' : World} {attempt : RootGen} (store : w'.store = w.store)
      (hattempt : c.rootAttempt = some attempt) (hnonce : nonce = attempt.nonce)
      (incomplete : st.complete = false) :
      RootOutcome P env c w nonce share (.ok st)
        { c with rootAttempt := some { attempt with progress := gather attempt.progress share } } w'
  | ended {e : Err} {w' : World} (store : w'.store = w.store) :
      RootOutcome P env c w nonce share (.error e) c.endRootAttempt w'
  | minted {st : RootGenStatus} {w' : World} {attempt : RootGen} {cfg : SealConfig} {key : Bytes}
      {t : Token} {k : CipherKey} {blobNonce : Bytes}
      (hattempt : c.rootAttempt = some attempt) (hnonce : nonce = attempt.nonce)
      (config : storedConfig P w.store = some cfg)
      (enough : cfg.threshold ≤ (gather attempt.progress share).length)
      (combined : combine (gather attempt.progress share) = .ok key)
      (authorized : Authorizes P w.store cfg key)
      (complete : st.complete = true) (token : st.rootToken = t.id) (root : t.isRoot = true)
      (unsealed : c.barrier.aead = some k) (nonceLength : blobNonce.length = nonceSize)
      (store : w'.store = w.store.insert (P.tokens.storeKey t.id)
        (blobOf P.aead k blobNonce (P.tokenJson.marshal t) (P.tokens.storeKey t.id))) :
      RootOutcome P env c w nonce share (.ok st) c.endRootAttempt w'

theorem verifyCombined_spec (cfg : SealConfig) (key : Bytes) :
    Yields env.answer (Core.verifyCombined P cfg key) w
      (fun ok w' => (ok = true ↔ Authorizes P w.store cfg key) ∧ w'.store = w.store)
      (fun _ w' => w'.store = w.store) := by
  unfold Core.verifyCombined Authorizes
  by_cases hauto : isAutoSeal cfg.kind = true
  · rw [if_pos hauto]
    refine Yields.pure ⟨?_, rfl⟩
    simp [hauto]
  · rw [if_neg hauto]
    refine (Barrier.verifyMasterKey_spec key).mono ?_ fun _ _ h => h.store
    rintro ok w' ⟨hok, hs, -⟩
    refine ⟨?_, hs⟩
    simpa [hauto] using hok

/-- Trying the gathered shares, from a state in which they are gathered. -/
theorem generateRootQuorum_spec {nonce : Bytes} {share : Share} {attempt : RootGen}
    {cfg : SealConfig} {w₁ : World} (hattempt : c.rootAttempt = some attempt)
    (hnonce : nonce = attempt.nonce) (hconfig : storedConfig P w.store = some cfg)
    (henough : cfg.threshold ≤ (gather attempt.progress share).length)
    (hs : w₁.store = w.store) :
    YieldsState env.answer (Core.generateRootQuorum P cfg (gather attempt.progress share))
      { c with rootAttempt := some { attempt with progress := gather attempt.progress share } } w₁
      (fun st c' w' => RootOutcome P env c w nonce share (.ok st) c' w')
      (fun e c' w' => RootOutcome P env c w nonce share (.error e) c' w') := by
  refine YieldsState.bind (YieldsState.onError (Act.yields_context (Act.yields_ofExcept ?_
    fun _ _ => .ended hs)))
  intro key hcombine
  refine YieldsState.bind (YieldsState.onError ((verifyCombined_spec cfg key).mono ?_
    fun _ _ h => .ended (h.trans hs)))
  rintro ok w₂ ⟨hok, hs₂⟩
  rw [hs] at hok hs₂
  cases ok with
  | false => exact YieldsState.modify_bind (YieldsState.throw (.ended hs₂))
  | true =>
    refine YieldsState.get_bind (YieldsState.bind (YieldsState.onError (Act.yields_context
      (createRoot_spec.mono ?_ fun _ _ h => .ended (h.store.trans hs₂)))))
    rintro t w₃ ⟨k, blobNonce, hroot, hk, hn, hs₃, -⟩
    rw [hs₂] at hs₃
    exact YieldsState.modify_bind (YieldsState.pure
      (.minted hattempt hnonce hconfig henough hcombine (hok.mp rfl) rfl rfl hroot hk hn hs₃))

/-- **Every way a share can be received by a root regeneration.** -/
theorem generateRootUpdate_spec (nonce : Bytes) (share : Share) :
    YieldsState env.answer (Core.generateRootUpdate P nonce share) c w
      (fun st c' w' => RootOutcome P env c w nonce share (.ok st) c' w')
      (fun e c' w' => RootOutcome P env c w nonce share (.error e) c' w') := by
  unfold Core.generateRootUpdate
  by_cases hlen : share.length ≠ masterKeySize + 1
  · rw [if_pos hlen]
    exact YieldsState.throw (.refused rfl)
  rw [if_neg hlen]
  refine YieldsState.get_bind ?_
  cases hattempt : c.rootAttempt with
  | none => exact YieldsState.throw (.refused rfl)
  | some attempt =>
    dsimp only
    by_cases hnonce : nonce ≠ attempt.nonce
    · rw [if_pos hnonce]
      exact YieldsState.throw (.refused rfl)
    rw [if_neg hnonce]
    refine YieldsState.bind (YieldsState.stateless (readSealConfig_spec.mono ?_
      fun _ _ h => .refused h.store))
    rintro cfg w₁ ⟨hconfig, hs, -⟩
    refine YieldsState.set_bind ?_
    have hnonce' : nonce = attempt.nonce := by simpa using hnonce
    by_cases hfew : ((gather attempt.progress share).length : Int) < cfg.threshold
    · rw [if_pos hfew]
      exact YieldsState.pure (.gathered hs hattempt hnonce' rfl)
    · rw [if_neg hfew]
      exact generateRootQuorum_spec hattempt hnonce' hconfig (by omega) hs

/-- A new attempt has no shares; nothing is stored. -/
theorem generateRootInit_spec :
    YieldsState env.answer (Core.generateRootInit P) c w
      (fun st c' w' => w'.store = w.store ∧ st.complete = false ∧
        c' = { c with rootAttempt := some ⟨st.nonce, []⟩ })
      (fun _ c' w' => w'.store = w.store ∧ c' = c) := by
  unfold Core.generateRootInit
  refine YieldsState.bind (YieldsState.stateless (readSealConfig_spec.mono ?_
    fun _ _ h => ⟨h.store, rfl⟩))
  rintro cfg w₁ ⟨-, hs₁, -⟩
  by_cases hnone : isAutoSeal cfg.kind = true ∧ cfg.recoveryHash = []
  · rw [if_pos hnone]
    exact YieldsState.throw ⟨hs₁, rfl⟩
  rw [if_neg hnone]
  refine YieldsState.get_bind ?_
  by_cases hsealed : c.barrier.sealed = true
  · rw [if_pos hsealed]
    exact YieldsState.throw ⟨hs₁, rfl⟩
  rw [if_neg hsealed]
  refine YieldsState.bind (YieldsState.stateless (randomNonce_spec.mono ?_
    fun _ _ h => ⟨h.store.trans hs₁, rfl⟩))
  intro nonce w₂ hs₂
  exact YieldsState.set_bind (YieldsState.pure ⟨hs₂.trans hs₁, rfl, rfl⟩)

end UbixVault
