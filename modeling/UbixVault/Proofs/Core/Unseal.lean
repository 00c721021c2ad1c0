/-
What supplying an unseal share can do.

`UnsealOutcome` lists the cases once, each with the guards that led to it: refused
before the share counts, already unsealed, one more share gathered, unsealed, or
the gathered shares tried in vain and dropped.  The last case says what went
wrong, so that with working storage a correct quorum cannot end there.
-/
import UbixVault.Proofs.Core.Config

namespace UbixVault

open Program Shamir

variable {P : Platform} {env : Env} {w : World} {c : Core}

/-- Every way a call of `Core.unseal` can end. -/
inductive UnsealOutcome (P : Platform) (env : Env) (c : Core) (w : World) (share : Share) :
    Except Err SealStatus → Core → World → Prop
  | refused {e : Err} {w' : World} (store : w'.store = w.store)
      (why : share.length = masterKeySize + 1 →
        (∃ cfg, storedConfig P w.store = some cfg ∧ isAutoSeal cfg.kind = false) →
        Faulted env 1 w Call.IsGet) :
      UnsealOutcome P env c w share (.error e) c w'
  | already {st : SealStatus} {w' : World} (store : w'.store = w.store)
      (unsealed : c.barrier.sealed = false) :
      UnsealOutcome P env c w share (.ok st) c w'
  | gathered {st : SealStatus} {w' : World} {cfg : SealConfig} (store : w'.store = w.store)
      (sealed : c.barrier.sealed = true) (config : storedConfig P w.store = some cfg)
      (few : ((gather c.progress share).length : Int) < cfg.threshold) :
      UnsealOutcome P env c w share (.ok st) { c with progress := gather c.progress share } w'
  | unsealed {st : SealStatus} {w' : World} {cfg : SealConfig} {key : Bytes} {B : CipherKey}
      (store : w'.store = w.store) (sealed : c.barrier.sealed = true)
      (config : storedConfig P w.store = some cfg)
      (enough : cfg.threshold ≤ (gather c.progress share).length)
      (combined : combine (gather c.progress share) = .ok key)
      (opens : OpensKeyring P.aead w.store key B.val) :
      UnsealOutcome P env c w share (.ok st) { c with barrier := ⟨some B⟩, progress := [] } w'
  | failed {e : Err} {w' : World} {cfg : SealConfig} (store : w'.store = w.store)
      (sealed : c.barrier.sealed = true) (config : storedConfig P w.store = some cfg)
      (enough : cfg.threshold ≤ (gather c.progress share).length)
      (why : ∀ key (B : CipherKey), combine (gather c.progress share) = .ok key →
        OpensKeyring P.aead w.store key B.val → Faulted env 2 w Call.IsGet)
      (message : ∀ key, combine (gather c.progress share) = .ok key →
        e = .core .unsealFailed ∨ w.store.lookup keyringPath = none ∨ Faulted env 2 w Call.IsGet) :
      UnsealOutcome P env c w share (.error e) c.resetProgress w'

/-- Trying the gathered shares, from a state in which they are gathered. -/
theorem unsealQuorum_spec {cfg : SealConfig} {w₁ : World} {share : Share}
    (hsealed : c.barrier.sealed = true) (hconfig : storedConfig P w.store = some cfg)
    (henough : cfg.threshold ≤ (gather c.progress share).length)
    (hs : w₁.store = w.store) (hp : Passed env 1 w w₁) :
    YieldsState env.answer (Core.unsealQuorum P cfg (gather c.progress share))
      { c with progress := gather c.progress share } w₁
      (fun st c' w' => UnsealOutcome P env c w share (.ok st) c' w')
      (fun e c' w' => UnsealOutcome P env c w share (.error e) c' w') := by
  refine YieldsState.bind (YieldsState.onError (Act.yields_context (Act.yields_ofExcept ?_ ?_)))
  swap
  · intro e hcombine
    refine .failed hs hsealed hconfig henough ?_ ?_
    · intro key B hkey
      rw [hcombine] at hkey
      cases hkey
    · intro key hkey
      rw [hcombine] at hkey
      cases hkey
  intro key hcombine
  refine YieldsState.get_bind (YieldsState.bind (YieldsState.onError (Act.yields_adapt
    ((Barrier.unseal_spec c.barrier hsealed key).mono ?_ ?_))))
  · rintro b w₂ ⟨⟨B, hopens, rfl⟩, hs₂, -⟩
    rw [hs] at hopens
    exact YieldsState.set_bind (YieldsState.pure
      (.unsealed (hs₂.trans hs) hsealed hconfig henough hcombine hopens))
  · rintro e w₂ ⟨hhalt, herr⟩
    have hfault : Faulted env 1 w₁ Call.IsGet → Faulted env 2 w Call.IsGet :=
      fun h => h.afterIn hp.tick (by omega)
    refine .failed (hhalt.store.trans hs) hsealed hconfig henough ?_ ?_
    · intro key' B hkey' hopens
      rw [hcombine, Except.ok.injEq] at hkey'
      rw [← hkey', ← hs] at hopens
      exact hfault (hhalt.faulted ⟨B, hopens⟩)
    · intro key' hkey'
      rcases herr with hinvalid | hnone | hfaulted
      · exact .inl (if_pos hinvalid)
      · exact .inr (.inl (by rw [← hs]; exact hnone))
      · exact .inr (.inr (hfault hfaulted))

/-- **Every way a share can be received.** -/
theorem unseal_spec (share : Share) :
    YieldsState env.answer (Core.unseal P share) c w
      (fun st c' w' => UnsealOutcome P env c w share (.ok st) c' w')
      (fun e c' w' => UnsealOutcome P env c w share (.error e) c' w') := by
  unfold Core.unseal
  by_cases hlen : share.length ≠ masterKeySize + 1
  · rw [if_pos hlen]
    exact YieldsState.throw (.refused rfl fun h => absurd h hlen)
  rw [if_neg hlen]
  refine YieldsState.bind (YieldsState.stateless (readSealConfig_spec.mono ?_ ?_))
  swap
  · rintro e w₁ hhalt
    refine .refused hhalt.store ?_
    rintro - ⟨cfg, hcfg, -⟩
    exact hhalt.faulted (by rw [hcfg]; rfl)
  rintro cfg w₁ ⟨hconfig, hs, hp⟩
  by_cases hauto : isAutoSeal cfg.kind = true
  · rw [if_pos hauto]
    refine YieldsState.throw (.refused hs ?_)
    rintro - ⟨cfg', hcfg', hkind⟩
    rw [hconfig, Option.some.injEq] at hcfg'
    rw [← hcfg', hauto] at hkind
    cases hkind
  rw [if_neg hauto]
  refine YieldsState.get_bind ?_
  by_cases hsealed : c.barrier.sealed = true
  swap
  · rw [if_neg hsealed]
    exact YieldsState.pure (.already hs (by simpa using hsealed))
  rw [if_pos hsealed]
  refine YieldsState.set_bind ?_
  by_cases hfew : ((gather c.progress share).length : Int) < cfg.threshold
  · rw [if_pos hfew]
    exact YieldsState.pure (.gathered hs hsealed hconfig hfew)
  · rw [if_neg hfew]
    exact unsealQuorum_spec hsealed hconfig (by omega) hs hp

/-! ### Auto-unseal -/

/-- Auto-unseal stores nothing, and at most takes the barrier key out of the keyring. -/
theorem autoUnseal_spec :
    YieldsState env.answer (Core.autoUnseal P) c w
      (fun _ c' w' => w'.store = w.store ∧ c.autoSeal.isSome ∧
        (c' = c ∨ ∃ key, ∃ B : CipherKey, OpensKeyring P.aead w.store key B.val ∧
          c' = { c with barrier := ⟨some B⟩ }))
      (fun _ c' w' => w'.store = w.store ∧ c' = c) := by
  unfold Core.autoUnseal
  refine YieldsState.get_bind ?_
  by_cases hnone : c.autoSeal.isNone = true
  · rw [if_pos hnone]
    exact YieldsState.throw ⟨rfl, rfl⟩
  rw [if_neg hnone]
  have hsome : c.autoSeal.isSome = true := by
    rw [← Option.not_isNone, Bool.not_eq_true']
    exact Bool.eq_false_iff.mpr hnone
  by_cases hsealed : c.barrier.sealed = true
  swap
  · rw [if_neg hsealed]
    exact YieldsState.pure ⟨rfl, hsome, .inl rfl⟩
  rw [if_pos hsealed]
  refine YieldsState.bind (YieldsState.stateless (readSealConfig_spec.mono ?_
    fun _ _ h => ⟨h.store, rfl⟩))
  rintro cfg w₁ ⟨-, hs₁, -⟩
  by_cases hauto : isAutoSeal cfg.kind = true
  swap
  · rw [if_neg hauto]
    exact YieldsState.throw ⟨hs₁, rfl⟩
  rw [if_pos hauto]
  refine YieldsState.bind (YieldsState.stateless (Act.yields_context
    ((Act.get_spec validKey_wrappedMasterKeyPath).mono ?_ fun _ _ h => ⟨h.store.trans hs₁, rfl⟩)))
  rintro r w₂ ⟨-, hs₂, -⟩
  have hs₂' : w₂.store = w.store := hs₂.trans hs₁
  cases r with
  | none => exact YieldsState.throw ⟨hs₂', rfl⟩
  | some wrapped =>
    refine YieldsState.bind (YieldsState.stateless (Act.unwrap_spec.mono ?_
      fun _ _ h => ⟨h.trans hs₂', rfl⟩))
    rintro masterKey w₃ ⟨-, hs₃⟩
    have hs₃' : w₃.store = w.store := hs₃.trans hs₂'
    refine YieldsState.bind (YieldsState.stateless (Act.yields_context
      ((Barrier.unseal_spec c.barrier hsealed masterKey).mono ?_
        fun _ _ h => ⟨h.1.store.trans hs₃', rfl⟩)))
    rintro b w₄ ⟨⟨B, hopens, rfl⟩, hs₄, -⟩
    rw [hs₃'] at hopens
    exact ⟨hs₄.trans hs₃', hsome, .inr ⟨masterKey, B, hopens, rfl⟩⟩

end UbixVault
