/-
Can the operators be locked out through the API?

Whatever clients send, some of the shares they were sent combine to the master key
of the stored keyring, as long as the configuration can always be written.  When
that last write of a rekey fails, the core returns the new shares together with the
error, the handler writes the error alone, and nobody ever gets a share of the key
that now wraps the keyring.
-/
import UbixVault.Proofs.Api.Sys
import UbixVault.Proofs.Core.RekeyAtomic

namespace UbixVault

open Program Shamir

variable {P : Platform} {s : VaultState} {es : List Exchange}

/-- Some of the shares combine to the master key that wraps the stored keyring. -/
def Redeemable (P : Platform) (shares : List Share) (store : Store) : Prop :=
  ∃ sub ⊆ shares, ∃ key, combine sub = .ok key ∧ IsMasterKey P.aead store key

/-- The initial shares were delivered. -/
def InitDelivered (es : List Exchange) : Prop := ∃ e ∈ es, e.response.body.IsInit

theorem deliveredShares_append (es : List Exchange) (e : Exchange) :
    deliveredShares (es ++ [e]) = deliveredShares es ++ e.response.body.shares := by
  simp [deliveredShares]

theorem initDelivered_append {e : Exchange} :
    InitDelivered (es ++ [e]) ↔ InitDelivered es ∨ e.response.body.IsInit := by
  simp [InitDelivered, or_and_right, exists_or]

/-! ### While the configuration can be written -/

/-- A rekey that wrote the configuration reports its shares. -/
theorem Move.reported_eq {env : Env} (hwrites : env.ConfigWrites) {e : Event} (h : Move P env e)
    {issue : Issue} (hissue : e.issue = some issue) : e.reported = issue.keys := by
  have hnone : ∀ {p : Prop}, e.issue = none → p := by
    intro p hnone
    rw [hissue] at hnone
    cases hnone
  cases h with
  | kept store barrier none => exact hnone none
  | opened store opens barrier means none => exact hnone none
  | stored dataKey others barrier touches none => exact hnone none
  | stranded fresh left none => exact hnone none
  | started fresh started answer some =>
    rw [hissue, Option.some.injEq] at some
    rw [Event.reported, answer, some]
  | replaced config inProgress barrier done some answer =>
    rw [hissue, Option.some.injEq] at some
    obtain ⟨nonce, -, hwrite⟩ := done.stored
    generalize e.after.world.store = store' at hwrite
    cases hwrite with
    | written passed => rw [Event.reported, answer, some]
    | failed failed =>
      rw [hwrites] at failed
      cases failed

/-- Every issue of the vault has been delivered. -/
structure Delivering (P : Platform) (es : List Exchange) (s : VaultState) : Prop where
  mode : s.core.autoSeal = none
  phase : ∃ handed, Phase P handed s.core.barrier s.world.store ∧
    (∀ issue ∈ handed, issue.keys ⊆ deliveredShares es) ∧ (InitDelivered es → handed ≠ [])

theorem Delivering.step {visit : Visit} (hwrites : visit.env.ConfigWrites)
    (h : Delivering P es s) : Delivering P (es ++ [s.serve P visit]) (s.serve P visit).after := by
  obtain ⟨handed, hphase, hsub, hinit⟩ := h.phase
  cases hcall : visit.request.call s.core with
  | none =>
    obtain ⟨hcore, hstore, hplain⟩ := serve_of_no_call P s visit hcall
    refine ⟨by rw [hcore]; exact h.mode, handed, by rw [hcore, hstore]; exact hphase, ?_, ?_⟩
    · intro issue hissue
      rw [deliveredShares_append, hplain.shares, List.append_nil]
      exact hsub issue hissue
    · rw [initDelivered_append]
      intro hdelivered
      exact hinit (hdelivered.resolve_right hplain.notInit)
  | some call =>
    obtain ⟨hafter, hrelays⟩ := serve_of_call P s visit hcall
    have hout := step_outcome P visit.env (fun hnone => hphase.sealed_of_fresh hnone) call
    have hmove := hout.move
    refine ⟨by rw [hafter, hout.autoSeal_eq]; exact h.mode,
      handed ++ (s.step P visit.env call).issue.toList, ?_, ?_, ?_⟩
    · rw [hafter]
      exact hmove.phase hwrites h.mode hphase
    · intro issue hissue
      rw [deliveredShares_append]
      rcases List.mem_append.mp hissue with hold | hnew
      · exact List.subset_append_of_subset_left _ (hsub issue hold)
      · rw [Option.mem_toList] at hnew
        have hreported : (s.step P visit.env call).reported = issue.keys :=
          hmove.reported_eq hwrites hnew
        rw [hrelays.shares, hreported]
        exact List.subset_append_of_subset_right _ (List.subset_append_left _ _)
    · rw [initDelivered_append]
      rintro (hdelivered | hnew)
      · simp [hinit hdelivered]
      · obtain ⟨issue, res, hissue, -⟩ := hrelays.init.mp hnew
        have hissue' : (s.step P visit.env call).issue = some issue := hissue
        simp [hissue']

/-- Shares that were issued and delivered can be redeemed. -/
theorem Delivering.redeemable (h : Delivering P es s) (hinit : InitDelivered es) :
    Redeemable P (deliveredShares es) s.world.store := by
  obtain ⟨handed, hphase, hsub, hne⟩ := h.phase
  cases hphase with
  | empty keyring config sealed => exact absurd rfl (hne hinit)
  | stranded wraps config holds => exact absurd rfl (hne hinit)
  | @issued _ _ K B older issue shares issued holds superseded =>
    obtain ⟨hn, hn255, hk, hkn⟩ := validShares_iff.mp issued.valid
    refine ⟨issue.keys, hsub issue (by simp), K.val, ?_, issued.wraps.isMasterKey_iff.mpr rfl⟩
    obtain ⟨d, hd⟩ := issued.dealt
    have hnodup : issue.keys.Nodup := by
      rw [← hd]
      exact d.nodup_shares
    exact issued.issue_dealt.combine_eq hnodup (List.Subset.refl _) (by rw [issued.length]; omega)

/--
**While the configuration can be written, nobody is locked out.**

Start from an empty Shamir vault and serve any requests, each in an outside of its
own in which every call may fail but the write of the seal configuration.  Once the
initial shares have been delivered, some of the shares that stand in responses
combine, after every request, to the master key of the stored keyring.
-/
theorem no_lockout_while_config_writes (P : Platform) (ha : Bool) (tick : Nat)
    (visits : List Visit) (hwrites : ∀ visit ∈ visits, visit.env.ConfigWrites)
    (hinit : InitDelivered ((VaultState.blank none ha tick).exchanges P visits)) :
    Redeemable P (deliveredShares ((VaultState.blank none ha tick).exchanges P visits))
      ((VaultState.blank none ha tick).served P visits).world.store := by
  have hblank : Delivering P [] (VaultState.blank none ha tick) :=
    ⟨rfl, [], .empty rfl rfl rfl, by simp, by simp [InitDelivered]⟩
  have hrun : Delivering P ((VaultState.blank none ha tick).exchanges P visits)
      ((VaultState.blank none ha tick).served P visits) :=
    Run.holds_of_forall (A := fun visit => visit.env.ConfigWrites) hblank
      (fun _ _ _ hvisit h => h.step hvisit) hwrites
  exact hrun.redeemable hinit

/-! ### A rekey through the API -/

/-- The request of a client that wants `threshold` of `shares`. -/
def InitRequest.shamir (shares threshold : Int) : InitRequest :=
  { secretShares := shares, secretThreshold := threshold, storedShares := 0, pgpKeys := []
    rootTokenPGPKey := [], recoveryShares := 0, recoveryThreshold := 0, recoveryPGPKeys := [] }

/--
Initialize with two of three, unseal, and rekey to two of three again.  The last
request has an outside of its own.
-/
def rekeyVisits (first second : Share) (nonce : Bytes) (last : Env) : List Visit :=
  [⟨.faultless, .initVault (.ok (.shamir 3 2))⟩,
    ⟨.faultless, .unsealShare (.ok ⟨hexEncode first, false, false⟩)⟩,
    ⟨.faultless, .unsealShare (.ok ⟨hexEncode second, false, false⟩)⟩,
    ⟨.faultless, .rekeyInit (.ok ⟨3, 2⟩)⟩,
    ⟨.faultless, .rekeyUpdate (.ok ⟨nonce, hexEncode first⟩)⟩,
    ⟨last, .rekeyUpdate (.ok ⟨nonce, hexEncode second⟩)⟩]

/-- The requests of a client that uses the shares it was sent. -/
def rekeyWith (last : Env) : List Visit :=
  let shares := sharesOf .faultless [.initVault ⟨3, 2⟩]
  rekeyVisits (shares.headD []) (shares.tail.headD []) (hexEncode (List.replicate 16 0)) last

theorem initDelivered_rekeyWith (last : Env) :
    InitDelivered ((VaultState.blank none false 0).exchanges .transparent (rekeyWith last)) :=
  ⟨_, List.mem_cons_self, by decide +kernel⟩

/-- A rekey that goes through delivers three shares more, each in two forms. -/
theorem no_lockout_two_of_three :
    (deliveredShares ((VaultState.blank none false 0).exchanges .transparent
      (rekeyWith .counting))).dedup.length = 6 ∧
    Redeemable .transparent
      (deliveredShares ((VaultState.blank none false 0).exchanges .transparent (rekeyWith .counting)))
      ((VaultState.blank none false 0).served .transparent (rekeyWith .counting)).world.store := by
  refine ⟨by decide +kernel, no_lockout_while_config_writes .transparent false 0 _ ?_
    (initDelivered_rekeyWith _)⟩
  intro visit hvisit
  simp only [rekeyWith, rekeyVisits, List.mem_cons, List.not_mem_nil, or_false] at hvisit
  rcases hvisit with rfl | rfl | rfl | rfl | rfl | rfl <;> exact fun _ _ => rfl

/-- Shares of one key do not combine to another one. -/
theorem not_redeemable {store : Store} {K K' B : CipherKey} {keys shares : List Share}
    (hdealt : (Issue.mk keys 2).Dealt K) (hsub : shares ⊆ keys) (hw : Wraps P.aead store K' B)
    (hne : K ≠ K') : ¬ Redeemable P shares store := by
  rintro ⟨sub, hsubset, key, hcombine, hmaster⟩
  obtain ⟨htwo, hnodup⟩ := nodup_of_combine hcombine
  have hkey : combine sub = .ok K.val :=
    hdealt.combine_eq hnodup (fun x hx => hsub (hsubset hx)) (Int.ofNat_le.mpr htwo)
  rw [hcombine, Except.ok.injEq] at hkey
  exact hne (Subtype.ext (hkey.symm.trans (hw.isMasterKey_iff.mp hmaster)))

/-- **The shares of a rekey whose last write fails are lost.** -/
theorem lockout_by_failed_config_write :
    ∃ first second nonce t,
      let visits := rekeyVisits first second nonce (Env.counting.failAt t)
      InitDelivered ((VaultState.blank none false 0).exchanges .transparent visits) ∧
        ¬ Redeemable .transparent
          (deliveredShares ((VaultState.blank none false 0).exchanges .transparent visits))
          ((VaultState.blank none false 0).served .transparent visits).world.store := by
  refine ⟨_, _, _, 94, initDelivered_rekeyWith _, ?_⟩
  rw [← rekeyWith]
  have hissues : issues ((VaultState.blank none false 0).events .transparent .faultless
      [.initVault ⟨3, 2⟩]) = [] ++ [⟨sharesOf .faultless [.initVault ⟨3, 2⟩], 2⟩] := by decide +kernel
  have hdealtFrom := (@reached_run .transparent _ works_faultless.storageWorks false 0
    [.initVault ⟨3, 2⟩]).dealt
  rw [hissues] at hdealtFrom
  obtain ⟨t, -, hdealt, -⟩ := hdealtFrom.last
  -- The keyring is under a key that was drawn after that of all shares.
  have hwraps : Wraps Platform.transparent.aead
      ((VaultState.blank none false 0).served .transparent
        (rekeyWith (Env.counting.failAt 94))).world.store
      (Env.counting.random 55 masterKeySize) (Env.faultless.random 0 keySize) :=
    ⟨(Env.counting.random 92 nonceSize).val, rfl, by decide +kernel⟩
  refine not_redeemable hdealt (by decide +kernel) hwraps fun heq => ?_
  have hhead : some (0 : Byte) = some 55 := congrArg (fun key : CipherKey => key.val.head?) heq
  simp at hhead

end UbixVault
