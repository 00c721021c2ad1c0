/-
What becomes of gathered shares when the vault is sealed.

Sealing drops the shares gathered for unsealing and leaves the attempts to
regenerate the root token or to rekey as they are.  Every call adds at most its own
share to the attempt it is for, so a seal that finds nothing gathered in these two
leaves nothing, and all that is gathered or combined later was submitted later.
-/
import UbixVault.Proofs.Core.RootHistory

namespace UbixVault

open Program Shamir

variable {P : Platform} {env : Env} {s : VaultState}

/-- Once the vault is sealed no share submitted before is held or combined with another. -/
def DiscardsShares (es : List Event) : Prop :=
  ∀ earlier e later, es = earlier ++ e :: later → e.call = .sealVault →
    (∀ attempt, e.after.core.gathered attempt = []) ∧
    Run.Throughout (fun mid e' => ∀ attempt share,
      share ∈ e'.after.core.gathered attempt ∨ share ∈ e'.combined attempt →
        share ∈ submittedShares attempt (mid ++ [e'])) later

/-! ### One call -/

/-- A call adds to each attempt at most the share it submits to it. -/
def Event.Adds (e : Event) : Prop :=
  ∀ attempt share, share ∈ e.after.core.gathered attempt →
    share ∈ e.before.core.gathered attempt ∨ e.call.share attempt = some share

theorem Event.Adds.of {e : Event}
    (hunseal : ∀ share ∈ e.after.core.gathered .unsealing,
      share ∈ e.before.core.gathered .unsealing ∨ e.call.share .unsealing = some share)
    (hroot : ∀ share ∈ e.after.core.gathered .rootGeneration,
      share ∈ e.before.core.gathered .rootGeneration ∨ e.call.share .rootGeneration = some share)
    (hrekey : ∀ share ∈ e.after.core.gathered .rekeying,
      share ∈ e.before.core.gathered .rekeying ∨ e.call.share .rekeying = some share) :
    e.Adds := by
  intro attempt
  cases attempt with
  | unsealing => exact hunseal
  | rootGeneration => exact hroot
  | rekeying => exact hrekey

section Cases

variable {shares : List Share} {p : Share → Prop}

private theorem stays : ∀ share ∈ shares, share ∈ shares ∨ p share := fun _ => .inl

private theorem dropped : ∀ share ∈ ([] : List Share), share ∈ shares ∨ p share :=
  fun _ h => (by cases h)

private theorem added {new : Share} :
    ∀ share ∈ gather shares new, share ∈ shares ∨ some new = some share :=
  fun _ h => (mem_gather.mp h).imp_right fun h => congrArg some h.symm

end Cases

theorem StepOutcome.adds {call : VaultCall} {result : Except Err Answer} {s' : VaultState}
    (h : StepOutcome P env s call result s') : Event.Adds ⟨s, call, result, s'⟩ := by
  cases h with
  | init outcome answer =>
    cases outcome with
    | refused halted => exact .of stays stays stays
    | stranded fresh left =>
      rcases left.core with hcore | ⟨-, hcore⟩
      · subst hcore
        exact .of stays stays stays
      · subst hcore
        exact .of stays stays stays
    | started fresh started => cases started <;> exact .of stays stays stays
  | unsealed outcome answer =>
    cases outcome with
    | refused store => exact .of stays stays stays
    | already store => exact .of stays stays stays
    | gathered store => exact .of added stays stays
    | unsealed store => exact .of dropped stays stays
    | failed store => exact .of dropped stays stays
  | sealed => exact .of dropped stays stays
  | rekeyStarted store => exact .of stays stays dropped
  | rekeyed outcome answer =>
    cases outcome with
    | refused store => exact .of stays stays stays
    | gathered store ready =>
      refine .of stays stays ?_
      unfold Core.gathered
      rw [ready.inProgress]
      exact added
    | ended store => exact .of stays stays dropped
    | replaced ready => exact .of stays stays dropped
  | rekeyCancelled => exact .of stays stays dropped
  | rootStarted store => exact .of stays dropped stays
  | rootUpdated outcome answer =>
    cases outcome with
    | refused store => exact .of stays stays stays
    | gathered store hattempt =>
      refine .of stays ?_ stays
      unfold Core.gathered
      rw [hattempt]
      exact added
    | ended store => exact .of stays dropped stays
    | minted hattempt => exact .of stays dropped stays
  | rootCancelled => exact .of stays dropped stays
  | _ => exact .of stays stays stays

/-- The shares a submission is combined with were there, or it is the one submitted. -/
theorem Event.mem_combined {e : Event} {attempt : Attempt} {share : Share}
    (h : share ∈ e.combined attempt) :
    share ∈ e.before.core.gathered attempt ∨ e.call.share attempt = some share := by
  unfold Event.combined at h
  cases hcall : e.call.share attempt with
  | none =>
    rw [hcall] at h
    cases h
  | some own =>
    rw [hcall] at h
    exact (mem_gather.mp h).imp_right fun h => congrArg some h.symm

/-! ### Every run -/

theorem submittedShares_append (attempt : Attempt) (es : List Event) (e : Event) :
    submittedShares attempt (es ++ [e])
      = submittedShares attempt es ++ (e.call.share attempt).toList := by
  unfold submittedShares
  rw [List.filterMap_append]
  cases h : e.call.share attempt <;> simp [h]

/-- Whatever the events `es` left gathered, or combined, had been submitted among them. -/
structure Since (es : List Event) (s : VaultState) : Prop where
  coherent : s.Coherent
  held : ∀ attempt share, share ∈ s.core.gathered attempt → share ∈ submittedShares attempt es
  throughout : Run.Throughout (fun mid e => ∀ attempt share,
    share ∈ e.after.core.gathered attempt ∨ share ∈ e.combined attempt →
      share ∈ submittedShares attempt (mid ++ [e])) es

theorem Since.step {es : List Event} (h : Since es s) (call : VaultCall) :
    Since (es ++ [s.step P env call]) (s.step P env call).after := by
  have hout := step_outcome P env h.coherent call
  have hnew : ∀ attempt share,
      share ∈ s.core.gathered attempt ∨ call.share attempt = some share →
      share ∈ submittedShares attempt (es ++ [s.step P env call]) := by
    intro attempt share hshare
    rw [submittedShares_append, List.mem_append, Option.mem_toList]
    exact hshare.imp_left (h.held attempt share)
  refine ⟨hout.move.coherent h.coherent, ?_, Run.throughout_append.mpr ⟨h.throughout, ?_⟩⟩
  · exact fun attempt share hshare => hnew attempt share (hout.adds attempt share hshare)
  · rintro attempt share (hshare | hshare)
    · exact hnew attempt share (hout.adds attempt share hshare)
    · exact hnew attempt share (Event.mem_combined hshare)

/-- From a state in which nothing is gathered, all that is ever held was submitted since. -/
theorem since_run (hs : s.Coherent) (hempty : ∀ attempt, s.core.gathered attempt = [])
    (calls : List VaultCall) : Since (s.events P env calls) (s.after P env calls) := by
  refine Run.holds ⟨hs, fun attempt share h => ?_, Run.throughout_nil⟩
    (fun _ _ call h => h.step call) calls
  rw [hempty attempt] at h
  cases h

/-- Sealing drops the unseal shares, and what else is gathered stays. -/
theorem gathered_of_seal (s : VaultState) (attempt : Attempt) :
    (s.step P env .sealVault).after.core.gathered attempt
      = if attempt = .unsealing then [] else s.core.gathered attempt := by
  cases attempt <;> rfl

/--
**Sealing discards the gathered shares exactly if neither a root generation nor a
rekey has gathered any**, in every run of either mode and whatever fails.

The shares gathered for unsealing are dropped in every case.  Those of an attempt to
regenerate the root token or to rekey outlive the seal, and the attempt goes on with
them once the vault is unsealed again.
-/
theorem seal_discards_shares_iff (P : Platform) (env : Env) (mode : Option AutoSeal) (ha : Bool)
    (tick : Nat) (calls : List VaultCall) :
    DiscardsShares ((VaultState.blank mode ha tick).events P env calls) ↔
      ∀ e ∈ (VaultState.blank mode ha tick).events P env calls, e.call = .sealVault →
        e.before.core.gathered .rootGeneration = [] ∧ e.before.core.gathered .rekeying = [] := by
  constructor
  · intro h e he hseal
    obtain ⟨earlier, later, hsplit⟩ := List.append_of_mem he
    have hempty := (h earlier e later hsplit hseal).1
    obtain ⟨before, call, rest, -, -, rfl, -⟩ := Run.history_split _ _ hsplit
    have hcall : call = .sealVault := hseal
    subst hcall
    exact ⟨hempty .rootGeneration, hempty .rekeying⟩
  · intro h earlier e later hsplit hseal
    have hnone := h e (by rw [hsplit]; simp) hseal
    obtain ⟨before, call, rest, -, -, rfl, rfl⟩ := Run.history_split _ _ hsplit
    have hcall : call = .sealVault := hseal
    subst hcall
    have hempty : ∀ attempt, (VaultState.step P env (Run.final (VaultState.step P env) Event.after
        (VaultState.blank mode ha tick) before) .sealVault).after.core.gathered attempt = [] := by
      intro attempt
      rw [gathered_of_seal]
      cases attempt with
      | unsealing => rfl
      | rootGeneration => exact hnone.1
      | rekeying => exact hnone.2
    refine ⟨hempty, (since_run ?_ hempty rest).throughout⟩
    have hcoherent := (rootReached_run P env mode ha tick before).coherent
    exact (step_outcome P env hcoherent .sealVault).move.coherent hcoherent

/-- A share given to a rekey is held after the vault is sealed. -/
theorem seal_keeps_rekey_share :
    ∃ calls, ¬ DiscardsShares
      ((VaultState.blank none false 0).events .transparent .counting calls) := by
  refine ⟨rekeyStarted ++ rekeyShares 1 ++ [.sealVault], fun h => ?_⟩
  have hempty := (h _ _ [] (Run.history_append _ _ (rekeyStarted ++ rekeyShares 1) .sealVault _)
    rfl).1 .rekeying
  exact absurd hempty (by decide +kernel)

end UbixVault
