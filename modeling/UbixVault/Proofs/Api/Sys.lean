/-
A request is at most one call of the machine.

`Request.call` reads off a request which call it leads to, if any.  Serving it then
moves the vault as the call does, and the response relays the shares that the call
returned without an error.  A request that leads to no call leaves the core and the
store alone and hands out nothing.
-/
import UbixVault.Api.Sys
import UbixVault.Proofs.Core.Machine

namespace UbixVault

open Program Shamir

variable {P : Platform} {s : VaultState} {visit : Visit}

/-- The call of the machine that a request leads to. -/
def Request.call (c : Core) : Request → Option VaultCall
  | .initVault (.ok req) =>
    if req.pgpKeys ≠ [] ∨ req.rootTokenPGPKey ≠ [] ∨ req.recoveryPGPKeys ≠ [] then none
    else if req.storedShares ≠ 0 then none
    else some (.initVault (Api.initConfig c req))
  | .unsealShare (.ok req) =>
    if req.reset ∨ req.migrate then none else (Api.decodeShare req.key).map .unsealShare
  | .sealVault => some .sealVault
  | .rekeyInit (.ok req) => some (.rekeyInit req.secretShares req.secretThreshold)
  | .rekeyCancel => some .rekeyCancel
  | .rekeyUpdate (.ok req) => (Api.decodeShare req.key).map (.rekeyUpdate req.nonce)
  | _ => none

/-- The unseal shares that a call returned without an error. -/
def Event.reported (e : Event) : List Share :=
  match e.result with
  | .ok (.init res) => res.keys
  | .ok (.rekey st none) => st.keys
  | _ => []

/-- The response to an init request that went through. -/
def Body.IsInit (b : Body) : Prop := ∃ r, b = .init r

instance decidableIsInit (b : Body) : Decidable b.IsInit :=
  decidable_of_iff ((match b with
      | .init _ => true
      | _ => false) = true) (by cases b <;> simp [Body.IsInit])

/-- A response says what the call returned. -/
structure Relays (e : Event) (r : Response) : Prop where
  /-- Every share stands there twice, in hexadecimal and in base64. -/
  shares : r.body.shares = e.reported ++ e.reported
  init : r.body.IsInit ↔ ∃ issue res, e.issue = some issue ∧ e.result = .ok (.init res)

/-! ### Bodies -/

theorem shares_decode (keys : List Share) :
    (keys.map hexEncode).filterMap hexDecode ++ (keys.map base64Encode).filterMap base64Decode
      = keys ++ keys := by
  have hhex : hexDecode ∘ hexEncode = some := funext hexDecode_hexEncode
  have hbase64 : base64Decode ∘ base64Encode = some := funext base64Decode_base64Encode
  rw [List.filterMap_map, List.filterMap_map, hhex, hbase64, List.filterMap_some]

@[simp] theorem shares_toRekeyResponse (st : RekeyStatus) :
    (Body.rekey (Api.toRekeyResponse st)).shares = st.keys ++ st.keys := shares_decode st.keys

@[simp] theorem shares_toInitResponse (res : InitResult) :
    (Body.init (Api.toInitResponse res)).shares = res.keys ++ res.keys := shares_decode res.keys

/-- Bodies without shares that are not the answer to an init request. -/
structure Body.Plain (b : Body) : Prop where
  shares : b.shares = []
  notInit : ¬ b.IsInit

theorem Body.plain_errors (messages : List Bytes) : (Body.errors messages).Plain :=
  ⟨rfl, fun h => by obtain ⟨r, hr⟩ := h; cases hr⟩

theorem Body.plain_status (r : StatusResponse) : (Body.status r).Plain :=
  ⟨rfl, fun h => by obtain ⟨r, hr⟩ := h; cases hr⟩

theorem Body.plain_empty : Body.empty.Plain :=
  ⟨rfl, fun h => by obtain ⟨r, hr⟩ := h; cases hr⟩

theorem writeRekeyError_plain (e : Err) : (Api.writeRekeyError e).body.Plain := by
  unfold Api.writeRekeyError
  split_ifs <;> exact Body.plain_errors _

/-- A plain body relays a call that reported nothing. -/
theorem Body.Plain.relays {r : Response} {e : Event} (h : r.body.Plain) (hnone : e.reported = [])
    (hinit : ∀ res, e.result ≠ .ok (.init res)) : Relays e r :=
  ⟨by rw [h.shares, hnone]; rfl, fun hr => (h.notInit hr).elim,
    fun ⟨_, res, _, hr⟩ => (hinit res hr).elim⟩

/-! ### Handlers that make a call -/

/-- The handler makes one call and answers with what it makes of the outcome. -/
def Answers {α : Type} (handler : Core → Prog (Response × Core)) (x : CoreM α)
    (respond : Except Err α → Response) (c : Core) : Prop :=
  ∃ next : Except Err α → Api.Handler, handler c = (x.run >>= next) c ∧
    ∀ r, next r = pure (respond r)

theorem Answers.run {α : Type} {handler : Core → Prog (Response × Core)} {x : CoreM α}
    {respond : Except Err α → Response} {c : Core} {env : Env}
    (h : Answers handler x respond c) (w : World) :
    (handler c).run env.answer w
      = ((respond (execState env.answer x c w).1.1, (execState env.answer x c w).1.2),
          (execState env.answer x c w).2) := by
  obtain ⟨next, hhandler, hnext⟩ := h
  rw [hhandler]
  show (x.run c >>= fun p => next p.1 p.2).run env.answer w = _
  rw [run_bind, hnext]
  rfl

/-- Such a handler moves the vault as the call does. -/
theorem Answers.serve {α : Type} {x : CoreM α} (respond : Except Err α → Response)
    {call : VaultCall} {g : α → Answer}
    (h : Answers (visit.request.handler P) x respond s.core)
    (hperform : call.perform P = x >>= fun a => pure (g a))
    (hrelays : ∀ (r : Except Err α) (s' : VaultState),
      Relays ⟨s, call, r.map g, s'⟩ (respond r)) :
    (s.serve P visit).after = (s.step P visit.env call).after ∧
      Relays (s.step P visit.env call) (s.serve P visit).response := by
  unfold VaultState.serve VaultState.step
  rw [h.run, hperform, execState_bind_pure]
  exact ⟨rfl, hrelays _ _⟩

theorem relays_rekey {call : VaultCall} (r : Except Err RekeyStatus) (s' : VaultState) :
    Relays ⟨s, call, r.map fun st => .rekey st none, s'⟩
      (match r with
        | .error e => Api.writeRekeyError e
        | .ok st => Api.writeJSON Api.statusOK (.rekey (Api.toRekeyResponse st))) := by
  cases r with
  | error e => exact (writeRekeyError_plain e).relays rfl fun _ h => by cases h
  | ok st =>
    refine ⟨shares_toRekeyResponse st, ?_, ?_⟩
    · rintro ⟨r, hr⟩
      cases hr
    · rintro ⟨issue, res, -, hres⟩
      cases hres

/-- What the handler does once the core has initialized the vault. -/
def answerInit : Except Err InitResult → Api.Handler
  | .error e => pure (Api.writeError Api.statusBadRequest e.message)
  | .ok res => pure (Api.writeJSON Api.statusOK (.init (Api.toInitResponse res)))

/-- **A request that leads to a call moves the vault as the call does.** -/
theorem serve_of_call (P : Platform) (s : VaultState) (visit : Visit) {call : VaultCall}
    (h : visit.request.call s.core = some call) :
    (s.serve P visit).after = (s.step P visit.env call).after ∧
      Relays (s.step P visit.env call) (s.serve P visit).response := by
  obtain ⟨env, request⟩ := visit
  cases request with
  | sealStatus => cases h
  | rekeyStatus => cases h
  | initVault body =>
    cases body with
    | error message => cases h
    | ok req =>
      dsimp only [Request.call] at h
      split_ifs at h with hpgp hstored
      cases h
      refine Answers.serve (x := Core.initializeVault P (Api.initConfig s.core req))
        (fun r => r.casesOn (fun e => Api.writeError Api.statusBadRequest e.message)
          fun res => Api.writeJSON Api.statusOK (.init (Api.toInitResponse res))) ?_ rfl ?_
      · unfold Answers Request.handler Api.initializeVault Api.decodeJSON
        dsimp only
        rw [if_neg hpgp, if_neg hstored]
        exact ⟨answerInit, rfl, by rintro (e | res) <;> rfl⟩
      · rintro (e | res) s'
        · exact (Body.plain_errors _).relays rfl fun _ h => by cases h
        · exact ⟨shares_toInitResponse res, fun _ => ⟨_, res, rfl, rfl⟩, fun _ => ⟨_, rfl⟩⟩
  | unsealShare body =>
    cases body with
    | error message => cases h
    | ok req =>
      dsimp only [Request.call] at h
      split_ifs at h with hreset
      obtain ⟨share, hshare, rfl⟩ := Option.map_eq_some_iff.mp h
      refine Answers.serve (x := Core.unseal P share)
        (fun r => r.casesOn (fun e => Api.writeError Api.statusBadRequest e.message)
          Api.writeStatus) ?_ rfl ?_
      · unfold Answers Request.handler Api.unseal Api.decodeJSON
        dsimp only
        rw [if_neg hreset, hshare]
        exact ⟨_, rfl, by rintro (e | st) <;> rfl⟩
      · rintro (e | st) s'
        · exact (Body.plain_errors _).relays rfl fun _ h => by cases h
        · exact (Body.plain_status _).relays rfl fun _ h => by cases h
  | sealVault =>
    cases h
    refine Answers.serve (x := Core.seal) (g := fun _ => .done) _ ⟨_, rfl, fun _ => rfl⟩ rfl ?_
    rintro (e | _) s' <;> exact Body.plain_empty.relays rfl fun _ h => by cases h
  | rekeyInit body =>
    cases body with
    | error message => cases h
    | ok req =>
      cases h
      exact Answers.serve (x := Core.rekeyInit P req.secretShares req.secretThreshold) _
        ⟨_, rfl, by rintro (e | st) <;> rfl⟩ rfl relays_rekey
  | rekeyCancel =>
    cases h
    refine Answers.serve (x := Core.rekeyCancel) (g := fun _ => .done) _ ⟨_, rfl, fun _ => rfl⟩
      rfl ?_
    rintro (e | _) s' <;> exact Body.plain_empty.relays rfl fun _ h => by cases h
  | rekeyUpdate body =>
    cases body with
    | error message => cases h
    | ok req =>
      obtain ⟨share, hshare, rfl⟩ := Option.map_eq_some_iff.mp h
      refine Answers.serve (x := Core.rekeyUpdate P req.nonce share)
        (fun r => r.casesOn Api.writeRekeyError fun p => p.2.casesOn
          (Api.writeJSON Api.statusOK (.rekey (Api.toRekeyResponse p.1))) Api.writeRekeyError)
        ?_ rfl ?_
      · unfold Answers Request.handler Api.rekeyUpdate Api.decodeJSON
        dsimp only
        rw [hshare]
        exact ⟨_, rfl, by rintro (e | ⟨st, _ | e⟩) <;> rfl⟩
      · rintro (e | ⟨st, _ | e⟩) s'
        · exact (writeRekeyError_plain e).relays rfl fun _ h => by cases h
        · exact relays_rekey (.ok st) s'
        · exact (writeRekeyError_plain e).relays rfl fun _ h => by cases h

/-! ### Requests that lead to no call -/

theorem status_spec {env : Env} {c : Core} {w : World} :
    YieldsState env.answer (Core.status P) c w (fun _ c' w' => c' = c ∧ w'.store = w.store)
      (fun _ c' w' => c' = c ∧ w'.store = w.store) := by
  refine YieldsState.get_bind (YieldsState.bind (YieldsState.outcome (readSealConfig_spec.mono ?_ ?_)))
  · rintro cfg w₁ ⟨-, hs, -⟩
    exact YieldsState.pure ⟨rfl, hs⟩
  · rintro e w₁ hhalt
    dsimp only
    split
    · exact YieldsState.pure ⟨rfl, hhalt.store⟩
    · exact YieldsState.throw ⟨rfl, hhalt.store⟩

theorem rekeyStatus_spec {env : Env} {c : Core} {w : World} :
    YieldsState env.answer (Core.rekeyStatus P) c w
      (fun st c' w' => st.keys = [] ∧ c' = c ∧ w'.store = w.store)
      (fun _ c' w' => c' = c ∧ w'.store = w.store) := by
  refine YieldsState.get_bind ?_
  cases hrekey : c.rekey with
  | none => exact YieldsState.pure ⟨rfl, rfl, rfl⟩
  | some attempt =>
    refine YieldsState.bind (YieldsState.stateless (readSealConfig_spec.mono ?_
      fun _ _ h => ⟨rfl, h.store⟩))
    rintro cfg w₁ ⟨-, hs, -⟩
    exact YieldsState.pure ⟨rfl, rfl, hs⟩

/-- An exchange that changed nothing but the time and handed out nothing. -/
structure Quiet (s : VaultState) (x : Exchange) : Prop where
  core : x.after.core = s.core
  store : x.after.world.store = s.world.store
  plain : x.response.body.Plain

/-- A handler whose call only reads. -/
theorem Answers.quiet {α : Type} {x : CoreM α} (respond : Except Err α → Response)
    (h : Answers (visit.request.handler P) x respond s.core)
    (hx : YieldsState visit.env.answer x s.core s.world
      (fun a c w => (respond (.ok a)).body.Plain ∧ c = s.core ∧ w.store = s.world.store)
      (fun e c w => (respond (.error e)).body.Plain ∧ c = s.core ∧ w.store = s.world.store)) :
    Quiet s (s.serve P visit) := by
  have hrun := hx.outcome_holds (O := fun r c (w : World) =>
    (respond r).body.Plain ∧ c = s.core ∧ w.store = s.world.store)
  unfold VaultState.serve
  rw [h.run]
  exact ⟨hrun.2.1, hrun.2.2, hrun.1⟩

/-- A handler that writes an error at once. -/
theorem quiet_of_error (message : Bytes) (h : visit.request.handler P s.core
      = pure (Api.writeError Api.statusBadRequest message, s.core)) :
    Quiet s (s.serve P visit) := by
  unfold VaultState.serve
  rw [h]
  exact ⟨rfl, rfl, Body.plain_errors _⟩

/-- **Every other request changes nothing.** -/
theorem serve_of_no_call (P : Platform) (s : VaultState) (visit : Visit)
    (h : visit.request.call s.core = none) : Quiet s (s.serve P visit) := by
  obtain ⟨env, request⟩ := visit
  cases request with
  | sealStatus =>
    refine Answers.quiet (x := Core.status P)
      (fun r => r.casesOn Api.writeInternal Api.writeStatus) ⟨_, rfl, by rintro (e | st) <;> rfl⟩
        (status_spec.mono ?_ ?_)
    · exact fun st c w h => ⟨Body.plain_status _, h⟩
    · exact fun e c w h => ⟨Body.plain_errors _, h⟩
  | rekeyStatus =>
    refine Answers.quiet (x := Core.rekeyStatus P) (fun r => r.casesOn Api.writeRekeyError
      fun st => Api.writeJSON Api.statusOK (.rekey (Api.toRekeyResponse st)))
      ⟨_, rfl, by rintro (e | st) <;> rfl⟩ (rekeyStatus_spec.mono ?_ ?_)
    · rintro st c w ⟨hkeys, h⟩
      refine ⟨⟨?_, ?_⟩, h⟩
      · show (Body.rekey (Api.toRekeyResponse st)).shares = []
        rw [shares_toRekeyResponse, hkeys]
        rfl
      · rintro ⟨r, hr⟩
        cases hr
    · exact fun e c w h => ⟨writeRekeyError_plain e, h⟩
  | initVault body =>
    cases body with
    | error message => exact quiet_of_error _ rfl
    | ok req =>
      dsimp only [Request.call] at h
      split_ifs at h with hpgp hstored
      · refine quiet_of_error (str ("PGP-encrypted keys " ++
          "(pgp_keys, root_token_pgp_key, recovery_pgp_keys) are not supported")) ?_
        unfold Request.handler Api.initializeVault Api.decodeJSON
        dsimp only
        rw [if_pos hpgp]
        rfl
      · refine quiet_of_error (str "stored_shares is not supported") ?_
        unfold Request.handler Api.initializeVault Api.decodeJSON
        dsimp only
        rw [if_neg hpgp, if_pos hstored]
        rfl
  | unsealShare body =>
    cases body with
    | error message => exact quiet_of_error _ rfl
    | ok req =>
      dsimp only [Request.call] at h
      split_ifs at h with hreset
      · refine quiet_of_error
          (str "unseal reset and migrate are not supported") ?_
        unfold Request.handler Api.unseal Api.decodeJSON
        dsimp only
        rw [if_pos hreset]
        rfl
      · refine quiet_of_error (str "key must be valid hex or base64") ?_
        unfold Request.handler Api.unseal Api.decodeJSON
        dsimp only
        rw [if_neg hreset, Option.map_eq_none_iff.mp h]
        rfl
  | sealVault => cases h
  | rekeyInit body =>
    cases body with
    | error message => exact quiet_of_error _ rfl
    | ok req => cases h
  | rekeyCancel => cases h
  | rekeyUpdate body =>
    cases body with
    | error message => exact quiet_of_error _ rfl
    | ok req =>
      refine quiet_of_error (str "key must be valid hex or base64") ?_
      unfold Request.handler Api.rekeyUpdate Api.decodeJSON
      dsimp only
      rw [Option.map_eq_none_iff.mp h]
      rfl

end UbixVault
