/-
The HTTP handlers of the seal lifecycle: init, unseal, seal and rekey.

A handler reads a decoded body, makes at most one call of the core and writes one
response.  What the JSON decoder makes of a body is outside, so a request carries
either the decoded value or the decoder's message.  A response is its status code
and the value that is encoded into its body.
-/
import UbixVault.Machine

namespace UbixVault

open Shamir (Share)

/-! ### Requests and responses -/

/-- A body as the JSON decoder leaves it: a value, or the text of its error. -/
abbrev Decoded (α : Type) : Type := Except Bytes α

/-- Every field of Vault's init request; those not implemented must be zero. -/
structure InitRequest where
  secretShares : Int
  secretThreshold : Int
  storedShares : Int
  pgpKeys : List Bytes
  rootTokenPGPKey : Bytes
  recoveryShares : Int
  recoveryThreshold : Int
  recoveryPGPKeys : List Bytes
  deriving DecidableEq

structure UnsealRequest where
  key : Bytes
  reset : Bool
  migrate : Bool
  deriving DecidableEq

structure RekeyInitRequest where
  secretShares : Int
  secretThreshold : Int
  deriving DecidableEq

structure RekeyUpdateRequest where
  nonce : Bytes
  key : Bytes
  deriving DecidableEq

structure InitResponse where
  /-- Unseal shares in hexadecimal. -/
  keys : List Bytes
  keysBase64 : List Bytes
  recoveryKeys : List Bytes
  recoveryKeysBase64 : List Bytes
  rootToken : Bytes
  deriving DecidableEq

structure RekeyResponse where
  started : Bool
  nonce : Bytes
  progress : Nat
  required : Int
  newShares : Int
  newThreshold : Int
  complete : Bool
  /-- New unseal shares in hexadecimal, only on completion. -/
  keys : List Bytes
  keysBase64 : List Bytes
  deriving DecidableEq

structure StatusResponse where
  initialized : Bool
  sealed : Bool
  type : Option SealType
  t : Int
  n : Int
  progress : Nat
  deriving DecidableEq

inductive Body
  | empty
  | errors (messages : List Bytes)
  | init (r : InitResponse)
  | rekey (r : RekeyResponse)
  | status (r : StatusResponse)
  deriving DecidableEq

structure Response where
  status : Nat
  body : Body
  deriving DecidableEq

namespace Api

/-- Handlers answer; they do not fail. -/
abbrev Handler : Type := StateT Core Prog Response

def statusOK : Nat := 200

def statusNoContent : Nat := 204

def statusBadRequest : Nat := 400

def statusInternalServerError : Nat := 500

def statusServiceUnavailable : Nat := 503

/-! ### Writing responses -/

def writeJSON (status : Nat) (body : Body) : Response := ⟨status, body⟩

def writeError (status : Nat) (message : Bytes) : Response := writeJSON status (.errors [message])

/-- The error itself is only logged. -/
def writeInternal (_ : Err) : Response :=
  writeError statusInternalServerError (str "internal error")

def writeStatus (st : SealStatus) : Response :=
  writeJSON statusOK (.status
    { initialized := st.initialized, sealed := st.sealed, type := st.type, t := st.threshold
      n := st.shares, progress := st.progress })

def writeRekeyError (e : Err) : Response :=
  if e.is (.core .notInitialized) then
    writeError statusBadRequest (str "vault is not initialized")
  else if e.is (.core .rekeySealed) then writeError statusServiceUnavailable e.message
  else if e.is (.core .rekeyNotShamir) ∨ e.is (.core .rekeyNotStarted) ∨
      e.is (.core .rekeyNonce) ∨ e.is (.core .invalidConfig) ∨ e.is (.core .invalidShare) ∨
      e.is (.core .unsealFailed) then writeError statusBadRequest e.message
  else writeInternal e

def toRekeyResponse (st : RekeyStatus) : RekeyResponse :=
  { started := st.started, nonce := st.nonce, progress := st.progress, required := st.required
    newShares := st.newShares, newThreshold := st.newThreshold, complete := st.complete
    keys := st.keys.map hexEncode, keysBase64 := st.keys.map base64Encode }

def toInitResponse (res : InitResult) : InitResponse :=
  { keys := res.keys.map hexEncode
    keysBase64 := res.keys.map base64Encode
    recoveryKeys := res.recoveryKeys.map hexEncode
    recoveryKeysBase64 := res.recoveryKeys.map base64Encode
    rootToken := res.rootToken }

/-! ### Reading requests -/

/-- A share in hexadecimal or, if it is not that, in base64. -/
def decodeShare (s : Bytes) : Option Share :=
  match hexDecode s with
  | some b => some b
  | none => base64Decode s

/-- Go on with the decoded body, or answer that there is none. -/
def decodeJSON {α : Type} (body : Decoded α) (next : α → Handler) : Handler :=
  match body with
  | .error message =>
    return writeError statusBadRequest (str "invalid request body: " ++ message)
  | .ok v => next v

/-! ### Handlers -/

variable (P : Platform)

def sealStatus : Handler := do
  match ← (Core.status P).run with
  | .error e => return writeInternal e
  | .ok st => return writeStatus st

/-- Recovery parameters count in auto-unseal mode, if given. -/
def initConfig (c : Core) (req : InitRequest) : InitConfig :=
  if c.autoSeal.isSome ∧ (req.recoveryShares ≠ 0 ∨ req.recoveryThreshold ≠ 0) then
    ⟨req.recoveryShares, req.recoveryThreshold⟩
  else ⟨req.secretShares, req.secretThreshold⟩

def initializeVault (body : Decoded InitRequest) : Handler :=
  decodeJSON body fun req =>
    if req.pgpKeys ≠ [] ∨ req.rootTokenPGPKey ≠ [] ∨ req.recoveryPGPKeys ≠ [] then
      return writeError statusBadRequest (str ("PGP-encrypted keys " ++
        "(pgp_keys, root_token_pgp_key, recovery_pgp_keys) are not supported"))
    else if req.storedShares ≠ 0 then
      return writeError statusBadRequest (str "stored_shares is not supported")
    else do
      let c ← get
      match ← (Core.initializeVault P (initConfig c req)).run with
      | .error e => return writeError statusBadRequest e.message
      | .ok res => return writeJSON statusOK (.init (toInitResponse res))

end Api

def Api.unseal (P : Platform) (body : Decoded UnsealRequest) : Api.Handler :=
  Api.decodeJSON body fun req =>
    if req.reset ∨ req.migrate then
      return Api.writeError Api.statusBadRequest
        (str "unseal reset and migrate are not supported")
    else
      match Api.decodeShare req.key with
      | none =>
        return Api.writeError Api.statusBadRequest (str "key must be valid hex or base64")
      | some share => do
          match ← (Core.unseal P share).run with
          | .error e => return Api.writeError Api.statusBadRequest e.message
          | .ok st => return Api.writeStatus st

/-- The handler behind `authenticate`. -/
def Api.seal : Api.Handler := do
  let _ ← Core.seal.run
  return Api.writeJSON Api.statusNoContent .empty

namespace Api

variable (P : Platform)

def rekeyStatus : Handler := do
  match ← (Core.rekeyStatus P).run with
  | .error e => return writeRekeyError e
  | .ok st => return writeJSON statusOK (.rekey (toRekeyResponse st))

def rekeyInit (body : Decoded RekeyInitRequest) : Handler :=
  decodeJSON body fun req => do
    match ← (Core.rekeyInit P req.secretShares req.secretThreshold).run with
    | .error e => return writeRekeyError e
    | .ok st => return writeJSON statusOK (.rekey (toRekeyResponse st))

def rekeyCancel : Handler := do
  let _ ← Core.rekeyCancel.run
  return writeJSON statusNoContent .empty

def rekeyUpdate (body : Decoded RekeyUpdateRequest) : Handler :=
  decodeJSON body fun req =>
    match decodeShare req.key with
    | none => return writeError statusBadRequest (str "key must be valid hex or base64")
    | some share => do
        match ← (Core.rekeyUpdate P req.nonce share).run with
        | .error e => return writeRekeyError e
        -- A status that comes with an error is not looked at.
        | .ok (_, some e) => return writeRekeyError e
        | .ok (st, none) => return writeJSON statusOK (.rekey (toRekeyResponse st))

end Api

/-! ### Serving requests -/

/-- The requests of the seal lifecycle. -/
inductive Request
  | sealStatus
  | initVault (body : Decoded InitRequest)
  | unsealShare (body : Decoded UnsealRequest)
  | sealVault
  | rekeyStatus
  | rekeyInit (body : Decoded RekeyInitRequest)
  | rekeyCancel
  | rekeyUpdate (body : Decoded RekeyUpdateRequest)

def Request.handler (P : Platform) : Request → Api.Handler
  | .sealStatus => Api.sealStatus P
  | .initVault body => Api.initializeVault P body
  | .unsealShare body => Api.unseal P body
  | .sealVault => Api.seal
  | .rekeyStatus => Api.rekeyStatus P
  | .rekeyInit body => Api.rekeyInit P body
  | .rekeyCancel => Api.rekeyCancel
  | .rekeyUpdate body => Api.rekeyUpdate P body

/-- A request and the outside that it meets. -/
structure Visit where
  env : Env
  request : Request

/-- A request that was answered. -/
structure Exchange where
  before : VaultState
  visit : Visit
  response : Response
  after : VaultState

namespace VaultState

variable (P : Platform)

/-- Serve one request. -/
def serve (s : VaultState) (visit : Visit) : Exchange :=
  let ((response, core), world) :=
    (visit.request.handler P s.core).run visit.env.answer s.world
  { before := s, visit, response, after := ⟨core, world⟩ }

/-- The state after a sequence of requests. -/
def served (s : VaultState) (visits : List Visit) : VaultState :=
  Run.final (serve P) Exchange.after s visits

/-- The exchanges of a sequence of requests. -/
def exchanges (s : VaultState) (visits : List Visit) : List Exchange :=
  Run.history (serve P) Exchange.after s visits

end VaultState

/-- The unseal shares in a body, in either encoding. -/
def Body.shares : Body → List Share
  | .init r => r.keys.filterMap hexDecode ++ r.keysBase64.filterMap base64Decode
  | .rekey r => r.keys.filterMap hexDecode ++ r.keysBase64.filterMap base64Decode
  | _ => []

/-- All unseal shares that clients were sent. -/
def deliveredShares (es : List Exchange) : List Share :=
  es.flatMap fun e => e.response.body.shares

end UbixVault
