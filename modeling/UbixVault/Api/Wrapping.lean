/-
The endpoints for wrapping, as package `api` serves them.

How long a payload is kept stands in a header, as a duration or as a number of seconds.
The number is multiplied in integers of 64 bits, before the store looks at the result.
-/
import UbixVault.Api.Sys
import UbixVault.Duration
import UbixVault.Wrapping

namespace UbixVault.Wrapping

/-- What the handler for wrapping works with. -/
structure Handler where
  wrapping : Store
  /-- How `time.ParseDuration` converts a fraction. -/
  fraction : Bytes → Nat → Nat
  /-- `time.RFC3339`. -/
  format : Time → Bytes

def wrapTTLHeader : Bytes := str "X-Vault-Wrap-TTL"

/-- The `wrap_info` of a response. -/
structure WrapInfo where
  token : Bytes
  ttl : Int
  creationTime : Bytes
  expiresAt : Bytes

def writeWrappingError (e : Err) : UbixVault.Response :=
  if e.is (.barrier .sealed) then Api.writeError Api.statusServiceUnavailable (str "vault is sealed")
  else if e.is (.wrapping .notFound) ∨ e.is (.wrapping .expired) then
    Api.writeError Api.statusBadRequest (str "wrapping token is invalid or already used")
  else if e.is (.wrapping .invalidTTL) then Api.writeError Api.statusBadRequest e.message
  else Api.writeInternal e

namespace Handler

variable (h : Handler)

/-- A duration, or a whole number of seconds; nothing means the default. -/
def parseWrapTTL (s : Bytes) : Except UbixVault.Response Time :=
  if s = [] then .ok 0
  else
    match Duration.parseDuration h.fraction s with
    | some d =>
      if d < 0 then
        .error (Api.writeError Api.statusBadRequest (wrapTTLHeader ++ str " must not be negative"))
      else .ok d
    | none =>
      match (Duration.atoi64 s).filter (0 ≤ ·) with
      | some secs => .ok (Duration.seconds secs)
      | none =>
        .error (Api.writeError Api.statusBadRequest
          (wrapTTLHeader ++ str " must be a duration (\"5m\") or seconds"))

/-- What is wrapped for a request: the call of the store, or the response that refuses it. -/
def wrapRequest (header : Bytes) (body : Decoded RawMessage) :
    Prog (Except UbixVault.Response Info) :=
  match h.parseWrapTTL header with
  | .error r => return .error r
  | .ok ttl =>
    match body with
    | .error message =>
      return .error (Api.writeError Api.statusBadRequest (str "invalid request body: " ++ message))
    | .ok payload => do
        match ← (h.wrapping.wrap payload ttl).run with
        | .error e => return .error (writeWrappingError e)
        | .ok info => return .ok info

def sysWrappingWrap (header : Bytes) (body : Decoded RawMessage) :
    Prog (Except UbixVault.Response WrapInfo) := do
  match ← h.wrapRequest header body with
  | .error r => return .error r
  | .ok info =>
    return .ok {
      token := info.token
      ttl := info.ttl.tdiv Duration.second
      creationTime := h.format info.creationTime
      expiresAt := h.format info.expiresAt }

end Handler

end UbixVault.Wrapping
