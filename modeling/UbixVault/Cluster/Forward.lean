/-
Forwarding between replicas.

A standby proxies a request to the active replica's cluster listener and relays the
response.  The listener refuses a request if its replica is not active; otherwise
its API serves it, which looks at the replica's state once more.  Between any two
of these steps replicas are sealed, lose the lock or win it.

A run follows one client request.  Every replica that works on it has a frame, the
forwarding ones waiting for the reply of another.  Frames move independently: a
replica that has lost the connection to the one it sent to does not stop that one.
That a dial error means that nothing was sent, and that the transport does not send
a request again by itself, is how `leader` and `sent` are written.
-/
import UbixVault.Basic
import UbixVault.Lib.Run

namespace UbixVault.Cluster

/-! ### Which requests a standby serves itself -/

def publicEndpoint (path : Bytes) : Bool :=
  str "/ui/" <+: path ||
    path ∈ [str "/", str "/ui", str "/v1/sys/health", str "/v1/sys/livez", str "/v1/sys/metrics"]

def standbyEndpoint (path : Bytes) : Bool :=
  publicEndpoint path ||
    path ∈ [str "/v1/sys/seal-status", str "/v1/sys/unseal", str "/v1/sys/seal",
      str "/v1/sys/init", str "/v1/sys/leader", str "/v1/sys/storage/raft/join"]

/-! ### The forwarder -/

def leaderCacheTTL : Time := 1000000000

/-- What a forwarder remembers of the leader, and whether it may serve requests itself. -/
structure Forwarder where
  cached : Bytes
  cachedSelf : Bool
  cachedAt : Time
  /-- `ServeLocally` has been called. -/
  «local» : Bool
  deriving DecidableEq

namespace Forwarder

/-- The leader's address and whether it is this replica, from the cache or from `leader`; the
clock is read before and after that. -/
def leaderAddr (f : Forwarder) (now later : Time) (leader : Except Err (Bytes × Bool)) :
    Except Err (Bytes × Bool) × Forwarder :=
  if f.cached ≠ [] ∧ now - f.cachedAt < leaderCacheTTL then (.ok (f.cached, f.cachedSelf), f)
  else
    match leader with
    | .error e => (.error e, f)
    | .ok (addr, self) =>
      (.ok (addr, self), { f with cached := addr, cachedSelf := self, cachedAt := later })

def forget (f : Forwarder) : Forwarder := { f with cached := [] }

end Forwarder

/-- Why a proxied request failed. -/
inductive ProxyError
  | notActive
  | dial
  /-- Anything else, after the request may have been sent. -/
  | transport
  deriving DecidableEq

/-- Whether a failed forward never reached a live active replica. -/
def retryable : ProxyError → Bool
  | .notActive => true
  | .dial => true
  | .transport => false

/-! ### Replicas and frames -/

structure Replica where
  /-- HA is on. -/
  enabled : Bool
  sealed : Bool
  active : Bool
  forwarder : Option Forwarder

namespace Replica

/-- `Core.Active`. -/
def isActive (r : Replica) : Bool := !r.sealed && (!r.enabled || r.active)

/-- `Core.Standby`. -/
def standby (r : Replica) : Bool := r.enabled && !r.sealed && !r.active

end Replica

/-- The client's request. -/
structure Request where
  path : Bytes
  bodyless : Bool

/-- Where a replica is with the request. -/
inductive Stage
  /-- In `ServerHandler`; `active` is read next. -/
  | listener
  /-- In the API; `Standby` is read next. -/
  | api
  /-- In the forwarder's loop; the leader is looked up next. -/
  | loop
  /-- At the end of a turn of the loop; the deadline is looked at next. -/
  | pause
  /-- The request was sent to the replica with frame `peer`, whose reply is awaited. -/
  | proxied (canRetry : Bool) (peer : Nat)
  /-- Refused as not active. -/
  | refused
  /-- Answered in any other way. -/
  | answered
  deriving DecidableEq

structure Frame (ρ : Type) where
  replica : ρ
  /-- The request came over the cluster listener. -/
  forwarded : Bool
  stage : Stage

/-- The cluster, and what has become of the request. -/
structure System (ρ : Type) where
  replicas : ρ → Replica
  frames : List (Frame ρ)
  /-- The frames that sent the request, newest first, with the replica sent to. -/
  sent : List (Nat × ρ)
  /-- The replicas whose routed handlers ran. -/
  ran : List ρ

/-- What the proxy's error handler leaves: another turn of the loop, or the final answer. -/
def afterError (canRetry : Bool) (err : ProxyError) : Stage :=
  if canRetry && retryable err then .pause else .answered

/-- Where a turn of the forwarder's loop leads. -/
inductive Route
  /-- This replica is the leader and serves the request itself. -/
  | here
  | to (addr : Bytes)
  | nowhere
  deriving DecidableEq

/-- What the loop makes of the leader's address. -/
def route (f : Forwarder) (selfActive : Bool) (found : Except Err (Bytes × Bool)) : Route :=
  match found with
  | .error _ => .nowhere
  | .ok (addr, self) =>
    if self && f.local && selfActive then .here
    else if !self && addr ≠ [] then .to addr
    else .nowhere

/-- What addresses mean: whether one parses, and which replica listens there. -/
structure Network (ρ : Type) where
  parses : Bytes → Bool
  listens : Bytes → ρ

/-- What happens next, with all that others decide. -/
inductive Event (ρ : Type)
  /-- A replica is sealed or unsealed, loses the lock or wins it. -/
  | change (r : ρ) (sealed active : Bool)
  | listener (frame : Nat)
  /-- The API is entered; quotas and auditing may turn the request away. -/
  | api (frame : Nat) (admitted : Bool)
  /-- A turn of the forwarder's loop: `early` if the deadline has not passed, `dialed` if a
  connection is made. -/
  | leader (frame : Nat) (now later : Time) (leader : Except Err (Bytes × Bool))
      (early dialed : Bool)
  | pause (frame : Nat) (expired : Bool)
  /-- The reply of the peer arrives. -/
  | reply (frame : Nat)
  /-- The connection breaks, or the client goes away, while the reply is awaited. -/
  | broken (frame : Nat)

namespace System

variable {ρ : Type} [DecidableEq ρ] (net : Network ρ) (req : Request) (s : System ρ)

def setStage (i : Nat) (stage : Stage) : System ρ :=
  { s with frames := s.frames.modify i fun f => { f with stage } }

def setForwarder (r : ρ) (f : Forwarder) : System ρ :=
  { s with replicas := Function.update s.replicas r { s.replicas r with forwarder := some f } }

def forget (r : ρ) : System ρ :=
  match (s.replicas r).forwarder with
  | none => s
  | some f => s.setForwarder r f.forget

/-- The API's entry. -/
def enterApi (i : Nat) (r : ρ) (admitted : Bool) : System ρ :=
  if (s.replicas r).standby && !standbyEndpoint req.path then
    s.setStage i (if (s.replicas r).forwarder.isSome then .loop else .answered)
  else if admitted then { s.setStage i .answered with ran := r :: s.ran }
  else s.setStage i .answered

/-- The request goes to the replica that listens at an address, if it can be reached. -/
def sendTo (i : Nat) (r : ρ) (addr : Bytes) (early dialed : Bool) : System ρ :=
  let canRetry := req.bodyless && early
  if net.parses addr then
    if dialed then
      { s.setStage i (.proxied canRetry s.frames.length) with
        frames := (s.setStage i (.proxied canRetry s.frames.length)).frames ++
          [⟨net.listens addr, true, .listener⟩]
        sent := (i, net.listens addr) :: s.sent }
    else (s.forget r).setStage i (afterError canRetry .dial)
  else (s.forget r).setStage i .answered

/-- A turn of the forwarder's loop. -/
def lookLeader (i : Nat) (r : ρ) (f : Forwarder) (now later : Time)
    (leader : Except Err (Bytes × Bool)) (early dialed : Bool) : System ρ :=
  let (found, f') := f.leaderAddr now later leader
  let s := s.setForwarder r f'
  match route f (s.replicas r).isActive found with
  | .here => s.setStage i .api
  | .to addr => s.sendTo net req i r addr early dialed
  | .nowhere => s.setStage i .pause

/-- One step; an event that does not fit the state does not happen. -/
def step (e : Event ρ) : Option (System ρ) :=
  match e with
  | .change r sealed active =>
    some { s with
      replicas := Function.update s.replicas r { s.replicas r with sealed, active } }
  | .listener i =>
    match s.frames[i]? with
    | some ⟨r, _, .listener⟩ =>
      some (s.setStage i (if (s.replicas r).isActive then .api else .refused))
    | _ => none
  | .api i admitted =>
    match s.frames[i]? with
    | some ⟨r, _, .api⟩ => some (s.enterApi req i r admitted)
    | _ => none
  | .leader i now later leader early dialed =>
    match s.frames[i]? with
    | some ⟨r, _, .loop⟩ =>
      (s.replicas r).forwarder.map fun f =>
        s.lookLeader net req i r f now later leader early dialed
    | _ => none
  | .pause i expired =>
    match s.frames[i]? with
    | some ⟨_, _, .pause⟩ => some (s.setStage i (if expired then .answered else .loop))
    | _ => none
  | .reply i =>
    match s.frames[i]? with
    | some ⟨r, _, .proxied canRetry peer⟩ =>
      match (s.frames[peer]?).map Frame.stage with
      | some .refused => some ((s.forget r).setStage i (afterError canRetry .notActive))
      | some .answered => some (s.setStage i .answered)
      | _ => none
    | _ => none
  | .broken i =>
    match s.frames[i]? with
    | some ⟨r, _, .proxied canRetry _⟩ =>
      some ((s.forget r).setStage i (afterError canRetry .transport))
    | _ => none

/-- A client's request arrives at a replica. -/
def arrive (replicas : ρ → Replica) (r : ρ) : System ρ := ⟨replicas, [⟨r, false, .api⟩], [], []⟩

/-- One step of the system, as a relation. -/
def Step (s : System ρ) (e : Event ρ) (s' : System ρ) : Prop := s.step net req e = some s'

/-- A request that came over the cluster listener finds, on entering the API, that its replica
has become a standby meanwhile. -/
def reforwards (req : Request) (s : System ρ) (e : Event ρ) : Bool :=
  match e with
  | .api i _ =>
    match s.frames[i]? with
    | some f => f.forwarded && (s.replicas f.replica).standby && !standbyEndpoint req.path
    | none => false
  | _ => false

/-- How often a replica has sent the request. -/
def sentBy (s : System ρ) (r : ρ) : Nat :=
  s.sent.countP fun (i, _) => (s.frames[i]?).map Frame.replica = some r

end System

end UbixVault.Cluster
