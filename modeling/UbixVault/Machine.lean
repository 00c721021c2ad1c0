/-
The vault as a state machine.

Clients drive a vault through the calls below, one at a time, with any arguments.
Each call is an `Event` that records the state before, the result and the state
after, and a history is the list of events so far.  What a history says about
shares, who was issued which and which were received, is read off the events
alone.
-/
import UbixVault.Core
import UbixVault.Lib.Run

namespace UbixVault

open Shamir (Share)

/-- The calls of the seal lifecycle, and the two that change data. -/
inductive VaultCall
  | initVault (cfg : InitConfig)
  | unsealShare (share : Share)
  | sealVault
  | autoUnsealVault
  | rekeyInit (newShares newThreshold : Int)
  | rekeyUpdate (nonce : Bytes) (share : Share)
  | rekeyCancel
  | generateRootInit
  | generateRootUpdate (nonce : Bytes) (share : Share)
  | generateRootCancel
  | write (key : Key) (value : Bytes)
  | remove (key : Key)

/-- What a call returns. -/
inductive Answer
  | init (res : InitResult)
  | status (st : SealStatus)
  | rekey (st : RekeyStatus) (err : Option Err)
  | rootGen (st : RootGenStatus)
  | done

def VaultCall.perform (P : Platform) : VaultCall → CoreM Answer
  | .initVault cfg => do
      let res ← Core.initializeVault P cfg
      return .init res
  | .unsealShare share => do
      let st ← Core.unseal P share
      return .status st
  | .sealVault => do
      Core.seal
      return .done
  | .autoUnsealVault => do
      Core.autoUnseal P
      return .done
  | .rekeyInit newShares newThreshold => do
      let st ← Core.rekeyInit P newShares newThreshold
      return .rekey st none
  | .rekeyUpdate nonce share => do
      let (st, err) ← Core.rekeyUpdate P nonce share
      return .rekey st err
  | .rekeyCancel => do
      Core.rekeyCancel
      return .done
  | .generateRootInit => do
      let st ← Core.generateRootInit P
      return .rootGen st
  | .generateRootUpdate nonce share => do
      let st ← Core.generateRootUpdate P nonce share
      return .rootGen st
  | .generateRootCancel => do
      Core.generateRootCancel
      return .done
  | .write key value => do
      let c ← get
      Program.stateless (Barrier.put P.aead c.barrier key value)
      return .done
  | .remove key => do
      let c ← get
      Program.stateless (Barrier.delete c.barrier key)
      return .done

/-- A core and the outside it runs against. -/
structure VaultState where
  core : Core
  world : World

/-- A core that has just started over an empty store. -/
def VaultState.blank (autoSeal : Option AutoSeal) (ha : Bool) (tick : Nat) : VaultState :=
  ⟨Core.new autoSeal ha, ⟨∅, tick⟩⟩

def VaultState.sealed (s : VaultState) : Bool := s.core.barrier.sealed

structure Event where
  before : VaultState
  call : VaultCall
  result : Except Err Answer
  after : VaultState

namespace VaultState

variable (P : Platform) (env : Env)

/-- Perform one call. -/
def step (s : VaultState) (call : VaultCall) : Event :=
  let ((result, core), world) := Program.execState env.answer (call.perform P) s.core s.world
  { before := s, call, result, after := ⟨core, world⟩ }

/-- The state after a sequence of calls. -/
def after (s : VaultState) (calls : List VaultCall) : VaultState :=
  Run.final (step P env) Event.after s calls

/-- The events of a sequence of calls. -/
def events (s : VaultState) (calls : List VaultCall) : List Event :=
  Run.history (step P env) Event.after s calls

end VaultState

/-! ### What a history says about shares -/

/-- One more event after the shares `received`. -/
def receive (received : List Share) (e : Event) : List Share :=
  if e.after.core.progress = [] then []
  else
    match e.call, e.result with
    | .unsealShare share, .ok _ => gather received share
    | _, _ => received

/-- The unseal shares received since the progress was last empty. -/
def receivedShares (es : List Event) : List Share := es.foldl receive []

/-- Shares that were handed out together, and how many of them are needed. -/
structure Issue where
  keys : List Share
  threshold : Int
  deriving DecidableEq

/-- The unseal shares that a call handed out. -/
def Event.issue (e : Event) : Option Issue :=
  match e.call, e.result with
  | .initVault cfg, .ok (.init res) =>
    some ⟨res.keys, (e.before.core.initConfig cfg).secretThreshold⟩
  | _, .ok (.rekey st _) => if st.complete then some ⟨st.keys, st.newThreshold⟩ else none
  | _, _ => none

/-- All issues of a history, the current one last. -/
def issues (es : List Event) : List Issue := es.filterMap Event.issue

/-- One more event after the root shares `received` under `nonce`. -/
def receiveRoot : Bytes × List Share → Event → Bytes × List Share := fun (nonce, received) e =>
  match e.call, e.result with
  | .generateRootInit, .ok (.rootGen st) => (st.nonce, [])
  | .generateRootUpdate nonce' share, .ok _ =>
    (nonce, if nonce' = nonce then gather received share else received)
  | _, _ => (nonce, received)

/-- The nonce of the last root generation started, and the shares received under it since. -/
def receivedRootShares (es : List Event) : Bytes × List Share := es.foldl receiveRoot ([], [])

/-! ### Shares of the three attempts -/

/-- The attempts that gather shares. -/
inductive Attempt
  | unsealing
  | rootGeneration
  | rekeying
  deriving DecidableEq

/-- The shares that a core holds for an attempt. -/
def Core.gathered (c : Core) : Attempt → List Share
  | .unsealing => c.progress
  | .rootGeneration => (c.rootAttempt.map RootGen.progress).getD []
  | .rekeying => (c.rekey.map RekeyAttempt.progress).getD []

/-- The share that a call submits to an attempt. -/
def VaultCall.share : VaultCall → Attempt → Option Share
  | .unsealShare share, .unsealing => some share
  | .generateRootUpdate _ share, .rootGeneration => some share
  | .rekeyUpdate _ share, .rekeying => some share
  | _, _ => none

/-- The shares that were submitted to an attempt. -/
def submittedShares (attempt : Attempt) (es : List Event) : List Share :=
  es.filterMap fun e => e.call.share attempt

/-- The shares that a submission is combined with, its own among them. -/
def Event.combined (e : Event) (attempt : Attempt) : List Share :=
  match e.call.share attempt with
  | some share => gather (e.before.core.gathered attempt) share
  | none => []

/-- The events that complete a root generation. -/
def Event.Mints (e : Event) : Prop := ∃ st, e.result = .ok (.rootGen st) ∧ st.complete = true

/-- The events that write or delete what is stored at `key`. -/
def Event.Touches (P : Platform) (key : Key) (e : Event) : Prop :=
  (∃ value, e.call = .write key value) ∨ e.call = .remove key ∨
    ∃ st, e.result = .ok (.rootGen st) ∧ st.complete = true ∧
      key = P.tokens.storeKey st.rootToken

end UbixVault
