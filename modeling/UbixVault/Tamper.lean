/-
A barrier over storage that somebody else can write to.

Between any two operations of the barrier an adversary may replace everything that
is stored.  A history records each operation or replacement with the states before
and after it, so what was ever stored can be read off the history.
-/
import UbixVault.Barrier
import UbixVault.Lib.Run

namespace UbixVault

open Program (stateless)

/-- The operations of a barrier. -/
inductive BarrierCall
  | setUp (masterKey : Bytes)
  | unsealBarrier (masterKey : Bytes)
  | sealBarrier
  | rekey (oldMasterKey newMasterKey : Bytes)
  | get (key : Key)
  | put (key : Key) (value : Bytes)
  | delete (key : Key)

/-- Perform an operation; only `get` returns anything. -/
def BarrierCall.perform (A : Aead Byte) :
    BarrierCall → ExceptT Err (StateT Barrier Prog) (Option Bytes)
  | .setUp masterKey => do
      stateless (Barrier.initializeKeyring A masterKey)
      return none
  | .unsealBarrier masterKey => do
      let b ← MonadState.get
      let b' ← stateless (b.unseal A masterKey)
      MonadState.set b'
      return none
  | .sealBarrier => do
      modify Barrier.seal
      return none
  | .rekey oldMasterKey newMasterKey => do
      stateless (Barrier.rekey A oldMasterKey newMasterKey)
      return none
  | .get key => do
      let b ← MonadState.get
      stateless (b.get A key)
  | .put key value => do
      let b ← MonadState.get
      stateless (b.put A key value)
      return none
  | .delete key => do
      let b ← MonadState.get
      stateless (b.delete key)
      return none

inductive BarrierAction
  | call (c : BarrierCall)
  /-- The adversary puts another store in place. -/
  | tamper (store : Store)

/-- A barrier and the outside it runs against. -/
structure BarrierState where
  barrier : Barrier
  world : World

/-- A sealed barrier over an empty store. -/
def BarrierState.blank (tick : Nat) : BarrierState := ⟨.new, ⟨∅, tick⟩⟩

structure BarrierEvent where
  before : BarrierState
  action : BarrierAction
  result : Except Err (Option Bytes)
  after : BarrierState

namespace BarrierState

variable (A : Aead Byte) (env : Env)

/-- Perform one action. -/
def step (s : BarrierState) (action : BarrierAction) : BarrierEvent :=
  match action with
  | .call c =>
    let ((result, barrier), world) :=
      Program.execState env.answer (c.perform A) s.barrier s.world
    { before := s, action, result, after := ⟨barrier, world⟩ }
  | .tamper store =>
    { before := s, action, result := .ok none, after := ⟨s.barrier, { s.world with store }⟩ }

/-- The state after a sequence of actions. -/
def after (s : BarrierState) (actions : List BarrierAction) : BarrierState :=
  Run.final (step A env) BarrierEvent.after s actions

/-- The events of a sequence of actions. -/
def events (s : BarrierState) (actions : List BarrierAction) : List BarrierEvent :=
  Run.history (step A env) BarrierEvent.after s actions

end BarrierState

end UbixVault
