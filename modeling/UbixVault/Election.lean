/-
The election loop of a replica.

`RunHA` waits until the vault is unsealed, waits for the HA lock, is active while it
holds it, and gives it back.  It is one thread of several: others seal and unseal the
vault, initialize it, ask for a step-down, take the lock away or end the context.
The seal state is read without the core's mutex, and a change of it is announced by
closing a channel that is replaced under the mutex.  So the state of the barrier and
the announcement of it are two steps, with the mutex held in between, and the loop
takes the channel and looks at the barrier in two steps as well.

Channels are numbered: the one that is open has the number of those closed before.
What the loop does to the lock, the flag and the hooks is written into a log.
-/
import UbixVault.Lib.Run

namespace UbixVault.Election

/-- What happens to the lock, the hooks and the flag. -/
inductive Mark
  | acquired
  | onActive
  | onActiveDone
  | activeSet
  | activeCleared
  | onStandby
  | onStandbyDone
  | released
  deriving DecidableEq

/-- Why `Acquire` failed. -/
inductive AcquireError
  | canceled
  /-- `storage.ErrFailed`. -/
  | failed
  | other
  deriving DecidableEq

/-- Where the loop is; `ch` is the channel it has taken. -/
inductive Pc
  /-- In `waitUnsealed`: the channel is taken next. -/
  | capture
  | check (ch : Nat)
  | waitUnseal (ch : Nat)
  /-- Back in `RunHA`: the channel is taken again. -/
  | recapture
  | recheck (ch : Nat)
  /-- Waiting for the lock, unless `ch` is closed meanwhile. -/
  | acquire (ch : Nat)
  | acquireFailed (err : AcquireError)
  /-- The storage has failed and the loop seals the vault itself. -/
  | sealSelf
  | sealingSelf
  /-- A second's pause after an error. -/
  | backoff
  /-- With the lock: the channel is taken once more. -/
  | recaptureHeld
  | recheckHeld (ch : Nat)
  | releaseSealed
  | dropStepDown (ch : Nat)
  | hookActive (ch : Nat)
  | hookingActive (ch : Nat)
  | setActive (ch : Nat)
  /-- Waiting as the active replica. -/
  | active (ch : Nat)
  | clearActive (holdOff : Bool)
  | hookStandby (holdOff : Bool)
  | hookingStandby (holdOff : Bool)
  | release (holdOff : Bool)
  | afterRelease (holdOff : Bool)
  | holdOff
  | returned
  deriving DecidableEq

/-- Where the loop goes on after an error of `Acquire`, unless the context has ended. -/
def AcquireError.handled : AcquireError → Pc
  | .failed => .sealSelf
  | .canceled => .capture
  | .other => .backoff

/-- What another thread does while it has the core's mutex. -/
inductive Sealing
  | sealing
  | unsealing
  /-- Initializing, in auto-unseal mode or not. -/
  | initializing (auto : Bool)
  deriving DecidableEq

structure State where
  /-- The barrier is sealed. -/
  sealed : Bool
  initialized : Bool
  /-- Who has the core's mutex and has changed the barrier. -/
  mu : Option Sealing
  /-- How many channels have been closed. -/
  closed : Nat
  /-- The context has ended. -/
  done : Bool
  /-- How many calls of `StepDown` have found the replica active and send their request next. -/
  stepping : Nat
  /-- A step-down request is pending. -/
  stepDown : Bool
  active : Bool
  /-- The loop has acquired the lock and not released it. -/
  held : Bool
  /-- The acquisition was lost. -/
  lost : Bool
  pc : Pc
  log : List Mark

/-- What others do, and how a step of the loop turns out where it can in several ways. -/
inductive Event
  /-- Another thread takes the mutex and changes the barrier. -/
  | begin (op : Sealing)
  /-- It announces the change and gives the mutex back. -/
  | finish
  /-- Another replica initializes the vault. -/
  | initialized
  /-- `StepDown` looks at the flag, and later sends its request. -/
  | stepDownAsked
  | stepDownSent
  | lose
  | endContext
  /-- The next step of the loop, where there is only one. -/
  | step
  /-- `Acquire` returns. -/
  | acquired
  | acquireFails (err : AcquireError)
  /-- A wait ends because the channel is closed, the context has ended, the lock is lost, a
  step-down is requested or the time is over. -/
  | onClosed
  | onDone
  | onLost
  | onStepDown
  | onTimer
  deriving DecidableEq

namespace State

variable (s : State)

/-- Go on at `pc`. -/
def goto (pc : Pc) : State := { s with pc }

/-- Write down what was done. -/
def write (m : Mark) : State := { s with log := s.log ++ [m] }

/-- `notifyLocked`: close the channel and open the next. -/
def notify : State := { s with closed := s.closed + 1 }

/-- Another thread changes the barrier, with the mutex. -/
def begins (op : Sealing) : Option State :=
  if s.mu = none then
    match op with
    | .sealing => some { s with mu := some op, sealed := true }
    | .unsealing =>
      if s.sealed && s.initialized then some { s with mu := some op, sealed := false } else none
    | .initializing _ =>
      if s.initialized then none
      else some { s with mu := some op, sealed := false, initialized := true }
  else none

/-- It is done; an initialization that is not in auto-unseal mode seals the barrier again. -/
def finishes : Option State :=
  match s.mu with
  | none => none
  | some .sealing | some .unsealing | some (.initializing true) =>
    some { s.notify with mu := none }
  | some (.initializing false) => some { s with mu := none, sealed := true }

/-- `stateChanged`: the channel that is open, once the mutex is free. -/
def stateChanged (k : Nat → Pc) : Option State :=
  if s.mu = none then some (s.goto (k s.closed)) else none

/-- The next step of the loop where there is one way to go on. -/
def next : Option State :=
  match s.pc with
  | .capture => s.stateChanged .check
  | .check ch => some (s.goto (if s.sealed then .waitUnseal ch else .recapture))
  | .recapture => s.stateChanged .recheck
  | .recheck ch => some (s.goto (if s.sealed then .capture else .acquire ch))
  | .acquireFailed err =>
    some (s.goto (if s.done then .returned else err.handled))
  | .sealSelf => (s.begins .sealing).map (·.goto .sealingSelf)
  | .sealingSelf => s.finishes.map (·.goto .capture)
  | .recaptureHeld => s.stateChanged .recheckHeld
  | .recheckHeld ch => some (s.goto (if s.sealed then .releaseSealed else .dropStepDown ch))
  | .releaseSealed => some { (s.write .released).goto .capture with held := false }
  | .dropStepDown ch => some { s.goto (.hookActive ch) with stepDown := false }
  | .hookActive ch => some ((s.write .onActive).goto (.hookingActive ch))
  | .hookingActive ch => some ((s.write .onActiveDone).goto (.setActive ch))
  | .setActive ch => some { (s.write .activeSet).goto (.active ch) with active := true }
  | .clearActive hold =>
    some { (s.write .activeCleared).goto (.hookStandby hold) with active := false }
  | .hookStandby hold => some ((s.write .onStandby).goto (.hookingStandby hold))
  | .hookingStandby hold => some ((s.write .onStandbyDone).goto (.release hold))
  | .release hold => some { (s.write .released).goto (.afterRelease hold) with held := false }
  | .afterRelease hold =>
    some (s.goto (if s.done then .returned else if hold then .holdOff else .capture))
  | _ => none

/-- Where a wait goes on that has ended because of the event. -/
def wakes (e : Event) : Option State :=
  match s.pc, e with
  | .waitUnseal ch, .onClosed => if ch < s.closed then some (s.goto .capture) else none
  | .waitUnseal _, .onDone => if s.done then some (s.goto .returned) else none
  | .acquire _, .acquired =>
    some { (s.write .acquired).goto .recaptureHeld with held := true, lost := false }
  | .acquire _, .acquireFails err => some (s.goto (.acquireFailed err))
  | .backoff, .onTimer => some (s.goto .capture)
  | .backoff, .onDone => if s.done then some (s.goto .returned) else none
  | .active _, .onLost => if s.lost then some (s.goto (.clearActive false)) else none
  | .active ch, .onClosed => if ch < s.closed then some (s.goto (.clearActive false)) else none
  | .active _, .onDone => if s.done then some (s.goto (.clearActive false)) else none
  | .active _, .onStepDown =>
    if s.stepDown then some { s.goto (.clearActive true) with stepDown := false } else none
  | .holdOff, .onTimer => some (s.goto .capture)
  | .holdOff, .onDone => if s.done then some (s.goto .returned) else none
  | _, _ => none

/-- One step of any thread; an event that does not fit the state does not happen. -/
def step (e : Event) : Option State :=
  match e with
  | .begin op => s.begins op
  | .finish => if s.pc = .sealingSelf then none else s.finishes
  | .initialized => some { s with initialized := true }
  | .stepDownAsked => if s.active then some { s with stepping := s.stepping + 1 } else none
  | .stepDownSent =>
    if s.stepping = 0 then none
    else some { s with stepping := s.stepping - 1, stepDown := true }
  | .lose => some { s with lost := true }
  | .endContext => some { s with done := true }
  | .step => s.next
  | e => s.wakes e

/-- One step, as a relation. -/
def Step (s : State) (e : Event) (s' : State) : Prop := s.step e = some s'

/-- The loop begins; without HA it returns at once. -/
def init (enabled sealed initialized : Bool) : State :=
  { sealed := sealed || !initialized, initialized, mu := none, closed := 0, done := false
    stepping := 0, stepDown := false, active := false, held := false, lost := false
    pc := if enabled then .capture else .returned, log := [] }

end State

/-! ### What is said about it -/

/-- The runs of the hooks: `true` for `OnActive`, `false` for `OnStandby`. -/
def hooks (log : List Mark) : List Bool :=
  log.filterMap fun
    | .onActive => some true
    | .onStandby => some false
    | _ => none

/--
What must be done just before the flag is set or the lock is released: the hooks of
this acquisition have run, and where the flag was set it is cleared again and the
other hooks have run as well.
-/
def Proper (earlier : List Mark) : Mark → Prop
  | .activeSet => [.acquired, .onActive, .onActiveDone] <:+ earlier
  | .released =>
    [.acquired] <:+ earlier ∨
      [.acquired, .onActive, .onActiveDone, .activeSet, .activeCleared, .onStandby,
        .onStandbyDone] <:+ earlier
  | _ => True

/-- The loop is idle: it waits for unseal or for the lock, holds off or has returned. -/
def Pc.idle : Pc → Bool
  | .waitUnseal _ | .acquire _ | .backoff | .holdOff | .returned => true
  | _ => false

/-- The state once whoever has the mutex is done with it. -/
def State.settled (s : State) : State := s.finishes.getD s

end UbixVault.Election
