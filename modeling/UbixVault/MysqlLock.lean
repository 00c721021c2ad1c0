/-
The HA lock of the MySQL backend, and the writes it fences.

The lock is a row with a holder, a generation and an expiry.  An acquisition raises
the generation under an exclusive lock on the row.  A fenced write holds a shared
lock on it from its check until it commits.  Leases expire by the clock of the
database.
-/
import UbixVault.Basic
import UbixVault.Lib.Run

namespace UbixVault.Mysql

/-- The row of the lock. -/
structure Row where
  /-- Empty if nobody holds the lock. -/
  holder : Bytes
  generation : Nat
  expiresAt : Nat
  deriving DecidableEq

structure FenceToken where
  holder : Bytes
  gen : Nat
  deriving DecidableEq

/-- An acquisition that is renewed until it is lost. -/
structure HeldLock where
  gen : Nat
  lost : Bool

/-- Where `Acquire` is. -/
inductive Acquiring
  | idle
  | ensureRow
  | update
  /-- The row is locked and changed, but not committed. -/
  | select (row : Row)
  | commit (row : Row)
  /-- Acquired; the fence is set next. -/
  | hold (gen : Nat)
  | keep (gen : Nat)
  deriving DecidableEq

/-- Where `Release` is; the number is the generation that is given up. -/
inductive Releasing
  | idle
  | update (gen : Nat)
  deriving DecidableEq

/-- Where a write is; `late` if it began between a `Release` and the next `Acquire`. -/
inductive Write
  | idle
  /-- The fence was read. -/
  | begun (f : FenceToken) (late : Bool)
  /-- The row carries the fence, and is locked against changes. -/
  | checked (f : FenceToken) (late : Bool)
  deriving DecidableEq

structure Replica (ω : Type) where
  holder : Bytes
  ttl : Nat
  fence : Option FenceToken
  held : Option HeldLock
  acquiring : Acquiring
  releasing : Releasing
  write : ω → Write
  /-- `Release` has returned and no `Acquire` has begun since. -/
  released : Bool

/-- A transaction that has committed. -/
inductive Record (ι : Type)
  | acquired (i : ι) (gen : Nat)
  | wrote (i : ι) (gen : Nat) (late : Bool)
  /-- A write before any handle was taken. -/
  | plain (i : ι)
  deriving DecidableEq

def Record.gen {ι : Type} : Record ι → Nat
  | acquired _ gen => gen
  | wrote _ gen _ => gen
  | plain _ => 0

structure State (ι ω : Type) where
  row : Option Row
  /-- Whose transaction has the exclusive lock on the row. -/
  exclusive : Option ι
  /-- The transactions that have a shared lock on it. -/
  shared : List (ι × ω)
  now : Nat
  replica : ι → Replica ω
  /-- The transactions that committed, oldest first. -/
  history : List (Record ι)

/-- Every replica has taken a handle, which arms its fence with a generation that nobody holds. -/
def State.init {ι : Type} (ω : Type) (holder : ι → Bytes) (ttl : ι → Nat) : State ι ω where
  row := none
  exclusive := none
  shared := []
  now := 0
  replica i := ⟨holder i, ttl i, some ⟨holder i, 0⟩, none, .idle, .idle, fun _ => .idle, false⟩
  history := []

/-- The row carries the fence. -/
def Row.Carries (r : Row) (f : FenceToken) : Prop := r.holder = f.holder ∧ r.generation = f.gen

section Steps

variable {ι ω : Type} [DecidableEq ι] [DecidableEq ω]

def State.set (s : State ι ω) (i : ι) (r : Replica ω) : State ι ω :=
  { s with replica := Function.update s.replica i r }

/-- Nobody has a lock on the row. -/
def State.Unlocked (s : State ι ω) : Prop := s.exclusive = none ∧ s.shared = []

def State.setAcquiring (s : State ι ω) (i : ι) (a : Acquiring) : State ι ω :=
  s.set i { s.replica i with acquiring := a }

/-- `Acquire` goes on by one step. -/
inductive AcquireStep (s : State ι ω) (i : ι) : State ι ω → Prop
  /-- The acquisition before, if there was one, was lost. -/
  | start (hidle : (s.replica i).acquiring = .idle)
      (hlost : ∀ h, (s.replica i).held = some h → h.lost = true) :
      AcquireStep s i (s.set i { s.replica i with
        held := none, acquiring := .ensureRow, released := false })
  | holding (h : HeldLock) (hidle : (s.replica i).acquiring = .idle)
      (hheld : (s.replica i).held = some h) (hlost : h.lost = false) :
      AcquireStep s i (s.set i { s.replica i with released := false })
  | ensureRow (h : (s.replica i).acquiring = .ensureRow) :
      AcquireStep s i { s.setAcquiring i .update with row := some (s.row.getD ⟨[], 0, 0⟩) }
  | update (r : Row) (h : (s.replica i).acquiring = .update) (hlocks : s.Unlocked)
      (hrow : s.row = some r) (hfree : r.holder = [] ∨ r.expiresAt < s.now) :
      AcquireStep s i { s.setAcquiring i (.select
          ⟨(s.replica i).holder, r.generation + 1, s.now + (s.replica i).ttl⟩) with
        exclusive := some i }
  /-- The lock is held by another, or an error: it is tried again. -/
  | retry (h : (s.replica i).acquiring = .update) : AcquireStep s i (s.setAcquiring i .ensureRow)
  | select (r : Row) (h : (s.replica i).acquiring = .select r) :
      AcquireStep s i (s.setAcquiring i (.commit r))
  | commit (r : Row) (h : (s.replica i).acquiring = .commit r) :
      AcquireStep s i { s.setAcquiring i (.hold r.generation) with
        row := some r, exclusive := none, history := s.history ++ [.acquired i r.generation] }
  /-- The commit took effect, but its outcome was lost. -/
  | unknown (r : Row) (h : (s.replica i).acquiring = .commit r) :
      AcquireStep s i { s.setAcquiring i .ensureRow with
        row := some r, exclusive := none, history := s.history ++ [.acquired i r.generation] }
  | rollback (r : Row)
      (h : (s.replica i).acquiring = .select r ∨ (s.replica i).acquiring = .commit r) :
      AcquireStep s i { s.setAcquiring i .ensureRow with exclusive := none }
  | hold (gen : Nat) (h : (s.replica i).acquiring = .hold gen) :
      AcquireStep s i (s.set i { s.replica i with
        fence := some ⟨(s.replica i).holder, gen⟩, acquiring := .keep gen })
  | keep (gen : Nat) (h : (s.replica i).acquiring = .keep gen) :
      AcquireStep s i (s.set i { s.replica i with held := some ⟨gen, false⟩, acquiring := .idle })
  /-- The context ends, or an error is permanent. -/
  | giveUp (h : (s.replica i).acquiring = .ensureRow ∨ (s.replica i).acquiring = .update) :
      AcquireStep s i (s.setAcquiring i .idle)

/-- The renewal of an acquisition. -/
inductive RenewStep (s : State ι ω) (i : ι) : State ι ω → Prop
  | extend (h : HeldLock) (r : Row) (hheld : (s.replica i).held = some h) (hlost : h.lost = false)
      (hlocks : s.Unlocked) (hrow : s.row = some r)
      (hcarries : r.Carries ⟨(s.replica i).holder, h.gen⟩) :
      RenewStep s i { s with row := some { r with expiresAt := s.now + (s.replica i).ttl } }
  | lose (h : HeldLock) (hheld : (s.replica i).held = some h) (hlost : h.lost = false) :
      RenewStep s i (s.set i { s.replica i with held := some { h with lost := true } })

/-- How a step of `Release` came out. -/
inductive Outcome
  /-- It goes on. -/
  | goesOn
  /-- It returned, and its statement has cleared the row. -/
  | cleared
  /-- It returned, and has changed nothing. -/
  | unchanged

def State.setReleasing (s : State ι ω) (i : ι) (r : Releasing) (released : Bool) : State ι ω :=
  s.set i { s.replica i with releasing := r, released }

/-- `Release` goes on by one step. -/
inductive ReleaseStep (s : State ι ω) (i : ι) : State ι ω → Outcome → Prop
  | start (h : HeldLock) (hidle : (s.replica i).releasing = .idle)
      (hheld : (s.replica i).held = some h) :
      ReleaseStep s i (s.set i { s.replica i with held := none, releasing := .update h.gen }) .goesOn
  | nothing (hidle : (s.replica i).releasing = .idle) (hheld : (s.replica i).held = none) :
      ReleaseStep s i (s.setReleasing i .idle true) .unchanged
  | update (gen : Nat) (r : Row) (h : (s.replica i).releasing = .update gen) (hlocks : s.Unlocked)
      (hrow : s.row = some r) (hcarries : r.Carries ⟨(s.replica i).holder, gen⟩) :
      ReleaseStep s i { s.setReleasing i .idle true with row := some ⟨[], r.generation, 0⟩ } .cleared
  /-- The row is another's, or the statement failed. -/
  | miss (gen : Nat) (h : (s.replica i).releasing = .update gen) :
      ReleaseStep s i (s.setReleasing i .idle true) .unchanged

def State.setWrite (s : State ι ω) (i : ι) (w : ω) (x : Write) : State ι ω :=
  s.set i { s.replica i with write := Function.update (s.replica i).write w x }

/-- `Put` or `Delete`, through `exec`, goes on by one step. -/
inductive WriteStep (s : State ι ω) (i : ι) (w : ω) : State ι ω → Prop
  | start (f : FenceToken) (hidle : (s.replica i).write w = .idle) (hfence : (s.replica i).fence = some f) :
      WriteStep s i w (s.setWrite i w (.begun f (s.replica i).released))
  | plain (hidle : (s.replica i).write w = .idle) (hfence : (s.replica i).fence = none) :
      WriteStep s i w { s with history := s.history ++ [.plain i] }
  | check (f : FenceToken) (late : Bool) (r : Row) (h : (s.replica i).write w = .begun f late)
      (hlock : s.exclusive = none) (hrow : s.row = some r) (hcarries : r.Carries f) :
      WriteStep s i w { s.setWrite i w (.checked f late) with shared := (i, w) :: s.shared }
  /-- `ErrFenced`. -/
  | fenced (f : FenceToken) (late : Bool) (h : (s.replica i).write w = .begun f late)
      (hrow : ∀ r, s.row = some r → ¬ r.Carries f) : WriteStep s i w (s.setWrite i w .idle)
  | commit (f : FenceToken) (late : Bool) (h : (s.replica i).write w = .checked f late) :
      WriteStep s i w { s.setWrite i w .idle with
        shared := s.shared.erase (i, w), history := s.history ++ [.wrote i f.gen late] }
  | fail (f : FenceToken) (late : Bool) (h : (s.replica i).write w = .begun f late) :
      WriteStep s i w (s.setWrite i w .idle)
  | rollback (f : FenceToken) (late : Bool) (h : (s.replica i).write w = .checked f late) :
      WriteStep s i w { s.setWrite i w .idle with shared := s.shared.erase (i, w) }

inductive Event (ι ω : Type)
  | tick
  | acquire (i : ι)
  | renew (i : ι)
  | release (i : ι) (outcome : Outcome)
  | write (i : ι) (w : ω)

inductive Step : State ι ω → Event ι ω → State ι ω → Prop
  | tick (s : State ι ω) : Step s .tick { s with now := s.now + 1 }
  | acquire (s s' : State ι ω) (i : ι) (h : AcquireStep s i s') : Step s (.acquire i) s'
  | renew (s s' : State ι ω) (i : ι) (h : RenewStep s i s') : Step s (.renew i) s'
  | release (s s' : State ι ω) (i : ι) (o : Outcome) (h : ReleaseStep s i s' o) :
      Step s (.release i o) s'
  | write (s s' : State ι ω) (i : ι) (w : ω) (h : WriteStep s i w s') : Step s (.write i w) s'

end Steps

/-- Every handle is used by one call at a time. -/
def Sequential {ι ω : Type} (s : State ι ω) : Event ι ω → Prop
  | .acquire i => (s.replica i).releasing = .idle
  | .release i _ => (s.replica i).acquiring = .idle
  | _ => True

end UbixVault.Mysql
