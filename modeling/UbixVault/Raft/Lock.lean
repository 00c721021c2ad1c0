/-
The HA lock of the Raft backend, and the writes it fences.

Leadership is the lock and the term is its generation.  A handle that has acquired
the lock stands in `held` with its term, and a write is let through if some handle
stands there with the current term.  Nothing in this is one step: leadership, the
term and the map are each read or written at their own moment, while the consensus
library takes leadership away and gives it back as it likes.
-/
import UbixVault.Lib.Run

namespace UbixVault.Raft.Lock

/-- Where `Acquire` is; the number is the term it read at first. -/
inductive Acquiring
  | idle
  /-- The node led; the term is read next. -/
  | term
  /-- In `claim`: the barrier comes next. -/
  | barrier (term : Nat)
  | isLeader (term : Nat)
  | sameTerm (term : Nat)
  /-- The holder record is proposed next. -/
  | record (term : Nat)
  | isLeaderAgain (term : Nat)
  | sameTermAgain (term : Nat)
  /-- The entry in `held` is set next. -/
  | hold (term : Nat)
  | monitor (term : Nat)
  deriving DecidableEq

/-- Where `Release` is. -/
inductive Releasing
  | idle
  /-- The handle's term is taken; the entry in `held` goes next. -/
  | fence
  /-- The holder record is cleared and leadership transferred. -/
  | rest
  deriving DecidableEq

/-- A handle on the lock. -/
structure Handle where
  /-- The term of the current acquisition, zero if there is none. -/
  term : Nat
  acquiring : Acquiring
  releasing : Releasing
  /-- The terms of the acquisitions that are watched. -/
  monitors : List Nat
  /-- Those whose loss was noticed, and whose entry in `held` goes next. -/
  dropping : List Nat
  /-- `Release` has returned and no `Acquire` has begun since. -/
  released : Bool

def Handle.init : Handle := ⟨0, .idle, .idle, [], [], false⟩

/-- What lets a write through: the entry of a handle, with the current term. -/
structure Admission (ℓ : Type) where
  handle : ℓ
  term : Nat
  deriving DecidableEq

/-- Where a write is; `late` if it began when every handle was released. -/
inductive Write (ℓ : Type)
  | idle
  /-- In `fenceCheck`, with the mutex. -/
  | isLeader (late : Bool)
  | term (late : Bool)
  /-- Past `fenceCheck`; with no admission if there was no handle yet. -/
  | propose (admission : Option (Admission ℓ)) (late : Bool)
  deriving DecidableEq

/-- A node. -/
structure Replica (ℓ ω : Type) where
  term : Nat
  leads : Bool
  /-- The terms in which it was elected. -/
  led : List Nat
  /-- The state machine failed. -/
  failed : Bool
  haTaken : Bool
  /-- The write that has the mutex over `haTaken` and `held`. -/
  haMu : Option ω
  held : ℓ → Option Nat
  lock : ℓ → Handle
  write : ω → Write ℓ

def Replica.init (ℓ ω : Type) : Replica ℓ ω :=
  ⟨0, false, [], false, false, none, fun _ => none, fun _ => .init, fun _ => .idle⟩

/-- A write that the log has taken in. -/
structure Commit (ι ℓ : Type) where
  node : ι
  term : Nat
  admission : Option (Admission ℓ)
  late : Bool
  deriving DecidableEq

structure Cluster (ι ℓ ω : Type) where
  /-- The newest term in which a node was elected. -/
  newest : Nat
  replica : ι → Replica ℓ ω
  commits : List (Commit ι ℓ)

def Cluster.init (ι ℓ ω : Type) : Cluster ι ℓ ω := ⟨0, fun _ => .init ℓ ω, []⟩

section Steps

variable {ι ℓ ω : Type} [DecidableEq ι] [DecidableEq ℓ] [DecidableEq ω]

/-! ### Steps of the library -/

def Replica.elected (r : Replica ℓ ω) (term : Nat) : Replica ℓ ω :=
  { r with term, leads := true, led := term :: r.led }

/-- A newer term, or the same one: leadership is lost. -/
def Replica.follows (r : Replica ℓ ω) (term : Nat) : Replica ℓ ω := { r with term, leads := false }

/-! ### Steps of handles -/

def Replica.setLock (r : Replica ℓ ω) (l : ℓ) (h : Handle) : Replica ℓ ω :=
  { r with lock := Function.update r.lock l h }

def Replica.setHeld (r : Replica ℓ ω) (l : ℓ) (term : Option Nat) : Replica ℓ ω :=
  { r with held := Function.update r.held l term }

def Replica.setAcquiring (r : Replica ℓ ω) (l : ℓ) (a : Acquiring) : Replica ℓ ω :=
  r.setLock l { r.lock l with acquiring := a }

/-- `Acquire` goes on by one step, or gives up. -/
inductive AcquireStep (r : Replica ℓ ω) (l : ℓ) : Replica ℓ ω → Prop
  | start (hidle : (r.lock l).acquiring = .idle) (htaken : r.haTaken = true) (hleads : r.leads = true) :
      AcquireStep r l (r.setLock l { r.lock l with acquiring := .term, released := false })
  | term (h : (r.lock l).acquiring = .term) : AcquireStep r l (r.setAcquiring l (.barrier r.term))
  | barrier (t : Nat) (h : (r.lock l).acquiring = .barrier t) (hleads : r.leads = true) :
      AcquireStep r l (r.setAcquiring l (.isLeader t))
  | isLeader (t : Nat) (h : (r.lock l).acquiring = .isLeader t) (hleads : r.leads = true) :
      AcquireStep r l (r.setAcquiring l (.sameTerm t))
  | sameTerm (t : Nat) (h : (r.lock l).acquiring = .sameTerm t) (hterm : r.term = t) :
      AcquireStep r l (r.setAcquiring l (.record t))
  | record (t : Nat) (h : (r.lock l).acquiring = .record t) (hfailed : r.failed = false)
      (hleads : r.leads = true) : AcquireStep r l (r.setAcquiring l (.isLeaderAgain t))
  | isLeaderAgain (t : Nat) (h : (r.lock l).acquiring = .isLeaderAgain t) (hleads : r.leads = true) :
      AcquireStep r l (r.setAcquiring l (.sameTermAgain t))
  | sameTermAgain (t : Nat) (h : (r.lock l).acquiring = .sameTermAgain t) (hterm : r.term = t) :
      AcquireStep r l (r.setAcquiring l (.hold t))
  | hold (t : Nat) (h : (r.lock l).acquiring = .hold t) (hmu : r.haMu = none) :
      AcquireStep r l ((r.setHeld l (some t)).setAcquiring l (.monitor t))
  | monitor (t : Nat) (h : (r.lock l).acquiring = .monitor t) :
      AcquireStep r l (r.setLock l { r.lock l with
        term := t, acquiring := .idle, monitors := t :: (r.lock l).monitors })
  /-- An attempt fails, or the caller's context ends; not once the entry is set. -/
  | giveUp (h : ∀ t, (r.lock l).acquiring ≠ .monitor t) : AcquireStep r l (r.setAcquiring l .idle)

/-- A monitor notices that its acquisition is lost, and forgets it in two steps. -/
inductive DropStep (r : Replica ℓ ω) (l : ℓ) (t : Nat) : Replica ℓ ω → Prop
  | notice (h : t ∈ (r.lock l).monitors) (hlost : r.failed = true ∨ r.leads = false ∨ r.term ≠ t) :
      DropStep r l t (r.setLock l { r.lock l with
        term := if (r.lock l).term = t then 0 else (r.lock l).term
        monitors := (r.lock l).monitors.erase t
        dropping := t :: (r.lock l).dropping })
  | forget (h : t ∈ (r.lock l).dropping) (hmu : r.haMu = none) :
      DropStep r l t ((r.setHeld l (if r.held l = some t then none else r.held l)).setLock l
        { r.lock l with dropping := (r.lock l).dropping.erase t })

/-- `Release` goes on by one step; what it does at the end may fail, and it returns then too. -/
inductive ReleaseStep (r : Replica ℓ ω) (l : ℓ) : Replica ℓ ω → Prop
  | start (hidle : (r.lock l).releasing = .idle) (htaken : r.haTaken = true)
      (hheld : (r.lock l).term ≠ 0) :
      ReleaseStep r l (r.setLock l { r.lock l with term := 0, releasing := .fence })
  | nothing (hidle : (r.lock l).releasing = .idle) (htaken : r.haTaken = true)
      (hheld : (r.lock l).term = 0) :
      ReleaseStep r l (r.setLock l { r.lock l with released := true })
  | fence (h : (r.lock l).releasing = .fence) (hmu : r.haMu = none) :
      ReleaseStep r l ((r.setHeld l none).setLock l { r.lock l with releasing := .rest })
  | rest (h : (r.lock l).releasing = .rest) :
      ReleaseStep r l (r.setLock l { r.lock l with releasing := .idle, released := true })

/-! ### Steps of writes -/

def Replica.setWrite (r : Replica ℓ ω) (w : ω) (s : Write ℓ) : Replica ℓ ω :=
  { r with write := Function.update r.write w s }

def Replica.setMutex (r : Replica ℓ ω) (mu : Option ω) : Replica ℓ ω := { r with haMu := mu }

/-- `Put` or `Delete` goes on by one step; the last one is a proposal that commits. -/
inductive WriteStep (r : Replica ℓ ω) (w : ω) : Replica ℓ ω → Option (Option (Admission ℓ) × Bool) → Prop
  /-- The mutex is taken, and there is a handle. -/
  | enter (late : Bool) (hidle : r.write w = .idle) (hmu : r.haMu = none) (htaken : r.haTaken = true)
      (hlate : late = true ↔ ∀ l, (r.lock l).released = true) :
      WriteStep r w ((r.setWrite w (.isLeader late)).setMutex (some w)) none
  /-- There is no handle, and nothing to check. -/
  | free (late : Bool) (hidle : r.write w = .idle) (hmu : r.haMu = none) (htaken : r.haTaken = false)
      (hlate : late = true ↔ ∀ l, (r.lock l).released = true) :
      WriteStep r w (r.setWrite w (.propose none late)) none
  | isLeader (late : Bool) (h : r.write w = .isLeader late) (hleads : r.leads = true) :
      WriteStep r w (r.setWrite w (.term late)) none
  | notLeader (late : Bool) (h : r.write w = .isLeader late) (hleads : r.leads = false) :
      WriteStep r w ((r.setWrite w .idle).setMutex none) none
  | term (late : Bool) (l : ℓ) (h : r.write w = .term late) (hheld : r.held l = some r.term) :
      WriteStep r w ((r.setWrite w (.propose (some ⟨l, r.term⟩) late)).setMutex none) none
  | otherTerm (late : Bool) (h : r.write w = .term late) (hheld : ∀ l, r.held l ≠ some r.term) :
      WriteStep r w ((r.setWrite w .idle).setMutex none) none
  /-- The library takes a proposal only from the leader. -/
  | propose (a : Option (Admission ℓ)) (late : Bool) (h : r.write w = .propose a late)
      (hfailed : r.failed = false) (hleads : r.leads = true) :
      WriteStep r w (r.setWrite w .idle) (some (a, late))
  | refused (a : Option (Admission ℓ)) (late : Bool) (h : r.write w = .propose a late) :
      WriteStep r w (r.setWrite w .idle) none

/-! ### The cluster -/

inductive Event (ι ℓ ω : Type)
  | elect (i : ι) (term : Nat)
  | follow (i : ι) (term : Nat)
  | fail (i : ι)
  /-- `HALock`. -/
  | take (i : ι)
  | acquire (i : ι) (l : ℓ)
  | drop (i : ι) (l : ℓ) (term : Nat)
  | release (i : ι) (l : ℓ)
  | write (i : ι) (w : ω)

def Cluster.set (c : Cluster ι ℓ ω) (i : ι) (r : Replica ℓ ω) : Cluster ι ℓ ω :=
  { c with replica := Function.update c.replica i r }

inductive Step : Cluster ι ℓ ω → Event ι ℓ ω → Cluster ι ℓ ω → Prop
  /-- A term has one leader, and terms only grow. -/
  | elect (c : Cluster ι ℓ ω) (i : ι) (t : Nat) (hnewest : c.newest < t)
      (hterm : (c.replica i).term ≤ t) :
      Step c (.elect i t) { c.set i ((c.replica i).elected t) with newest := t }
  | follow (c : Cluster ι ℓ ω) (i : ι) (t : Nat) (hterm : (c.replica i).term ≤ t) :
      Step c (.follow i t) (c.set i ((c.replica i).follows t))
  | fail (c : Cluster ι ℓ ω) (i : ι) : Step c (.fail i) (c.set i { c.replica i with failed := true })
  | take (c : Cluster ι ℓ ω) (i : ι) (hmu : (c.replica i).haMu = none) :
      Step c (.take i) (c.set i { c.replica i with haTaken := true })
  | acquire (c : Cluster ι ℓ ω) (i : ι) (l : ℓ) (r : Replica ℓ ω)
      (h : AcquireStep (c.replica i) l r) : Step c (.acquire i l) (c.set i r)
  | drop (c : Cluster ι ℓ ω) (i : ι) (l : ℓ) (t : Nat) (r : Replica ℓ ω)
      (h : DropStep (c.replica i) l t r) : Step c (.drop i l t) (c.set i r)
  | release (c : Cluster ι ℓ ω) (i : ι) (l : ℓ) (r : Replica ℓ ω)
      (h : ReleaseStep (c.replica i) l r) : Step c (.release i l) (c.set i r)
  | write (c : Cluster ι ℓ ω) (i : ι) (w : ω) (r : Replica ℓ ω)
      (out : Option (Option (Admission ℓ) × Bool)) (h : WriteStep (c.replica i) w r out) :
      Step c (.write i w)
        { c.set i r with
          commits := c.commits ++ out.toList.map fun (a, late) => ⟨i, (c.replica i).term, a, late⟩ }

end Steps

/-- Every handle is used by one call at a time. -/
def Sequential {ι ℓ ω : Type} (c : Cluster ι ℓ ω) : Event ι ℓ ω → Prop
  | .acquire i l => ((c.replica i).lock l).releasing = .idle
  | .release i l => ((c.replica i).lock l).acquiring = .idle
  | _ => True

end UbixVault.Raft.Lock
