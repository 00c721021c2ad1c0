/-
Reads that reflect every acknowledged write.

`ConsistentGet` asks the library whether the node still leads, and skips the barrier
if one was passed in the current term already.  That term is remembered across
concurrent calls, and each call reads and stores it on its own.
-/
import UbixVault.Lib.Run
import UbixVault.Raft.Fsm

namespace UbixVault.Raft.Read

/-- A committed entry: a command, or a barrier. -/
structure Entry (ι : Type) where
  term : Nat
  /-- The leader that proposed it. -/
  node : ι
  command : Option Command

/-- Where `ConsistentGet` is; the number is the term it read. -/
inductive Stage
  | verify
  | term
  | compare (term : Nat)
  | barrier (term : Nat)
  /-- The barrier is in the log at this place. -/
  | applied (term index : Nat)
  | verifyAgain (term : Nat)
  | sameTerm (term : Nat)
  | store (term : Nat)
  | get

/-- A call in progress. -/
structure Call where
  key : Key
  /-- The places in the log of the writes that were acknowledged when it began. -/
  floor : List Nat
  stage : Stage

/-- A node. -/
structure Replica (ρ : Type) where
  term : Nat
  leads : Bool
  /-- How much of the log the state machine has applied. -/
  applied : Nat
  readyTerm : Nat
  call : ρ → Option Call

/-- What a call returned. -/
structure Result where
  key : Key
  floor : List Nat
  value : Option Bytes

structure Cluster (ι ρ : Type) where
  /-- The newest term in which a node was elected. -/
  newest : Nat
  /-- Who was elected in a term. -/
  leader : Nat → Option ι
  log : List (Entry ι)
  replica : ι → Replica ρ
  /-- The places in the log of the writes that were acknowledged. -/
  acked : List Nat
  results : List Result

def Cluster.init (ι ρ : Type) : Cluster ι ρ :=
  ⟨0, fun _ => none, [], fun _ => ⟨0, false, 0, 0, fun _ => none⟩, [], []⟩

/-- The bucket after the first entries. -/
def stateAt {ι : Type} (log : List (Entry ι)) (n : Nat) : Store :=
  (log.take n).foldl (fun kv e =>
    match e.command with
    | some c => (c.apply kv).1
    | none => kv) ∅

section Steps

variable {ι ρ : Type} [DecidableEq ι] [DecidableEq ρ]

def Cluster.set (c : Cluster ι ρ) (i : ι) (r : Replica ρ) : Cluster ι ρ :=
  { c with replica := Function.update c.replica i r }

def Replica.setCall (r : Replica ρ) (q : ρ) (x : Option Call) : Replica ρ :=
  { r with call := Function.update r.call q x }

/-- Move a call on. -/
def Cluster.goto (c : Cluster ι ρ) (i : ι) (q : ρ) (x : Call) (s : Stage) : Cluster ι ρ :=
  c.set i ((c.replica i).setCall q (some { x with stage := s }))

/-- The node is the leader that can commit: no other was elected since. -/
def Cluster.Leads (c : Cluster ι ρ) (i : ι) : Prop :=
  (c.replica i).leads = true ∧ (c.replica i).term = c.newest

/-- One step of a call. -/
inductive CallStep (c : Cluster ι ρ) (i : ι) (q : ρ) : Cluster ι ρ → Prop
  | start (key : Key) (hidle : (c.replica i).call q = none) (hkey : checkKey key = true) :
      CallStep c i q (c.goto i q ⟨key, c.acked, .verify⟩ .verify)
  | verify (x : Call) (h : (c.replica i).call q = some x) (hstage : x.stage = .verify)
      (hleads : c.Leads i) : CallStep c i q (c.goto i q x .term)
  | term (x : Call) (h : (c.replica i).call q = some x) (hstage : x.stage = .term) :
      CallStep c i q (c.goto i q x (.compare (c.replica i).term))
  | ready (x : Call) (t : Nat) (h : (c.replica i).call q = some x) (hstage : x.stage = .compare t)
      (hready : (c.replica i).readyTerm = t) : CallStep c i q (c.goto i q x .get)
  | notReady (x : Call) (t : Nat) (h : (c.replica i).call q = some x) (hstage : x.stage = .compare t)
      (hready : (c.replica i).readyTerm ≠ t) : CallStep c i q (c.goto i q x (.barrier t))
  /-- A barrier is a proposal of its own. -/
  | barrier (x : Call) (t : Nat) (h : (c.replica i).call q = some x) (hstage : x.stage = .barrier t)
      (hleads : c.Leads i) :
      CallStep c i q { c.goto i q x (.applied t c.log.length) with
        log := c.log ++ [⟨c.newest, i, none⟩] }
  | applied (x : Call) (t n : Nat) (h : (c.replica i).call q = some x) (hstage : x.stage = .applied t n)
      (happlied : n < (c.replica i).applied) : CallStep c i q (c.goto i q x (.verifyAgain t))
  | verifyAgain (x : Call) (t : Nat) (h : (c.replica i).call q = some x)
      (hstage : x.stage = .verifyAgain t) (hleads : c.Leads i) :
      CallStep c i q (c.goto i q x (.sameTerm t))
  | sameTerm (x : Call) (t : Nat) (h : (c.replica i).call q = some x) (hstage : x.stage = .sameTerm t)
      (hterm : (c.replica i).term = t) : CallStep c i q (c.goto i q x (.store t))
  | store (x : Call) (t : Nat) (h : (c.replica i).call q = some x) (hstage : x.stage = .store t) :
      CallStep c i q (c.set i ({ c.replica i with readyTerm := t }.setCall q
        (some { x with stage := .get })))
  | get (x : Call) (h : (c.replica i).call q = some x) (hstage : x.stage = .get) :
      CallStep c i q { c.set i ((c.replica i).setCall q none) with
        results := c.results ++
          [⟨x.key, x.floor, (stateAt c.log (c.replica i).applied).lookup x.key⟩] }
  /-- An error at any point. -/
  | fail : CallStep c i q (c.set i ((c.replica i).setCall q none))

inductive Event (ι ρ : Type)
  | elect (i : ι) (term : Nat)
  | follow (i : ι) (term : Nat)
  | write (i : ι) (command : Option Command)
  | apply (i : ι)
  | ack (index : Nat)
  | call (i : ι) (q : ρ)

inductive Step : Cluster ι ρ → Event ι ρ → Cluster ι ρ → Prop
  /-- A term has one leader, and terms only grow. -/
  | elect (c : Cluster ι ρ) (i : ι) (t : Nat) (hnewest : c.newest < t)
      (hterm : (c.replica i).term ≤ t) :
      Step c (.elect i t)
        { c.set i { c.replica i with term := t, leads := true } with
          newest := t, leader := Function.update c.leader t (some i) }
  | follow (c : Cluster ι ρ) (i : ι) (t : Nat) (hterm : (c.replica i).term ≤ t) :
      Step c (.follow i t) (c.set i { c.replica i with term := t, leads := false })
  /-- Only the newest leader commits: a write, or a barrier of another caller. -/
  | write (c : Cluster ι ρ) (i : ι) (cmd : Option Command) (hleads : c.Leads i) :
      Step c (.write i cmd) { c with log := c.log ++ [⟨c.newest, i, cmd⟩] }
  | apply (c : Cluster ι ρ) (i : ι) (hlt : (c.replica i).applied < c.log.length) :
      Step c (.apply i) (c.set i { c.replica i with applied := (c.replica i).applied + 1 })
  /-- A write is acknowledged once its proposer has applied it. -/
  | ack (c : Cluster ι ρ) (n : Nat) (e : Entry ι) (he : c.log[n]? = some e)
      (happlied : n < (c.replica e.node).applied) : Step c (.ack n) { c with acked := n :: c.acked }
  | call (c c' : Cluster ι ρ) (i : ι) (q : ρ) (h : CallStep c i q c') : Step c (.call i q) c'

end Steps

end UbixVault.Raft.Read
