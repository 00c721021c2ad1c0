/-
A cluster of state machines fed from one committed log.

The consensus library hands each node the committed entries in the order of their
indices.  It keeps in memory which entry comes next, so after a restart it hands out
again what was applied before.  It labels a snapshot with the index of the entry
that it handed out last.  A snapshot of one node may be installed on any other.
-/
import UbixVault.Lib.Run
import UbixVault.Raft.Fsm

namespace UbixVault.Raft

/-- The encodings. -/
structure Json where
  command : CommandJson
  entry : EntryJson

/-- A node: its state machine, and what the library knows. -/
structure Node where
  fsm : Fsm
  /-- The index of the entry that is delivered next. -/
  next : Nat
  /-- The index of the snapshot that was installed last; zero if none was. -/
  base : Nat
  /-- How long the log was when the node was started, or a snapshot installed on it. -/
  born : Nat

def Node.init : Node := ⟨.empty, 1, 0, 0⟩

/-- The length of the prefix of the log that the state reflects. -/
def Node.applied (n : Node) : Nat := n.fsm.lastApplied.getD n.base

/-- The response for an entry; `live` if the node has been running since before it was proposed. -/
structure Reply (ι : Type) where
  node : ι
  index : Nat
  live : Bool
  result : Except Err Unit
  deriving DecidableEq

structure Cluster (ι : Type) where
  /-- The committed entries; the first has index one. -/
  log : List Bytes
  node : ι → Node
  /-- Snapshots, each with the index it is labelled with. -/
  pool : List (Nat × Bytes)
  replies : List (Reply ι)

def Cluster.init (ι : Type) : Cluster ι := ⟨[], fun _ => .init, [], []⟩

/-- Every entry up to the index is there and can be decoded. -/
def Decodable (J : Json) (log : List Bytes) (k : Nat) : Prop :=
  k ≤ log.length ∧ ∀ data ∈ log.take k, ∃ c, decodeCommand J.command data = .ok c

inductive Event (ι : Type)
  | commit (data : Bytes)
  | deliver (i : ι)
  /-- A crash; the entries from `start` on are delivered again. -/
  | restart (i : ι) (start : Nat)
  | snapshot (i : ι)
  | install (i : ι) (index : Nat) (data : Bytes)
  /-- A snapshot by a build that could decode an entry this one cannot. -/
  | foreign (index : Nat) (data : Bytes)

variable {ι : Type} [DecidableEq ι]

/-- Replace one node. -/
def Cluster.set (c : Cluster ι) (i : ι) (n : Node) : Cluster ι :=
  { c with node := Function.update c.node i n }

/-- The node after an entry was delivered to it. -/
def Node.delivered (J : Json) (n : Node) (data : Bytes) : Node :=
  { n with fsm := (n.fsm.apply J.command n.next data).2, next := n.next + 1 }

inductive Step (J : Json) : Cluster ι → Event ι → Cluster ι → Prop
  /-- The backend checks a key before it proposes a command. -/
  | commit (c : Cluster ι) (data : Bytes)
      (hkey : ∀ cmd, decodeCommand J.command data = .ok cmd → checkKey cmd.key = true) :
      Step J c (.commit data) { c with log := c.log ++ [data] }
  | deliver (c : Cluster ι) (i : ι) (data : Bytes)
      (hentry : c.log[(c.node i).next - 1]? = some data) :
      Step J c (.deliver i)
        { c.set i ((c.node i).delivered J data) with
          replies := c.replies ++ [{
            node := i
            index := (c.node i).next
            live := (c.node i).born < (c.node i).next
            result := ((c.node i).fsm.apply J.command (c.node i).next data).1 }] }
  /-- Only what lies above the installed snapshot is delivered, and nothing is left out. -/
  | restart (c : Cluster ι) (i : ι) (start : Nat) (habove : (c.node i).base < start)
      (hbelow : start ≤ (c.node i).applied + 1) :
      Step J c (.restart i start)
        (c.set i { c.node i with
          fsm := { (c.node i).fsm with failed := false }
          next := start
          born := c.log.length })
  | snapshot (c : Cluster ι) (i : ι) (data : Bytes)
      (hdata : (c.node i).fsm.snapshot J.entry = .ok data) :
      Step J c (.snapshot i) { c with pool := ((c.node i).next - 1, data) :: c.pool }
  | install (c : Cluster ι) (i : ι) (index : Nat) (data : Bytes) (fsm : Fsm)
      (hpool : (index, data) ∈ c.pool)
      (hrestore : (c.node i).fsm.restore J.entry data = (.ok (), fsm)) :
      Step J c (.install i index data)
        (c.set i { fsm, next := index + 1, base := index, born := c.log.length })
  | foreign (c : Cluster ι) (index : Nat) (data bad : Bytes) (hindex : index ≤ c.log.length)
      (hbad : bad ∈ c.log.take index)
      (hundecodable : ∀ cmd, decodeCommand J.command bad ≠ .ok cmd) :
      Step J c (.foreign index data) { c with pool := (index, data) :: c.pool }

/-- The plain left fold of the commands over the first `n` entries. -/
def stateAt (J : Json) (log : List Bytes) (n : Nat) : Store :=
  (log.take n).foldl (fun kv data =>
    match decodeCommand J.command data with
    | .ok c => (c.apply kv).1
    | .error _ => kv) ∅

end UbixVault.Raft
