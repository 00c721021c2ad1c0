/-
Comparing the two ends of a migration, as `raftmigrate.go` does.

Both ends are snapshots.  What a server keeps for its own coordination is left out.
Go's maps are compared key by key and the results sorted, so the order in which a map is
gone through does not matter and the functions here are given none.
-/
import UbixVault.Raft.Fsm
import UbixVault.Text

namespace UbixVault.Raft.Migrate

/-- Records of the coordination of a running server. -/
def coordination (key : Key) : Bool :=
  decide (str "core/ha/" <+: key) || decide (str "raft-internal/" <+: key)

variable (json : EntryJson)

/-- The loop of `snapEntries`, with what it has read so far. -/
def snapLoop (all : Store) (data : Bytes) : Except Err Store :=
  match hdecode : json.decode data with
  | none => .error (.wrap "decode snapshot entry" .outside)
  | some none => .ok all
  | some (some (e, rest)) =>
    if coordination e.key then snapLoop all rest else snapLoop (all.insert e.key e.value) rest
termination_by data.length
decreasing_by all_goals exact json.shorter data e rest hdecode

def snapEntries (data : Bytes) : Except Err Store :=
  match Snapshot.readLine data with
  | none => .error (.wrap "read snapshot header" .outside)
  | some (line, rest) =>
    let head := line ++ [Snapshot.newline]
    if str "ubixvault-snapshot " <+: head then snapLoop json ∅ rest
    else .error (.quoted "not a snapshot: header" (trimSpace head))

/-- What is hashed: each key and value in the order of the keys, with its length before it. -/
def digestInput (all : Store) : Bytes :=
  all.keys.inOrder.flatMap fun k =>
    let v := (all.lookup k).getD []
    putInt64 k.length ++ k ++ putInt64 v.length ++ v

/-- The number of entries, and the hash in hexadecimal. -/
def snapshotDigest (sha256 : Hash Byte) (data : Bytes) : Except Err (Nat × Bytes) := do
  let all ← snapEntries json data
  return (all.keys.inOrder.length, hexEncode (sha256.sum (digestInput all)))

/-- What a migrated cluster has, relative to the export. -/
structure Difference where
  missing : List Key
  changed : List Key
  added : List Key
  deriving DecidableEq

def difference (a b : Store) : Difference where
  missing := (a.keys.filter fun k => b.lookup k = none).inOrder
  changed := (a.keys.filter fun k => b.lookup k ≠ none ∧ a.lookup k ≠ b.lookup k).inOrder
  added := (b.keys.filter fun k => a.lookup k = none).inOrder

def compareSnapshots (exported migrated : Bytes) : Except Err Difference := do
  let a ← (snapEntries json exported).mapError (Err.wrap "export")
  let b ← (snapEntries json migrated).mapError (Err.wrap "migrated")
  return difference a b

end UbixVault.Raft.Migrate
