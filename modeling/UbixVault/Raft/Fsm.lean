/-
The replicated state machine of the Raft backend.

A log entry is a versioned JSON command.  Applying it changes the key/value bucket
and records its index, in one transaction of the database; an entry that cannot be
decoded makes the machine fail, and a failed machine applies nothing any more until
the process is started again.
-/
import UbixVault.Lib.Crypto
import UbixVault.Listing
import UbixVault.Snapshot

namespace UbixVault.Raft

/-! ### Commands -/

def commandVersion : Int := 1

inductive Op
  | put | delete | tokenMint | tokenBurn
  deriving DecidableEq, Repr

def Op.text : Op → Bytes
  | put => str "put"
  | delete => str "delete"
  | tokenMint => str "token-mint"
  | tokenBurn => str "token-burn"

/-- The operation with this text, if this build knows it. -/
def Op.ofText (s : Bytes) : Option Op := [Op.put, .delete, .tokenMint, .tokenBurn].find? (·.text = s)

/-- One replicated state change. -/
structure Command where
  op : Op
  key : Key
  value : Bytes
  /-- The proposer's clock; used by token operations. -/
  now : Time
  deriving DecidableEq

/-- What stands in the JSON. -/
structure CommandRecord where
  version : Int
  op : Bytes
  key : Key
  value : Bytes
  now : Time
  deriving DecidableEq

/-- `encoding/json` on commands. -/
abbrev CommandJson : Type := Codec Byte CommandRecord fun c => validUTF8 c.key = true

def encode (json : CommandJson) (c : Command) : Bytes :=
  json.marshal
    { version := commandVersion, op := c.op.text, key := c.key, value := c.value, now := c.now }

def decodeCommand (json : CommandJson) (data : Bytes) : Except Err Command :=
  match json.unmarshal data with
  | none => .error (.explain (.raft .unknownCommand) (str "decode"))
  | some c =>
    if c.version ≠ commandVersion then
      .error (.detail (.raft .unknownCommand)
        ("version " ++ toString c.version ++ " (this build speaks " ++ toString commandVersion ++ ")"))
    else
      match Op.ofText c.op with
      | none => .error (.explain (.raft .unknownCommand) (str "op " ++ quote c.op))
      | some op => .ok { op, key := c.key, value := c.value, now := c.now }

/-! ### Join tokens -/

def tokenPrefix : Key := str "raft-internal/join-token/"

def tokenFresh : Byte := 0

def tokenSpent : Byte := 1

/-- How long an expired record is kept. -/
def pruneAfter : Time := 24 * hour

/-- Arithmetic on `int64`. -/
def int64 (n : Int) : Int := n.bmod (2 ^ 64)

/-- Big-endian. -/
def putInt64 (n : Int) : Bytes :=
  [7, 6, 5, 4, 3, 2, 1, 0].map fun i => BitVec.ofNat 8 ((n % 2 ^ 64).toNat / 256 ^ i)

def getInt64 (bs : Bytes) : Int := int64 (bs.foldl (fun acc b => acc * 256 + (b.toNat : Int)) 0)

def encodeTokenRecord (state : Byte) (expiry : Time) : Bytes := state :: putInt64 expiry

def decodeTokenRecord : Bytes → Option (Byte × Time)
  | state :: rest => if rest.length = 8 then some (state, getInt64 rest) else none
  | [] => none

/-- A record that expired more than a day ago. -/
def longExpired (now : Time) (value : Option Bytes) : Bool :=
  match value.bind decodeTokenRecord with
  | some (_, expiry) => expiry < int64 (now - pruneAfter)
  | none => false

/-- The keys the cursor collects before a token is minted. -/
def staleKeys (kv : Store) (now : Time) : List Key :=
  ((kv.keys.inOrder.dropWhile (· < tokenPrefix)).takeWhile (tokenPrefix <+: ·)).filter
    fun k => longExpired now (kv.lookup k)

def prune (kv : Store) (now : Time) : Store := (staleKeys kv now).foldl (fun kv k => kv.erase k) kv

/-! ### Applying -/

/-- What a command does to the bucket, and what it answers: the application's own result. -/
def Command.apply (c : Command) (kv : Store) : Store × Option RaftError :=
  match c.op with
  | .tokenMint => ((prune kv c.now).insert c.key c.value, none)
  | .tokenBurn =>
    match (kv.lookup c.key).bind decodeTokenRecord with
    | none => (kv, some .tokenInvalid)
    | some (state, expiry) =>
      if state = tokenSpent then (kv, some .tokenUsed)
      else if c.now > expiry then (kv, some .tokenExpired)
      else (kv.insert c.key (encodeTokenRecord tokenSpent expiry), none)
  | .put => (kv.insert c.key c.value, none)
  | .delete => (kv.erase c.key, none)

/-- The database, with the index recorded in it, and the flag in memory. -/
structure Fsm where
  kv : Store
  lastApplied : Option Nat
  failed : Bool

def Fsm.empty : Fsm := ⟨∅, none, false⟩

/-- `ErrFailed`. -/
def errFailed : Err :=
  .detail (.storage .failed) "raft state machine failed; node must be replaced or restored"

/-- The entry with this index is in the database already. -/
def Fsm.reflects (f : Fsm) (index : Nat) : Bool :=
  match f.lastApplied with
  | some n => index ≤ n
  | none => false

/-- The application's result as the response: an error or `nil`. -/
def response : Option RaftError → Except Err Unit
  | none => .ok ()
  | some e => .error (.raft e)

/-- `Apply`; the first part is the response for the proposer. -/
def Fsm.apply (json : CommandJson) (f : Fsm) (index : Nat) (data : Bytes) : Except Err Unit × Fsm :=
  if f.failed then (.error errFailed, f)
  else
    match decodeCommand json data with
    | .error e => (.error (.explain errFailed e.message), { f with failed := true })
    | .ok c =>
      if f.reflects index then (.ok (), f)
      else
        (response (c.apply f.kv).2, { f with kv := (c.apply f.kv).1, lastApplied := some index })

/-! ### Snapshots -/

def maxKeyLen : Nat := 768

def checkKey (key : Key) : Bool := validKey key && key.length ≤ maxKeyLen

/-- `txBackend`: one transaction as a backend. -/
def txBackend : Outside Store := fun kv call =>
  match call with
  | .get key => if checkKey key then (.ok (kv.lookup key), kv) else (.error (.storage .invalidKey), kv)
  | .put key value =>
    if checkKey key then (.ok (), kv.insert key value) else (.error (.storage .invalidKey), kv)
  | .delete key => if checkKey key then (.ok (), kv.erase key) else (.error (.storage .invalidKey), kv)
  | .list pfx =>
    if validPrefix pfx then (.ok (kvList kv pfx), kv) else (.error (.storage .invalidKey), kv)
  -- A transaction offers nothing else.
  | .randRead _ | .randInt _ | .wrap _ | .unwrap _ | .acquireLock | .releaseLock | .cleanup _ =>
    (.error .outside, kv)
  | .now => (0, kv)

/-- `Snapshot` and `Persist`: keys are short, which bounds the depth of the walk. -/
def Fsm.snapshot (json : EntryJson) (f : Fsm) : Except Err Bytes :=
  if f.failed then .error errFailed
  else (Program.exec txBackend (Snapshot.write json (maxKeyLen + 1)) f.kv).1

/-- `Restore`: everything is replaced and the recorded index forgotten, or nothing happens. -/
def Fsm.restore (json : EntryJson) (f : Fsm) (data : Bytes) : Except Err Unit × Fsm :=
  match Program.exec txBackend (Snapshot.restore json data) ∅ with
  | (.ok (), kv) => (.ok (), { f with kv, lastApplied := none })
  | (.error e, _) => (.error e, f)

end UbixVault.Raft
