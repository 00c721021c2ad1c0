/-
The token store, as package `token` computes it.

Tokens are stored under the hash of their value.  A child token also has an entry
in the index of its parent, and that index is the only way a revocation finds it.
The store is written over the plain storage interface; running it over the
barrier is `Barrier.through`.

JSON is a parameter that reads back what it wrote.  It keeps every text that is
valid Unicode, which is why policies and entity names are strings here; token
values and hashes are made of hexadecimal digits.
-/
import UbixVault.Lib.Crypto
import UbixVault.Outside

namespace UbixVault

structure Token where
  id : Bytes
  policies : List String
  entityID : String
  createdTime : Time
  /-- Zero means never. -/
  expiresAt : Time
  /-- The latest expiry renewal may reach; zero if the token never expires. -/
  maxExpiresAt : Time
  /-- The hash of the parent's value; empty for an orphan. -/
  parentHash : Bytes
  deriving DecidableEq

namespace Token

/-- The texts that JSON must keep are plain. -/
structure WF (t : Token) : Prop where
  id : Ascii t.id
  parentHash : Ascii t.parentHash

def rootPolicy : String := "root"

def isOrphan (t : Token) : Bool := t.parentHash = []

def isRoot (t : Token) : Bool := t.policies.contains rootPolicy

def expired (t : Token) (now : Time) : Bool := t.expiresAt ≠ 0 ∧ now > t.expiresAt

end Token

def displayPrefix : Bytes := str "uv."

def storePrefix : Key := str "sys/token/"

def childPrefix : Key := str "sys/token-child/"

def idBytes : Nat := 24

def defaultTTL : Time := 32 * 24 * hour

def defaultMaxTTL : Time := 32 * 24 * hour

def later (a b : Time) : Time := if a > b then a else b

def childKey (parentHash childHash : Bytes) : Key :=
  childPrefix ++ parentHash ++ [slash] ++ childHash

/-- A new random token value. -/
def generateID : Act Bytes := do
  let b ← (Act.randRead idBytes).context "token: generate id"
  return displayPrefix ++ hexEncode b.val

/-- What a token store asks the identity engine: the entity of a login. -/
abbrev Aliaser : Type := (mountType name : String) → (groups : List String) → Act String

/-- What a token store works with. -/
structure TokenStore where
  sha256 : Hash Byte
  json : Codec Byte Token Token.WF
  maxTTL : Time

namespace TokenStore

variable (st : TokenStore)

/-- `SetMaxTTL`: a duration that is not positive restores the default. -/
def setMaxTTL (d : Time) : TokenStore := { st with maxTTL := if d ≤ 0 then defaultMaxTTL else d }

/-- The storage name of a token value. -/
def hashID (id : Bytes) : Bytes := hexEncode (st.sha256.sum id)

def storeKey (id : Bytes) : Key := storePrefix ++ st.hashID id

/-- The latest time a token may be renewed to. -/
def maxExpiry (t : Token) : Time :=
  if t.expiresAt = 0 then 0
  else if t.maxExpiresAt ≠ 0 then t.maxExpiresAt
  else later t.expiresAt (t.createdTime + st.maxTTL)

def save (t : Token) : Act Unit :=
  (Act.put (st.storeKey t.id) (st.json.marshal t)).context "token: persist"

/-! ### Creating -/

/-- The renewal ceiling of a new token, before it is clamped. -/
def ceilingAt (expiresAt now : Time) : Time :=
  if expiresAt = 0 then 0 else later expiresAt (now + st.maxTTL)

/-- A time of an expiring token, lowered to a bound that is not zero. -/
def clamp (expiresAt bound t : Time) : Time :=
  if expiresAt ≠ 0 ∧ bound ≠ 0 ∧ t > bound then bound else t

def createWithEntityBounded (policies : List String) (expiresAt : Time) (entityID : String)
    (bound : Time) (parentHash : Bytes) : Act Token := do
  let id ← generateID
  let now ← Act.now
  let t : Token := {
    id, policies, entityID, parentHash
    createdTime := now
    expiresAt := clamp expiresAt bound expiresAt
    maxExpiresAt := clamp expiresAt bound (st.ceilingAt expiresAt now) }
  st.save t
  return t

def createWithEntity (policies : List String) (expiresAt : Time) (entityID : String) : Act Token :=
  st.createWithEntityBounded policies expiresAt entityID 0 []

/-- A token with the root policy that never expires. -/
def createRoot : Act Token := st.createWithEntity [Token.rootPolicy] 0 ""

def create (policies : List String) : Act Token := do
  let now ← Act.now
  st.createWithEntity policies (now + defaultTTL) ""

/-- A `ttl` that is not positive means the token never expires. -/
def createWithTTL (policies : List String) (ttl : Time) : Act Token :=
  if ttl > 0 then do
    let now ← Act.now
    st.createWithEntity policies (now + ttl) ""
  else st.createWithEntity policies 0 ""

/-- The entity a login belongs to; none without an identity engine or a name. -/
def resolveEntity (aliaser : Option Aliaser) (mountType name : String) (groups : List String) :
    Act String :=
  match aliaser with
  | none => pure ""
  | some resolveAlias =>
    if name = "" then pure ""
    else (resolveAlias mountType name groups).context "token: resolve identity"

def createAlias (aliaser : Option Aliaser) (policies : List String) (expiresAt : Time)
    (mountType name : String) (groups : List String) : Act Token := do
  let entityID ← resolveEntity aliaser mountType name groups
  st.createWithEntity policies expiresAt entityID

def createWithAlias (aliaser : Option Aliaser) (policies : List String) (mountType name : String)
    (groups : List String) : Act Token := do
  let now ← Act.now
  st.createAlias aliaser policies (now + defaultTTL) mountType name groups

def createWithTTLAndAlias (aliaser : Option Aliaser) (policies : List String) (ttl : Time)
    (mountType name : String) (groups : List String) : Act Token :=
  if ttl > 0 then do
    let now ← Act.now
    st.createAlias aliaser policies (now + ttl) mountType name groups
  else st.createAlias aliaser policies 0 mountType name groups

/-- The bound a role's maximum puts on a login; zero when the role has none. -/
def loginBound (maxTTL : Time) : Act Time :=
  if maxTTL > 0 then do
    let now ← Act.now
    return now + maxTTL
  else return 0

/-- The token of a login: an orphan, bounded by the role's maximum. -/
def createForLogin (aliaser : Option Aliaser) (policies : List String) (ttl maxTTL : Time)
    (mountType name : String) (groups : List String) : Act Token := do
  let bound ← loginBound maxTTL
  let entityID ← resolveEntity aliaser mountType name groups
  let now ← Act.now
  st.createWithEntityBounded policies (now + if ttl ≤ 0 then defaultTTL else ttl) entityID bound []

/-- Write the index entry of a new child, or take its record back. -/
def indexChild (parentHash : Bytes) (t : Token) : Act Unit :=
  ExceptT.mk do
    match ← (Act.put (childKey parentHash (st.hashID t.id)) (str "1")).run with
    | .ok () => return .ok ()
    | .error e => do
        let _ ← (Act.delete (st.storeKey t.id)).run
        return .error (.wrap "token: index child" e)

/-- A child of `parent`, which never outlives the parent's ceiling. -/
def createChild (parent : Token) (policies : List String) (ttl : Time) : Act Token := do
  let parentHash := st.hashID parent.id
  let now ← Act.now
  let t ← st.createWithEntityBounded policies (now + if ttl ≤ 0 then defaultTTL else ttl) ""
    (st.maxExpiry parent) parentHash
  st.indexChild parentHash t
  return t

/-! ### Reading and renewing -/

def lookup (id : Bytes) : Act Token := do
  match ← (Act.get (st.storeKey id)).context "token: lookup" with
  | none => throw (.token .notFound)
  | some blob =>
    match st.json.unmarshal blob with
    | none => throw (.wrap "token: unmarshal" .outside)
    | some t => do
        let now ← Act.now
        if t.expired now then throw (.token .expired) else return t

/-- Set the expiry to `ttl` from now, but never past the ceiling. -/
def renew (id : Bytes) (ttl : Time) : Act Token := do
  let t ← st.lookup id
  if t.expiresAt = 0 then return t
  else do
    let ceiling := st.maxExpiry t
    let now ← Act.now
    let expiresAt := now + if ttl ≤ 0 then defaultTTL else ttl
    let t' : Token := {
      t with
      maxExpiresAt := ceiling
      expiresAt := if expiresAt > ceiling then ceiling else expiresAt }
    st.save t'
    return t'

/-! ### Revoking

The state of a revocation is the number of tokens revoked so far, which is
returned with an error too.  The recursion is bounded: `fuel` is how many levels
are still allowed, so it is used up exactly when the depth exceeds `maxTreeDepth`.
-/

def maxTreeDepth : Nat := 64

abbrev RevokeM : Type → Type := ExceptT Err (StateT Nat Prog)

/-- Revoke what a stored child record names; an unreadable record is passed over. -/
def revokeStored (recurse : Bytes → Bytes → RevokeM Unit) (childHash : Bytes)
    (entry : Option Bytes) : RevokeM Unit :=
  match entry.bind st.json.unmarshal with
  | some child => if child.id ≠ [] then recurse child.id childHash else pure ()
  | none => pure ()

def revokeChildren (recurse : Bytes → Bytes → RevokeM Unit) (hash : Bytes) :
    List Key → RevokeM Unit
  | [] => pure ()
  | childHash :: rest => do
      let entry ← Program.stateless
        ((Act.get (storePrefix ++ childHash)).context "token: read child")
      st.revokeStored recurse childHash entry
      Program.stateless ((Act.delete (childKey hash childHash)).context "token: unindex child")
      revokeChildren recurse hash rest

/-- Remove an index entry, best effort; an orphan has none. -/
def unindex (parentHash hash : Bytes) : RevokeM Unit :=
  if parentHash ≠ [] then Program.attempt (Act.delete (childKey parentHash hash)) else pure ()

/-- Call back for a token, when there is a callback. -/
def runCleanup (cleanup : Option (Bytes → Act Unit)) (id : Bytes) : RevokeM Unit :=
  match cleanup with
  | none => pure ()
  | some callback => Program.stateless (callback id)

/-- Clean up after a token and delete its record, if it has one. -/
def revokeRecord (cleanup : Option (Bytes → Act Unit)) (id hash : Bytes) : RevokeM Unit := do
  match ← Program.stateless ((Act.get (storePrefix ++ hash)).context "token: read") with
  | none => pure ()
  | some blob => do
      runCleanup cleanup id
      Program.stateless ((Act.delete (storePrefix ++ hash)).context "token: revoke")
      unindex (((st.json.unmarshal blob).map Token.parentHash).getD []) hash
      modify (· + 1)

def revokeTree (cleanup : Option (Bytes → Act Unit)) : (fuel : Nat) → (id hash : Bytes) →
    RevokeM Unit
  | 0, _, _ => throw (.text s!"token: revoke: tree deeper than {maxTreeDepth}")
  | fuel + 1, id, hash => do
      let children ← Program.stateless
        ((Act.list (childPrefix ++ hash ++ [slash])).context "token: list children")
      st.revokeChildren (revokeTree cleanup fuel) hash children
      st.revokeRecord cleanup id hash

/-- `RevokeTree`: revoke every descendant and then the token; the number revoked, and an error. -/
def revokeAll (id : Bytes) (cleanup : Option (Bytes → Act Unit)) : Prog (Except Err Unit × Nat) :=
  (st.revokeTree cleanup (maxTreeDepth + 1) id (st.hashID id)).run.run 0

/-- The loop of a sweep; a tree that cannot be revoked is left to the next one. -/
def sweepEach (limit : Int) (cleanup : Option (Bytes → Act Unit)) (now : Time) :
    List Key → (removed : Nat) → Prog (Except Err Unit × Nat)
  | [], removed => return (.ok (), removed)
  | name :: names, removed =>
    if 0 < limit ∧ limit ≤ removed then return (.ok (), removed)
    else do
      match ← ((Act.get (storePrefix ++ name)).context "token: read").run with
      | .error e => return (.error e, removed)
      | .ok entry =>
        match entry.bind st.json.unmarshal with
        | none => sweepEach limit cleanup now names removed
        | some t =>
          if !t.expired now then sweepEach limit cleanup now names removed
          else do
            let (_, n) ← (st.revokeTree cleanup (maxTreeDepth + 1) t.id name).run.run 0
            sweepEach limit cleanup now names (removed + n)

/-- `SweepExpired`: revoke what has expired; a limit that is not positive is none. -/
def sweepExpired (limit : Int) (cleanup : Option (Bytes → Act Unit)) : Prog (Except Err Unit × Nat) := do
  match ← ((Act.list storePrefix).context "token: list").run with
  | .error e => return (.error e, 0)
  | .ok names => do
      let now ← Program.perform Call.now
      st.sweepEach limit cleanup now names 0

/-- `Revoke`: a revocation without a callback, and without the number. -/
def revoke (id : Bytes) : Act Unit :=
  ExceptT.mk do
    let (r, _) ← st.revokeAll id none
    return r

end TokenStore

end UbixVault
