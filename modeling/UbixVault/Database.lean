/-
The database engine, as packages `database` and `mariadb` compute it.

The engine talks to two sides: to the vault's storage, as every engine does, and
through a plugin to a database server.  Its programs run over the operations of both.
The server knows accounts, which are users at hosts.  A statement that creates
accounts commits at once, whatever the transaction around it comes to, so the
rollback of a transaction has no operation here: it would change nothing.

What fails, what random values and times are delivered and in which order the storage
lists its keys is again decided outside, by `Env` and `Server` together.
-/
import UbixVault.Text
import UbixVault.Cubbyhole

namespace UbixVault.Database

/-! ### The outside of the engine -/

/-- A user of the database server, at a host. -/
structure Account where
  user : Bytes
  host : Bytes
  deriving DecidableEq

/-- One request to the outside. -/
inductive Op
  | vault (call : Call)
  /-- The flag that says the plugin has been initialized. -/
  | isReady
  | setReady (ready : Bool)
  /-- Whether the plugin has a connection. -/
  | conn
  /-- Open a connection, verify it and keep it. -/
  | connect (url : Bytes)
  | close
  | beginTx
  | exec (stmt : Bytes)
  | commit
  /-- The hosts of a user. -/
  | hosts (username : Bytes)
  | dropUser (account : Account)
  deriving DecidableEq

/-- What a request is answered with. -/
@[reducible] def Res : Op → Type
  | .vault call => Reply call
  | .isReady => Bool
  | .setReady _ => Unit
  | .conn => Bool
  | .connect _ => Except Err Unit
  | .close => Unit
  | .beginTx => Except Err Unit
  | .exec _ => Except Err Unit
  | .commit => Except Err Unit
  | .hosts _ => Except Err (List Bytes)
  | .dropUser _ => Except Err Unit

abbrev DbProg : Type → Type := Program Op Res

abbrev DbAct : Type → Type := ExceptT Err DbProg

namespace DbAct

/-- A program of the vault. -/
def vault {α : Type} (x : Act α) : DbAct α :=
  ExceptT.mk (x.run.translate fun call => Program.perform (Op.vault call))

def connect (url : Bytes) : DbAct Unit := ExceptT.mk (Program.perform (Op.connect url))

def beginTx : DbAct Unit := ExceptT.mk (Program.perform Op.beginTx)

def exec (stmt : Bytes) : DbAct Unit := ExceptT.mk (Program.perform (Op.exec stmt))

def commit : DbAct Unit := ExceptT.mk (Program.perform Op.commit)

def hosts (username : Bytes) : DbAct (List Bytes) := ExceptT.mk (Program.perform (Op.hosts username))

def dropUser (account : Account) : DbAct Unit := ExceptT.mk (Program.perform (Op.dropUser account))

def context {α : Type} (text : String) (x : DbAct α) : DbAct α := ExceptT.adapt (Err.wrap text) x

end DbAct

/-! ### The plugin -/

structure CreateUserRequest where
  username : Bytes
  password : Bytes
  expiration : Time
  creationStatements : List Bytes
  deriving DecidableEq

/-- What the engine needs of a database. -/
structure Plugin where
  initializePlugin : (connectionURL : Bytes) → DbAct Unit
  createUser : CreateUserRequest → DbAct Unit
  revokeUser : (username : Bytes) → DbAct Unit

/-- `strings.NewReplacer`, for texts none of which begins another; `skip` bytes are replaced. -/
def replace (pairs : List (Bytes × Bytes)) : (skip : Nat) → Bytes → Bytes
  | _, [] => []
  | skip + 1, _ :: s => replace pairs skip s
  | 0, b :: s =>
    match pairs.find? fun pair => pair.1 <+: b :: s with
    | some (old, new) => new ++ replace pairs (old.length - 1) s
    | none => b :: replace pairs 0 s

namespace Mariadb

/-- What is substituted in the statements; `format` writes a time as MariaDB reads it. -/
def replacements (format : Time → Bytes) (req : CreateUserRequest) : List (Bytes × Bytes) :=
  [(str "\x7b\x7busername\x7d\x7d", req.username), (str "\x7b\x7bname\x7d\x7d", req.username),
    (str "\x7b\x7bpassword\x7d\x7d", req.password),
    (str "\x7b\x7bexpiration\x7d\x7d", format req.expiration)]

/-- A statement as it is sent. -/
def statement (format : Time → Bytes) (req : CreateUserRequest) (stmt : Bytes) : Bytes :=
  trimSpace (replace (replacements format req) 0 stmt)

def conn : DbAct Unit := do
  if ← (Program.perform Op.conn : DbProg Bool) then return ()
  else throw (.text "mariadb: not initialized")

def initializePlugin (connectionURL : Bytes) : DbAct Unit :=
  (DbAct.connect connectionURL).context "mariadb: ping"

def execAll (format : Time → Bytes) (req : CreateUserRequest) : List Bytes → DbAct Unit
  | [] => return ()
  | stmt :: rest => do
      if statement format req stmt ≠ [] then
        (DbAct.exec (statement format req stmt)).context "mariadb: create user"
      execAll format req rest

def createUser (format : Time → Bytes) (req : CreateUserRequest) : DbAct Unit := do
  conn
  DbAct.beginTx.context "mariadb: begin"
  execAll format req req.creationStatements
  DbAct.commit.context "mariadb: commit"

/-- `strings.ReplaceAll(s, "'", "''")`. -/
def doubleQuotes (s : Bytes) : Bytes := s.flatMap fun c => if c = 0x27 then [0x27, 0x27] else [c]

/-- The statement that `DbAct.dropUser` sends. -/
def dropStatement (account : Account) : Bytes :=
  str "DROP USER IF EXISTS '" ++ doubleQuotes account.user ++ str "'@'" ++ doubleQuotes account.host
    ++ str "'"

def dropAll (username : Bytes) : List Bytes → DbAct Unit
  | [] => return ()
  | host :: rest => do
      (DbAct.dropUser ⟨username, host⟩).context "mariadb: drop user"
      dropAll username rest

def revokeUser (username : Bytes) : DbAct Unit := do
  conn
  let hosts ← (DbAct.hosts username).context "mariadb: find user hosts"
  dropAll username hosts

/-- The plugin for MariaDB. -/
def plugin (format : Time → Bytes) : Plugin where
  initializePlugin := initializePlugin
  createUser := createUser format
  revokeUser := revokeUser

end Mariadb

/-! ### The engine -/

structure Role where
  creationStatements : List Bytes
  defaultTTL : Time

/-- Texts that the encoding keeps as they are. -/
def Role.WF (r : Role) : Prop := ∀ stmt ∈ r.creationStatements, validUTF8 stmt = true

structure Lease where
  id : Bytes
  role : Bytes
  username : Bytes
  expiration : Time
  /-- The token that asked for it. -/
  createdBy : Bytes

def Lease.WF (l : Lease) : Prop :=
  validUTF8 l.id = true ∧ validUTF8 l.role = true ∧ validUTF8 l.username = true ∧
    validUTF8 l.createdBy = true

structure Credential where
  leaseID : Bytes
  username : Bytes
  password : Bytes
  ttl : Time
  deriving DecidableEq

structure LeaseInfo where
  leaseID : Bytes
  role : Bytes
  ttl : Time
  username : Bytes

structure Engine where
  pfx : Key
  validKey_pfx : validKey pfx = true
  configJson : Codec Byte Bytes fun url => validUTF8 url = true
  roleJson : Codec Byte Role Role.WF
  leaseJson : Codec Byte Lease Lease.WF
  plugin : Plugin

/-- `validName`: a single segment that a key may have. -/
def validName (name : Bytes) : Bool :=
  name != [] && !name.contains slash && validKey (str "database/role/" ++ name)

/-- `base64.RawURLEncoding.EncodeToString`. -/
def base64RawURL (b : Bytes) : Bytes :=
  ((base64Encode b).filter (· ≠ base64Pad)).map fun c =>
    if c = 0x2b then 0x2d else if c = slash then 0x5f else c

/-- The name of a new user; an error of the random source is passed over. -/
def usernameFor (role suffix : Bytes) : Bytes :=
  str "uv_" ++ role.take 8 ++ str "_" ++ hexEncode suffix

def defaultUsername (role : Bytes) : Act Bytes :=
  ExceptT.mk do
    match ← (Act.randRead 4).run with
    | .ok suffix => return .ok (usernameFor role suffix)
    | .error _ => return .ok (usernameFor role (List.replicate 4 0))

def defaultPassword : Act Bytes := do
  let b ← (Act.randRead 24).context "database: generate password"
  return base64RawURL b

def randomID : Act Bytes := do
  let b ← (Act.randRead 16).context "database: generate lease id"
  return hexEncode b

namespace Engine

variable (e : Engine)

def configKey : Key := e.pfx ++ str "/config"

def roleKey (name : Bytes) : Key := e.pfx ++ str "/role/" ++ name

def leasePrefix : Key := e.pfx ++ str "/lease/"

def leaseKey (id : Bytes) : Key := e.leasePrefix ++ id

def configure (connectionURL : Bytes) : DbAct Unit := do
  (e.plugin.initializePlugin connectionURL).context "database: initialize plugin"
  DbAct.vault ((Act.put e.configKey (e.configJson.marshal connectionURL)).context
    "database: persist config")
  (Program.perform (Op.setReady true) : DbProg Unit)

def reset : DbProg Unit := do
  if ← Program.perform Op.isReady then
    Program.perform Op.close
    Program.perform (Op.setReady false)

def readConfig : Act Bytes := do
  match ← (Act.get e.configKey).context "database: read config" with
  | none => throw (.database .notConfigured)
  | some blob =>
    match e.configJson.unmarshal blob with
    | none => throw (.wrap "database: unmarshal config" .outside)
    | some url => return url

def ensureReady : DbAct Unit := do
  if ← (Program.perform Op.isReady : DbProg Bool) then return ()
  else
    let url ← DbAct.vault e.readConfig
    (e.plugin.initializePlugin url).context "database: initialize plugin"
    (Program.perform (Op.setReady true) : DbProg Unit)

def configured : Act Bool := do
  let entry ← (Act.get e.configKey).context "database: read config"
  return entry.isSome

def writeRole (name : Bytes) (role : Role) : Act Unit :=
  if !validName name then throw (.database .invalidName)
  else (Act.put (e.roleKey name) (e.roleJson.marshal role)).context "database: persist role"

def readRole (name : Bytes) : Act Role :=
  if !validName name then throw (.database .invalidName)
  else do
    match ← (Act.get (e.roleKey name)).context "database: read role" with
    | none => throw (.database .roleNotFound)
    | some blob =>
      match e.roleJson.unmarshal blob with
      | none => throw (.wrap "database: unmarshal role" .outside)
      | some role => return role

def listRoles : Act (List Key) := (Act.list (e.pfx ++ str "/role/")).context "database: list roles"

def deleteRole (name : Bytes) : Act Unit :=
  if !validName name then throw (.database .invalidName)
  else (Act.delete (e.roleKey name)).context "database: delete role"

def saveLease (l : Lease) : Act Unit :=
  (Act.put (e.leaseKey l.id) (e.leaseJson.marshal l)).context "database: persist lease"

def loadLease (id : Bytes) : Act Lease := do
  match ← (Act.get (e.leaseKey id)).context "database: read lease" with
  | none => throw (.database .leaseNotFound)
  | some blob =>
    match e.leaseJson.unmarshal blob with
    | none => throw (.wrap "database: unmarshal lease" .outside)
    | some l => return l

/-- The lease that is recorded under an id. -/
def leaseAt (store : Store) (id : Bytes) : Option Lease :=
  if slash ∉ id ∧ validKey id = true then (store.lookup (e.leaseKey id)).bind e.leaseJson.unmarshal
  else none

/-- Record a lease; if that fails, the user is dropped, as far as that is possible. -/
def saveOrRevoke (l : Lease) : DbAct Unit :=
  ExceptT.mk do
    match ← (DbAct.vault (e.saveLease l)).run with
    | .ok () => return .ok ()
    | .error err => do
        let _ ← (e.plugin.revokeUser l.username).run
        return .error err

def generateCredentials (roleName createdBy : Bytes) : DbAct Credential := do
  e.ensureReady
  let role ← DbAct.vault (e.readRole roleName)
  let username ← DbAct.vault (defaultUsername roleName)
  let password ← DbAct.vault defaultPassword
  let now ← DbAct.vault Act.now
  let expiration := now + role.defaultTTL
  (e.plugin.createUser
    { username, password, expiration, creationStatements := role.creationStatements }).context
    "database: create user"
  let id ← DbAct.vault randomID
  e.saveOrRevoke { id, role := roleName, username, expiration, createdBy }
  return { leaseID := id, username, password, ttl := role.defaultTTL }

def lookup (leaseID : Bytes) : Act LeaseInfo := do
  let l ← e.loadLease leaseID
  let now ← Act.now
  return { leaseID := l.id, role := l.role, ttl := max (l.expiration - now) 0, username := l.username }

/-- How long a lease is renewed for; the default of its role, if that can be read. -/
def renewalTTL (l : Lease) (ttl : Time) : Act Time :=
  if 0 < ttl then return ttl
  else
    ExceptT.mk do
      match ← (e.readRole l.role).run with
      | .ok role => return .ok role.defaultTTL
      | .error _ => return .ok ttl

def renew (leaseID : Bytes) (ttl : Time) : Act LeaseInfo := do
  let l ← e.loadLease leaseID
  let ttl ← e.renewalTTL l ttl
  let now ← Act.now
  e.saveLease { l with expiration := now + ttl }
  return { leaseID := l.id, role := l.role, ttl, username := l.username }

def revoke (leaseID : Bytes) : DbAct Unit := do
  e.ensureReady
  let l ← DbAct.vault (e.loadLease leaseID)
  (e.plugin.revokeUser l.username).context "database: revoke user"
  DbAct.vault ((Act.delete (e.leaseKey leaseID)).context "database: delete lease")

/-- Revoke the leases that are wanted; one that cannot be read is passed over. -/
def revokeEach (wanted : Lease → Bool) : List Key → (revoked : Nat) → DbProg (Except Err Unit × Nat)
  | [], revoked => return (.ok (), revoked)
  | id :: ids, revoked => do
      match ← (DbAct.vault (e.loadLease id)).run with
      | .error _ => revokeEach wanted ids revoked
      | .ok l =>
        if !wanted l then revokeEach wanted ids revoked
        else
          match ← (e.revoke id).run with
          | .error err => return (.error err, revoked)
          | .ok () => revokeEach wanted ids (revoked + 1)

def listLeases : DbAct (List Key) :=
  DbAct.vault ((Act.list e.leasePrefix).context "database: list leases")

/-- Leases created by a token, and how many were revoked. -/
def revokeByToken (tokenID : Bytes) : DbProg (Except Err Unit × Nat) :=
  if tokenID = [] then return (.ok (), 0)
  else do
    match ← e.listLeases.run with
    | .error err => return (.error err, 0)
    | .ok ids => e.revokeEach (fun l => l.createdBy == tokenID) ids 0

/-- Leases whose time has come, and how many were revoked. -/
def revokeExpired : DbProg (Except Err Unit × Nat) := do
  match ← e.listLeases.run with
  | .error err => return (.error err, 0)
  | .ok ids => do
      let now ← Program.perform (Op.vault .now)
      e.revokeEach (fun l => !decide (now < l.expiration)) ids 0

/-- The path a lease was issued at. -/
def issuingPath (l : Lease) : Bytes := e.pfx ++ str "/creds/" ++ l.role

def countEach (pathPrefix : Bytes) : List Key → (n : Nat) → DbProg Nat
  | [], n => return n
  | id :: ids, n => do
      match ← (DbAct.vault (e.loadLease id)).run with
      | .error _ => countEach pathPrefix ids n
      | .ok l =>
        countEach pathPrefix ids (if pathPrefix <+: e.issuingPath l then n + 1 else n)

def countLeasesUnder (pathPrefix : Bytes) : DbAct Nat := do
  let ids ← e.listLeases
  (e.countEach pathPrefix ids 0 : DbProg Nat)

end Engine

/-! ### A storage and a server that keep their promises -/

/-- What is stored, what the engine and the plugin remember, and the accounts there are. -/
structure Site where
  vault : World
  ready : Bool
  connected : Bool
  accounts : List Account
  /-- How many statements the transaction has executed. -/
  executed : Nat

/-- The engine has its connection, or a configuration to open one with. -/
def Site.usable (s : Site) (e : Engine) : Bool :=
  if s.ready then s.connected
  else ((s.vault.store.lookup e.configKey).bind e.configJson.unmarshal).isSome

/-- Everything the outside decides besides `Env`. -/
structure Server where
  /-- The accounts a statement creates. -/
  creates : Bytes → List Account
  fails : Site → Op → Bool
  /-- The order of a listing. -/
  order : List Key → List Key
  order_perm : ∀ l, (order l).Perm l

namespace Server

variable (server : Server)

/-- The reply of the storage, in the order of the server. -/
def reorder : (call : Call) → Reply call → Reply call
  | .list _, r => r.map server.order
  | .get _, r | .put _ _, r | .delete _, r | .randRead _, r | .randInt _, r | .now, r | .wrap _, r
  | .unwrap _, r | .acquireLock, r | .releaseLock, r | .cleanup _, r => r

/-- The storage of the vault, as this server lists it. -/
def storage (env : Env) : Outside World := fun w call =>
  (server.reorder call (env.answer w call).1, (env.answer w call).2)

/-- The reply of an operation that may fail, without effect. -/
def guarded {α : Type} (s : Site) (op : Op) (reply : Except Err α × Site) : Except Err α × Site :=
  if server.fails s op then (.error .outside, s) else reply

/-- Answer one operation. -/
def answer (env : Env) : Program.Handler Op Res Site := fun s op =>
  match op with
  | .vault call =>
    ((server.storage env s.vault call).1, { s with vault := (server.storage env s.vault call).2 })
  | .isReady => (s.ready, s)
  | .setReady ready => ((), { s with ready })
  | .conn => (s.connected, s)
  | .connect url => server.guarded s (.connect url) (.ok (), { s with connected := true })
  | .close => ((), { s with connected := false })
  | .beginTx => server.guarded s .beginTx (.ok (), { s with executed := 0 })
  | .exec stmt =>
    server.guarded s (.exec stmt)
      (.ok (), { s with
        accounts := s.accounts ++ (server.creates stmt).filter (· ∉ s.accounts)
        executed := s.executed + 1 })
  | .commit => server.guarded s .commit (.ok (), s)
  | .hosts username =>
    server.guarded s (.hosts username)
      (.ok ((s.accounts.filter (·.user = username)).map Account.host), s)
  | .dropUser account =>
    server.guarded s (.dropUser account)
      (.ok (), { s with accounts := s.accounts.filter (· ≠ account) })

end Server

end UbixVault.Database
