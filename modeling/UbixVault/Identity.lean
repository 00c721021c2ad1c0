/-
The identity engine: entities, aliases and groups, and what they contribute.

Everything is a JSON record.  Texts that come out of JSON are valid Unicode, so
they are strings here; the encodings are parameters that read back what they wrote.
-/
import UbixVault.Lib.Crypto
import UbixVault.Outside
import UbixVault.Text

namespace UbixVault

structure Entity where
  id : String
  name : String
  policies : List String
  metadata : Finmap fun _ : String => String
  disabled : Bool
  createdTime : Time
  deriving DecidableEq

structure Alias where
  id : String
  entityID : String
  mountType : String
  name : String
  /-- The groups the auth method asserted at the last login. -/
  groups : List String
  createdTime : Time

inductive GroupType
  | internal | external
  deriving DecidableEq, Repr

structure Group where
  id : String
  name : String
  type : GroupType
  policies : List String
  /-- The members of an internal group. -/
  memberEntityIDs : List String
  /-- Groups whose members inherit the policies. -/
  memberGroupIDs : List String
  /-- Of an external group: who asserts membership, and under which name. -/
  mountType : String
  groupName : String
  createdTime : Time

/-- What the engine works with. -/
structure IdentityEngine where
  entityJson : Codec Byte Entity fun _ => True
  aliasJson : Codec Byte Alias fun _ => True
  groupJson : Codec Byte Group fun _ => True
  /-- A first login makes an entity. -/
  autoCreate : Bool

namespace IdentityEngine

variable (E : IdentityEngine)

def mountPrefix : Key := str "identity"

def entityKey (id : String) : Key := mountPrefix ++ str "/entity/" ++ str id

def entityNameKey (n : String) : Key := mountPrefix ++ str "/entity-name/" ++ str n

def aliasesPrefix : Key := mountPrefix ++ str "/alias/"

def aliasKey (id : Bytes) : Key := aliasesPrefix ++ id

def aliasIndexKey (mount n : String) : Key :=
  mountPrefix ++ str "/alias-index/" ++ str mount ++ str "/" ++ str n

def groupsPrefix : Key := mountPrefix ++ str "/group/"

def groupKey (id : Bytes) : Key := groupsPrefix ++ id

/-- Read a record and decode it. -/
def readRecord {α : Type} (json : Codec Byte α fun _ => True) (what : String) (missing : Err)
    (key : Key) : Act α := do
  match ← (Act.get key).context ("identity: read " ++ what) with
  | none => throw missing
  | some blob =>
    match json.unmarshal blob with
    | none => throw (.wrap ("identity: unmarshal " ++ what) .outside)
    | some a => return a

def readEntity (id : String) : Act Entity :=
  readRecord E.entityJson "entity" (.identity .entityNotFound) (entityKey id)

def readAlias (id : Bytes) : Act Alias :=
  readRecord E.aliasJson "alias" (.identity .aliasNotFound) (aliasKey id)

def readGroup (id : Bytes) : Act Group :=
  readRecord E.groupJson "group" (.identity .groupNotFound) (groupKey id)

def listGroups : Act (List Key) := (Act.list groupsPrefix).context "identity: list groups"

/-! ### The entity of a login -/

def genID : Act String := do
  let b ← (Act.randRead 16).context "identity: generate id"
  return text (hexEncode b.val)

def putEntity (entity : Entity) : Act Unit := do
  (Act.put (entityKey entity.id) (E.entityJson.marshal entity)).context "identity: persist entity"
  (Act.put (entityNameKey entity.name) (str entity.id)).context "identity: persist entity name index"

def createEntity (name : String) (policies : List String)
    (metadata : Finmap fun _ : String => String) (disabled : Bool) : Act Entity := do
  let id ← genID
  let now ← Act.now
  let entity : Entity := ⟨id, name, policies, metadata, disabled, now⟩
  E.putEntity entity
  return entity

/-- Store the record of an alias; its index is left as it is. -/
def saveAlias (a : Alias) : Act Unit :=
  (Act.put (aliasKey (str a.id)) (E.aliasJson.marshal a)).context "identity: persist alias"

def putAlias (entityID mountType name : String) (groups : List String) : Act Alias := do
  let id ← genID
  let now ← Act.now
  let a : Alias := ⟨id, entityID, mountType, name, groups, now⟩
  E.saveAlias a
  (Act.put (aliasIndexKey mountType name) (str id)).context "identity: persist alias index"
  return a

/-- The entity of a login.  The groups it asserts replace those of the login before. -/
def resolveAlias (mountType name : String) (groups : List String) : Act String := do
  match ← (Act.get (aliasIndexKey mountType name)).context "identity: read alias index" with
  | some id => do
      let a ← E.readAlias id
      let entity ← E.readEntity a.entityID
      if a.groups ≠ groups then E.saveAlias { a with groups }
      return entity.id
  | none =>
      if !E.autoCreate then return ""
      let entity ← E.createEntity (mountType ++ "/" ++ name) [] ∅ false
      let _ ← E.putAlias entity.id mountType name groups
      return entity.id

/-! ### Groups -/

/-- The records with the given names, without those that are gone. -/
def readAll {α : Type} (read : Bytes → Act α) (missing : Err) : List Bytes → Act (List α)
  | [] => return []
  | id :: ids => do
      let record ← Act.optional (read id) missing
      let rest ← readAll read missing ids
      return record.toList ++ rest

/-- A mount and a group, joined by a zero byte. -/
def assertedKey (mountType groupName : String) : String := mountType ++ "\x00" ++ groupName

/-- The keys of the groups that the logins of an entity carry. -/
def assertedGroups (entityID : String) : Act (List String) := do
  let ids ← (Act.list aliasesPrefix).context "identity: list aliases"
  let aliases ← readAll E.readAlias (.identity .aliasNotFound) ids
  return (aliases.filter (·.entityID = entityID)).flatMap fun a =>
    a.groups.map (assertedKey a.mountType)

/-- Direct membership. -/
def isMember (entityID : String) (asserted : List String) (g : Group) : Bool :=
  match g.type with
  | .external => asserted.contains (assertedKey g.mountType g.groupName)
  | .internal => g.memberEntityIDs.contains entityID

/-- One pass over the groups: those with an applicable child become applicable at once. -/
def closePass : List Group → List String → List String
  | [], applicable => applicable
  | g :: gs, applicable =>
    if applicable.contains g.id then closePass gs applicable
    else if g.memberGroupIDs.any applicable.contains then closePass gs (g.id :: applicable)
    else closePass gs applicable

/-- Passes until nothing changes; each but the last adds a group, so there are few. -/
def close (groups : List Group) : Nat → List String → List String
  | 0, applicable => applicable
  | fuel + 1, applicable =>
    let next := closePass groups applicable
    if next = applicable then applicable else close groups fuel next

def groupPoliciesForEntity (entityID : String) : Act (List String) := do
  let ids ← listGroups
  let groups ← readAll E.readGroup (.identity .groupNotFound) ids
  let asserted ← E.assertedGroups entityID
  let seed := (groups.filter (isMember entityID asserted)).map (·.id)
  let applicable := close groups (groups.length + 1) seed
  return (groups.filter fun g => applicable.contains g.id).flatMap (·.policies)

/-! ### What an entity contributes -/

/-- An entity that is there and not disabled. -/
def activeEntity (entityID : String) : Act (Option Entity) := do
  let entity ← Act.optional (E.readEntity entityID) (.identity .entityNotFound)
  return entity.filter (!·.disabled)

/-- `PoliciesFor`. -/
def policiesFor (entityID : String) : Act (List String) := do
  if entityID = "" then return []
  match ← E.activeEntity entityID with
  | none => return []
  | some entity => do
      let groupPolicies ← E.groupPoliciesForEntity entityID
      return entity.policies ++ groupPolicies

/-- The value of a placeholder. -/
def templateValue (entity : Entity) (key : Bytes) : Option Bytes :=
  if key = str "identity.entity.id" then some (str entity.id)
  else if key = str "identity.entity.name" then some (str entity.name)
  else
    (entity.metadata.keys.inOrder.find? fun k => key = str "identity.entity.metadata." ++ str k).bind
      fun k => (entity.metadata.lookup k).map str

/-- `TemplateValues`: nothing, or a map that has at least the id and the name. -/
def templateValues (entityID : String) : Act (Option (Bytes → Option Bytes)) := do
  if entityID = "" then return none
  return (← E.activeEntity entityID).map templateValue

end IdentityEngine

end UbixVault
