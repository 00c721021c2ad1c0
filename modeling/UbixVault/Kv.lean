/-
The versioned key/value engine, as package `kv` computes it.

A secret is a metadata record, which tells its versions apart, and one data record
for each version.  The engine is written over the plain storage interface and takes
no lock: a call reads the metadata, changes what it read and writes it back.

JSON is a parameter that reads back what it wrote.
-/
import UbixVault.Lib.Crypto
import UbixVault.Outside

namespace UbixVault.Kv

structure VersionMeta where
  version : Int
  createdTime : Time
  deleted : Bool
  destroyed : Bool
  deriving DecidableEq

/-- The version history of a secret. -/
structure Metadata where
  /-- Zero if nothing was written yet. -/
  currentVersion : Int
  oldestVersion : Int
  maxVersions : Int
  createdTime : Time
  updatedTime : Time
  versions : Finmap fun _ : Int => VersionMeta

namespace Metadata

/-- A version is added, as the current one. -/
def add (m : Metadata) (vm : VersionMeta) : Metadata where
  currentVersion := vm.version
  oldestVersion := if m.oldestVersion = 0 then vm.version else m.oldestVersion
  maxVersions := m.maxVersions
  createdTime := if m.createdTime = 0 then vm.createdTime else m.createdTime
  updatedTime := vm.createdTime
  versions := m.versions.insert vm.version vm

/-- The oldest version is dropped. -/
def ageOut (m : Metadata) : Metadata :=
  { m with versions := m.versions.erase m.oldestVersion, oldestVersion := m.oldestVersion + 1 }

/-- The versions a call is about: those it names, or the current one. -/
def targets (m : Metadata) (versions : List Int) : List Int :=
  if versions = [] then [m.currentVersion] else versions

/-- Change one version, if there is one of that number. -/
def change (m : Metadata) (f : VersionMeta → VersionMeta) (v : Int) : Metadata :=
  match m.versions.lookup v with
  | none => m
  | some vm => { m with versions := m.versions.insert v (f vm) }

end Metadata

/-- The encoding of secrets: what was encoded is read back, and some data cannot be encoded. -/
structure DataJson (δ : Type) where
  marshal : δ → Option Bytes
  unmarshal : Bytes → Option δ
  unmarshal_marshal : ∀ data blob, marshal data = some blob → unmarshal blob = some data

/-- Secrets that are bytes can be kept as they are. -/
theorem DataJson.read_back : ∀ data blob : Bytes, some data = some blob → some blob = some data :=
  fun _ _ => Eq.symm

def defaultMaxVersions : Int := 10

/-- An engine for secrets `δ`, below a prefix. -/
structure Engine (δ : Type) where
  metaJson : Codec Byte Metadata fun _ => True
  dataJson : DataJson δ
  pfx : Bytes
  maxVer : Int

namespace Engine

variable {δ : Type} (e : Engine δ)

def metaKey (path : Bytes) : Key := e.pfx ++ str "/meta/" ++ path

def dataKey (path : Bytes) (version : Int) : Key :=
  e.pfx ++ str "/data/" ++ path ++ str "/" ++ itoa version

def validatePath (path : Bytes) : Act Unit :=
  if path = [] then throw (.kv .invalidPath)
  else if validKey (e.metaKey path) then pure ()
  else throw (.kv .invalidPath)

/-! ### Metadata records -/

def readExistingMeta (path : Bytes) : Act Metadata := do
  match ← (Act.get (e.metaKey path)).context "kv: read metadata" with
  | none => throw (.kv .secretNotFound)
  | some blob =>
    match e.metaJson.unmarshal blob with
    | none => throw (.wrap "kv: unmarshal metadata" .outside)
    | some m => return if m.maxVersions = 0 then { m with maxVersions := e.maxVer } else m

/-- The metadata of a secret that does not exist yet. -/
def fresh : Metadata := ⟨0, 0, e.maxVer, 0, 0, ∅⟩

def loadMeta (path : Bytes) : Act Metadata := do
  match ← (e.readExistingMeta path).optional (.kv .secretNotFound) with
  | none => return e.fresh
  | some m => return m

def saveMeta (path : Bytes) (m : Metadata) : Act Unit :=
  (Act.put (e.metaKey path) (e.metaJson.marshal m)).context "kv: save metadata"

/-! ### Writing and reading -/

/-- Delete the data of the oldest versions until no more than the maximum are left. -/
def enforceMaxVersions (path : Bytes) (m : Metadata) : Act Metadata :=
  if _h : m.currentVersion - m.oldestVersion + 1 > m.maxVersions then do
    (Act.delete (e.dataKey path m.oldestVersion)).context
      s!"kv: age out version {m.oldestVersion}"
    enforceMaxVersions path m.ageOut
  else pure m
termination_by (m.currentVersion - m.oldestVersion + 1 - m.maxVersions).toNat
decreasing_by
  simp only [Metadata.ageOut]
  omega

def write (path : Bytes) (data : δ) : Act VersionMeta := do
  e.validatePath path
  let m ← e.loadMeta path
  let now ← Act.now
  let version := m.currentVersion + 1
  match e.dataJson.marshal data with
  | none => throw (.wrap "kv: marshal data" .outside)
  | some blob => do
      (Act.put (e.dataKey path version) blob).context "kv: store version"
      let vm : VersionMeta := ⟨version, now, false, false⟩
      let m' ← e.enforceMaxVersions path (m.add vm)
      e.saveMeta path m'
      return vm

/-- The data of a version, whose metadata may come with an error too; `0` means the latest. -/
def read (path : Bytes) (version : Int) : Prog (Except Err δ × Option VersionMeta) := do
  match ← (do e.validatePath path; e.readExistingMeta path : Act Metadata).run with
  | .error err => return (.error err, none)
  | .ok m => do
      let version := if version = 0 then m.currentVersion else version
      match m.versions.lookup version with
      | none => return (.error (.kv .versionNotFound), none)
      | some vm =>
        if vm.destroyed then return (.error (.kv .versionDestroyed), some vm)
        else if vm.deleted then return (.error (.kv .versionDeleted), some vm)
        else
          match ← ((Act.get (e.dataKey path version)).context "kv: read version").run with
          | .error err => return (.error err, none)
          | .ok none => return (.error (.kv .versionNotFound), some vm)
          | .ok (some blob) =>
            match e.dataJson.unmarshal blob with
            | none => return (.error (.wrap "kv: unmarshal data" .outside), none)
            | some data => return (.ok data, some vm)

/-! ### Deleting -/

/-- Change the versions a call is about, and save. -/
def mutateVersions (path : Bytes) (versions : List Int) (f : VersionMeta → VersionMeta) :
    Act Unit := do
  e.validatePath path
  let m ← e.readExistingMeta path
  let m' := (m.targets versions).foldl (·.change f ·) m
  let now ← Act.now
  e.saveMeta path { m' with updatedTime := now }

/-- `Delete` marks versions, and their data stays. -/
def delete (path : Bytes) (versions : List Int) : Act Unit :=
  e.mutateVersions path versions fun vm => if vm.destroyed then vm else { vm with deleted := true }

def undelete (path : Bytes) (versions : List Int) : Act Unit :=
  e.mutateVersions path versions fun vm => if vm.destroyed then vm else { vm with deleted := false }

def destroyVersions (path : Bytes) : List Int → Metadata → Act Metadata
  | [], m => pure m
  | v :: rest, m =>
    match m.versions.lookup v with
    | none => destroyVersions path rest m
    | some vm => do
        (Act.delete (e.dataKey path v)).context s!"kv: destroy version {v}"
        destroyVersions path rest
          { m with versions := m.versions.insert v { vm with destroyed := true } }

/-- `Destroy` deletes the data of versions. -/
def destroy (path : Bytes) (versions : List Int) : Act Unit := do
  e.validatePath path
  let m ← e.readExistingMeta path
  let m' ← e.destroyVersions path (m.targets versions) m
  let now ← Act.now
  e.saveMeta path { m' with updatedTime := now }

def readMetadata (path : Bytes) : Act Metadata := do
  e.validatePath path
  e.readExistingMeta path

def deleteVersions (path : Bytes) : List Int → Act Unit
  | [] => pure ()
  | v :: rest => do
      (Act.delete (e.dataKey path v)).context s!"kv: delete version {v}"
      deleteVersions path rest

/-- `DeleteMetadata`; the source goes over the versions in no particular order. -/
def deleteMetadata (path : Bytes) : Act Unit := do
  e.validatePath path
  match ← (e.readExistingMeta path).optional (.kv .secretNotFound) with
  | none => pure ()
  | some m => do
      e.deleteVersions path m.versions.keys.inOrder
      Act.delete (e.metaKey path)

end Engine

/-! ### Calls -/

/-- A call of the engine. -/
inductive Request (δ : Type)
  | write (path : Bytes) (data : δ)
  | read (path : Bytes) (version : Int)
  | delete (path : Bytes) (versions : List Int)
  | undelete (path : Bytes) (versions : List Int)
  | destroy (path : Bytes) (versions : List Int)
  | deleteMetadata (path : Bytes)

def Request.path {δ : Type} : Request δ → Bytes
  | write path _ => path
  | read path _ => path
  | delete path _ => path
  | undelete path _ => path
  | destroy path _ => path
  | deleteMetadata path => path

/-- What a call returns. -/
inductive Response (δ : Type)
  | wrote (r : Except Err VersionMeta)
  | read (r : Except Err δ) (vm : Option VersionMeta)
  | done (r : Except Err Unit)
  deriving DecidableEq

def Engine.call {δ : Type} (e : Engine δ) : Request δ → Prog (Response δ)
  | .write path data => do return .wrote (← (e.write path data).run)
  | .read path version => do
      let (r, vm) ← e.read path version
      return .read r vm
  | .delete path versions => do return .done (← (e.delete path versions).run)
  | .undelete path versions => do return .done (← (e.undelete path versions).run)
  | .destroy path versions => do return .done (← (e.destroy path versions).run)
  | .deleteMetadata path => do return .done (← (e.deleteMetadata path).run)

end UbixVault.Kv
