/-
What the key/value engine is for: a map of secrets with versions.

A secret is the list of the versions written since it was created, and the last of
them, up to a maximum, are there to be read.  A version is marked as deleted or
destroyed, and loses only the first mark again.  Every path has its own list, so a
call on one has no bearing on another.
-/
import UbixVault.Kv

namespace UbixVault.Kv

/-- A version that was written. -/
structure Version (δ : Type) where
  data : δ
  createdTime : Time
  deleted : Bool
  destroyed : Bool

namespace Version

variable {δ : Type} (x : Version δ)

/-- What is told about the version `v`. -/
def info (v : Int) : VersionMeta := ⟨v, x.createdTime, x.deleted, x.destroyed⟩

def delete : Version δ := if x.destroyed then x else { x with deleted := true }

def undelete : Version δ := if x.destroyed then x else { x with deleted := false }

def destroy : Version δ := { x with destroyed := true }

end Version

/-- The versions of a secret, oldest first: number `v` stands at place `v - 1`. -/
abbrev History (δ : Type) : Type := List (Version δ)

namespace History

variable {δ : Type} (max : Int) (h : History δ)

/-- The number is that of one of the last `max` versions. -/
def Retains (v : Int) : Prop := 1 ≤ v ∧ v ≤ h.length ∧ h.length < v + max

instance (v : Int) : Decidable (Retains max h v) := inferInstanceAs (Decidable (_ ∧ _ ∧ _))

/-- The version of that number, if it is retained. -/
def version (v : Int) : Option (Version δ) := if Retains max h v then h[(v - 1).toNat]? else none

def oldest : Int := Max.max 1 (h.length - max + 1)

/-- Change the version of that number, if it is retained. -/
def change (f : Version δ → Version δ) (v : Int) : History δ :=
  if Retains max h v then h.modify (v - 1).toNat f else h

def changeAll (f : Version δ → Version δ) (versions : List Int) : History δ :=
  (if versions = [] then [(h.length : Int)] else versions).foldl (change max · f ·) h

/-- What a read returns, with `0` for the latest version. -/
def read (version : Int) : Response δ :=
  let v := if version = 0 then (h.length : Int) else version
  match History.version max h v with
  | none => .read (.error (.kv .versionNotFound)) none
  | some x =>
    if x.destroyed then .read (.error (.kv .versionDestroyed)) (some (x.info v))
    else if x.deleted then .read (.error (.kv .versionDeleted)) (some (x.info v))
    else .read (.ok x.data) (some (x.info v))

end History

section Requests

variable {δ : Type} (max : Int) (encodes : δ → Bool)

/-- Change versions of a secret, if there is one. -/
def changeSecret (o : Option (History δ)) (f : Version δ → Version δ) (versions : List Int) :
    Response δ × Option (History δ) :=
  match o with
  | none => (.done (.error (.kv .secretNotFound)), none)
  | some h => (.done (.ok ()), some (h.changeAll max f versions))

/-- What a call at the time `t` returns for the secret of its path, and makes of it. -/
def Request.apply (t : Time) (o : Option (History δ)) : Request δ → Response δ × Option (History δ)
  | .write _ data =>
    let h := o.getD []
    if encodes data then
      (.wrote (.ok ⟨h.length + 1, t, false, false⟩), some (h ++ [⟨data, t, false, false⟩]))
    else (.wrote (.error (.wrap "kv: marshal data" .outside)), o)
  | .read _ version =>
    match o with
    | none => (.read (.error (.kv .secretNotFound)) none, none)
    | some h => (h.read max version, some h)
  | .delete _ versions => changeSecret max o Version.delete versions
  | .undelete _ versions => changeSecret max o Version.undelete versions
  | .destroy _ versions => changeSecret max o Version.destroy versions
  | .deleteMetadata _ => (.done (.ok ()), none)

/-- A secret for every path that has one. -/
abbrev Vault (δ : Type) : Type := Bytes → Option (History δ)

namespace Vault

/-- One call, at the time `t`. -/
def step (V : Vault δ) (t : Time) (r : Request δ) : Response δ × Vault δ :=
  let (response, o) := r.apply max encodes t (V r.path)
  (response, Function.update V r.path o)

/-- Calls one after another, each at its time. -/
def run (V : Vault δ) : List (Request δ × Time) → List (Response δ) × Vault δ
  | [] => ([], V)
  | (r, t) :: rest =>
    let (response, V') := V.step max encodes t r
    let (responses, V'') := run V' rest
    (response :: responses, V'')

end Vault

end Requests

end UbixVault.Kv
