/-
The cubbyhole engine, as package `cubbyhole` computes it.

Every token has a part of the store to itself, below the hash of its value.  No access
rule is involved: a call of a token only ever names keys that begin with its scope.

`Destroy` descends as long as it finds something.  The descent is bounded here, as that of
`walk` is; a bound that is larger than every key is never reached.
-/
import UbixVault.Kv

namespace UbixVault.Cubbyhole

/-- What the engine works with, for data `δ` below a prefix. -/
structure Engine (δ : Type) where
  sha256 : Hash Byte
  json : Kv.DataJson δ
  pfx : Key
  validKey_pfx : validKey pfx = true

/-- Paths that name a leaf. -/
def validPath (path : Bytes) : Bool :=
  path != [] && path.head? != some slash && path.getLast? != some slash

/-- One turn of the loop of `deleteTree`; `descend` is the recursive call. -/
def deleteChild (descend : Key → Act Unit) (pfx c : Key) : Act Unit :=
  if c.getLast? = some slash then descend (pfx ++ c) else Act.delete (pfx ++ c)

def deleteChildren (descend : Key → Act Unit) (pfx : Key) : List Key → Act Unit
  | [] => return ()
  | c :: cs => do
      deleteChild descend pfx c
      deleteChildren descend pfx cs

/-- `deleteTree`, at most `depth` levels deep. -/
def deleteTree : (depth : Nat) → Key → Act Unit
  | 0, _ => throw .outside
  | depth + 1, pfx => do
      let children ← Act.list pfx
      deleteChildren (deleteTree depth) pfx children

namespace Engine

variable {δ : Type} (e : Engine δ)

def tokenScope (tokenID : Bytes) : Key :=
  e.pfx ++ str "/" ++ hexEncode (e.sha256.sum tokenID) ++ str "/"

def key (tokenID path : Bytes) : Key := e.tokenScope tokenID ++ path

def write (tokenID path : Bytes) (data : δ) : Act Unit :=
  if !validPath path then throw (.cubbyhole .invalidPath)
  else
    match e.json.marshal data with
    | none => throw (.wrap "cubbyhole: marshal" .outside)
    | some blob => (Act.put (e.key tokenID path) blob).context "cubbyhole: persist"

def read (tokenID path : Bytes) : Act δ :=
  if !validPath path then throw (.cubbyhole .invalidPath)
  else do
    match ← (Act.get (e.key tokenID path)).context "cubbyhole: read" with
    | none => throw (.cubbyhole .secretNotFound)
    | some blob =>
      match e.json.unmarshal blob with
      | none => throw (.wrap "cubbyhole: unmarshal" .outside)
      | some data => return data

/-- The directory that a path names: the root, or one with a trailing slash. -/
def directory (path : Bytes) : Bytes :=
  if path ≠ [] ∧ (path.head? = some slash ∨ path.getLast? ≠ some slash) then path ++ str "/" else path

def list (tokenID path : Bytes) : Act (List Key) :=
  (Act.list (e.tokenScope tokenID ++ directory path)).context "cubbyhole: list"

def delete (tokenID path : Bytes) : Act Unit :=
  if !validPath path then throw (.cubbyhole .invalidPath)
  else (Act.delete (e.key tokenID path)).context "cubbyhole: delete"

def destroy (depth : Nat) (tokenID : Bytes) : Act Unit :=
  (deleteTree depth (e.tokenScope tokenID)).context "cubbyhole: destroy"

end Engine

/-! ### Calls -/

inductive Operation (δ : Type)
  | write (path : Bytes) (data : δ)
  | read (path : Bytes)
  | list (path : Bytes)
  | delete (path : Bytes)
  | destroy

/-- A call, and the token it is made with. -/
structure Request (δ : Type) where
  tokenID : Bytes
  operation : Operation δ

inductive Response (δ : Type)
  | read (r : Except Err δ)
  | listed (r : Except Err (List Key))
  | done (r : Except Err Unit)

def Engine.call {δ : Type} (e : Engine δ) (depth : Nat) (r : Request δ) : Prog (Response δ) :=
  match r.operation with
  | .write path data => do return .done (← (e.write r.tokenID path data).run)
  | .read path => do return .read (← (e.read r.tokenID path).run)
  | .list path => do return .listed (← (e.list r.tokenID path).run)
  | .delete path => do return .done (← (e.delete r.tokenID path).run)
  | .destroy => do return .done (← (e.destroy depth r.tokenID).run)

/-- Calls one after another; each answer stands with the token it was given to. -/
def Engine.run {δ : Type} (e : Engine δ) (env : Env) (depth : Nat) :
    List (Request δ) → World → List (Bytes × Response δ) × World
  | [], w => ([], w)
  | r :: rest, w =>
    let (response, w') := (e.call depth r).run env.answer w
    let (responses, w'') := run e env depth rest w'
    ((r.tokenID, response) :: responses, w'')

end UbixVault.Cubbyhole
