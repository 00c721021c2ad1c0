/-
Policy documents and the policy store.

A document is JSON or HCL.  Whatever it was, a policy is stored as JSON, through a
map from paths to capabilities, and read back from that.

JSON and sorting are parameters.  The decoder delivers valid text only, and the
encoder keeps it.  Sorting by path leaves rules with equal paths in no fixed order.
-/
import UbixVault.Hcl
import UbixVault.Lib.Crypto
import UbixVault.Outside

namespace UbixVault

/-! ### Documents -/

/-- The wire form: the capabilities of each path, as texts. -/
abbrev Document : Type := Finmap fun _ : Bytes => List Bytes

/-- Every text is valid UTF-8. -/
def Document.WF (d : Document) : Prop :=
  ∀ path caps, d.lookup path = some caps →
    validUTF8 path = true ∧ ∀ c ∈ caps, validUTF8 c = true

/-- The paths of a document, in some order. -/
def Document.paths (d : Document) : List Bytes := d.keys.inOrder

/-- `encoding/json` on documents. -/
structure DocumentJson extends Codec Byte Document Document.WF where
  wf_of_unmarshal : ∀ data d, unmarshal data = some d → d.WF
  /-- What the decoder says about data it refuses. -/
  complaint : Bytes → Bytes

/-- `sort.Slice` on rules, by their paths. -/
structure SortRules where
  sort : List Rule → List Rule
  perm : ∀ rules, (sort rules).Perm rules
  sorted : ∀ rules, (sort rules).Pairwise fun r r' => r.path ≤ r'.path

/-- `Policy.Document`: of two rules with one path, the later one stays. -/
def Policy.document (p : Policy) : Document :=
  p.rules.foldl (fun d r => d.insert r.path (r.capabilities.map Capability.text)) ∅

/-- What the policy store works with. -/
structure PolicyStore where
  json : DocumentJson
  sorter : SortRules
  unicode : Unicode

namespace PolicyStore

def storePrefix : Key := str "sys/policy/"

/-- `validName`: one segment that is safe in a key. -/
def validName (name : Bytes) : Bool :=
  name != [] && !containsText [slash] name && validKey (storePrefix ++ name)

def key (name : Bytes) : Key := storePrefix ++ name

variable (S : PolicyStore)

def readCapability (c : Bytes) : Except Err Capability :=
  match Capability.ofText c with
  | some capability => .ok capability
  | none => .error (.explain (.policy .unknownCapability) (quote c))

/-- One entry of a JSON document. -/
def ruleOf (doc : Document) (path : Bytes) : Except Err Rule := do
  let capabilities ← ((doc.lookup path).getD []).mapM readCapability
  return { path, capabilities }

/--
`Parse`.  The source ranges over the map in no fixed order.  Since paths are distinct
and rules are sorted, that order shows only in which of several errors is returned.
-/
def parse (name data : Bytes) : Except Err Policy :=
  match S.json.unmarshal data with
  | none => .error (.explain (.policy .malformedPolicy) (S.json.complaint data))
  | some doc => do
      let rules ← doc.paths.mapM (ruleOf doc)
      return { name, rules := S.sorter.sort rules }

/-- `ParseHCL`. -/
def parseHCL (name data : Bytes) : Except Err Policy :=
  match Hcl.lexHCL S.unicode (runes data) with
  | .error why => .error (Hcl.malformed why)
  | .ok toks => do
      let rules ← Hcl.pathBlocks toks
      return { name, rules := S.sorter.sort rules }

/-- `ParseDocument`: an opening brace makes it JSON. -/
def parseDocument (name data : Bytes) : Except Err Policy :=
  if (bytesTrimLeadingSpace data).head? = some 0x7b then S.parse name data
  else S.parseHCL name data

/-! ### The store -/

/-- `Store.Set`. -/
def set (p : Policy) : Act Unit := do
  if !validName p.name then throw (.policy .invalidName)
  (Act.put (key p.name) (S.json.marshal p.document)).context "policy: persist"

/-- `Store.Get`. -/
def get (name : Bytes) : Act Policy := do
  if !validName name then throw (.policy .invalidName)
  match ← (Act.get (key name)).context "policy: read" with
  | none => throw (.policy .policyNotFound)
  | some data => Act.ofExcept (S.parse name data)

end PolicyStore

end UbixVault
