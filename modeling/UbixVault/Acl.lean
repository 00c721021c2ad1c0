/-
Rules, placeholders in their paths, and what a list of rules allows.

A rule grants capabilities on a path pattern.  A pattern ending in a star matches
by its beginning, any other only itself.  Access is refused unless a rule grants
it, and a deny on any matching rule outweighs every grant.
-/
import UbixVault.Text

namespace UbixVault

/-! ### Rules -/

inductive Capability
  | create | read | update | delete | list | «sudo» | deny
  deriving DecidableEq, Repr

namespace Capability

def text : Capability → Bytes
  | create => str "create"
  | read => str "read"
  | update => str "update"
  | delete => str "delete"
  | list => str "list"
  | «sudo» => str "sudo"
  | deny => str "deny"

/-- The keys of `validCapabilities`. -/
def valid : List Capability := [create, read, update, delete, list, «sudo», deny]

/-- The capability with this text, if it is a valid one. -/
def ofText (s : Bytes) : Option Capability := valid.find? (·.text = s)

end Capability

structure Rule where
  path : Bytes
  capabilities : List Capability
  deriving DecidableEq, Repr

structure Policy where
  name : Bytes
  rules : List Rule
  deriving DecidableEq, Repr

/-! ### Placeholders -/

def openBraces : Bytes := [0x7b, 0x7b]

def closeBraces : Bytes := [0x7d, 0x7d]

def containsTemplate (s : Bytes) : Bool := containsText openBraces s

theorem index_bound {sep s : Bytes} {i : Nat} (h : index sep s = some i) :
    i + sep.length ≤ s.length := by
  induction s generalizing i with
  | nil =>
    simp only [index] at h
    by_cases hsep : sep = []
    · simp only [hsep, if_true, Option.some.injEq] at h
      simp [hsep, ← h]
    · simp [hsep] at h
  | cons b rest ih =>
    simp only [index] at h
    by_cases hpfx : sep <+: b :: rest
    · simp only [hpfx, if_true, Option.some.injEq] at h
      rw [← h, Nat.zero_add]
      exact hpfx.length_le
    · simp only [hpfx, if_false, Option.map_eq_some_iff] at h
      obtain ⟨j, hj, rfl⟩ := h
      have hle := ih hj
      simp only [List.length_cons]
      omega

/-- `expandTemplate`: nothing, if a placeholder does not resolve. -/
def expandTemplate (resolve : Bytes → Option Bytes) (s : Bytes) : Option Bytes :=
  match hopen : index openBraces s with
  | none => some s
  | some i =>
    let rest := s.drop (i + 2)
    match index closeBraces rest with
    -- No closing braces; the remainder is left as it is.
    | none => some s
    | some j =>
      match resolve (trimSpace (rest.take j)) with
      | none => none
      | some val => (expandTemplate resolve (rest.drop (j + 2))).map (s.take i ++ val ++ ·)
termination_by s.length
decreasing_by
  have hle : i + 2 ≤ s.length := index_bound hopen
  simp only [List.length_drop]
  omega

/-- What becomes of one rule. -/
def Rule.templated (resolve : Bytes → Option Bytes) (r : Rule) : Option Rule :=
  if containsTemplate r.path then
    (expandTemplate resolve r.path).map fun path => { path, capabilities := r.capabilities }
  else some r

/-- `Templated`: rules whose placeholders do not all resolve are dropped. -/
def Policy.templated (resolve : Bytes → Option Bytes) (p : Policy) : Policy :=
  if p.rules.any (containsTemplate ·.path) then
    { p with rules := p.rules.filterMap (Rule.templated resolve) }
  else p

/-! ### Evaluation -/

def star : Byte := 0x2a

def matchPath (pattern path : Bytes) : Bool :=
  if pattern.getLast? = some star then pattern.dropLast.isPrefixOf path else pattern = path

def hasCapability (caps : List Capability) (want : Capability) : Bool := caps.contains want

/-- The merged rules of the policies of a token. -/
structure Acl where
  rules : List Rule
  deriving DecidableEq, Repr

/-- `NewACL`. -/
def Acl.ofPolicies (policies : List Policy) : Acl := ⟨policies.flatMap (·.rules)⟩

/-- The loop of `Allows` over the rules that are left. -/
def allowsFrom (path : Bytes) (capability : Capability) : Bool → List Rule → Bool
  | allowed, [] => allowed
  | allowed, r :: rest =>
    if !matchPath r.path path then allowsFrom path capability allowed rest
    else if hasCapability r.capabilities .deny then false
    else if hasCapability r.capabilities capability then allowsFrom path capability true rest
    else allowsFrom path capability allowed rest

def Acl.allows (acl : Acl) (path : Bytes) (capability : Capability) : Bool :=
  allowsFrom path capability false acl.rules

end UbixVault
