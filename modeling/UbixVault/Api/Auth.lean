/-
Authorization of requests, and the endpoint that creates tokens.

The rules that count for a token are those of its own policies and of the policies
its entity contributes, with the placeholders in their paths replaced by values of
the entity.  How a policy is looked up is a parameter of that computation; the
handler looks it up in the policy store.
-/
import UbixVault.Api.Sys
import UbixVault.Identity
import UbixVault.Policy

namespace UbixVault

/-- The part of the HTTP handler that authorization and token creation use. -/
structure Auth where
  identity : Option IdentityEngine
  policies : PolicyStore
  tokens : TokenStore

inductive Method
  | get | list | delete | post | put | other
  deriving DecidableEq, Repr

structure TokenCreateRequest where
  policies : List String
  /-- Nothing if left empty; else what `time.ParseDuration` makes of it. -/
  ttl : Option (Option Time)
  numUses : Int
  type : Bytes
  entityAlias : Bytes

namespace Auth

variable (h : Auth)

/-! ### The rules of a token -/

/-- A value for each placeholder that has one. -/
abbrev Resolver : Type := Bytes → Option Bytes

/-- Without values, placeholders are not looked for. -/
def expand (resolve : Option Resolver) (p : Policy) : Policy :=
  match resolve with
  | some f => p.templated f
  | none => p

/-- The policies and the values that the entity of a token contributes. -/
def contributed (tok : Token) : Act (List String × Option Resolver) :=
  match h.identity with
  | none => return ([], none)
  | some engine =>
    if tok.entityID = "" then return ([], none)
    else do
      let entityPolicies ← engine.policiesFor tok.entityID
      let vals ← engine.templateValues tok.entityID
      return (entityPolicies, vals)

/-- The policies with the given names; one that is missing grants nothing. -/
def load (lookup : Bytes → Act Policy) (resolve : Option Resolver) : List String → Act (List Policy)
  | [] => return []
  | name :: names => do
      let p ← Act.optional (lookup (str name)) (.policy .policyNotFound)
      let rest ← load lookup resolve names
      return (p.map (expand resolve)).toList ++ rest

/-- `aclFor`, with a way to look up policies. -/
def aclWith (lookup : Bytes → Act Policy) (tok : Token) : Act Acl := do
  let (entityPolicies, resolve) ← h.contributed tok
  let policies ← load lookup resolve (tok.policies ++ entityPolicies)
  return Acl.ofPolicies policies

def aclFor (tok : Token) : Act Acl := h.aclWith h.policies.get tok

/-! ### Decisions -/

def cubbyholeMountPrefix : Bytes := str "cubbyhole"

/-- What every token may call on itself. -/
def selfTokenPaths : List Bytes :=
  [str "auth/token/lookup-self", str "auth/token/renew-self", str "auth/token/revoke-self"]

/-- Paths for which no rule is needed. -/
def openTo (path : Bytes) : Bool :=
  path = cubbyholeMountPrefix ∨ (cubbyholeMountPrefix ++ [slash]).isPrefixOf path ∨
    selfTokenPaths.contains path

/-- What the rules say about a method. -/
def permits (acl : Acl) (method : Method) (path : Bytes) : Bool :=
  match method with
  | .get => acl.allows path .read
  | .list => acl.allows path .list
  | .delete => acl.allows path .delete
  | .post | .put => acl.allows path .create || acl.allows path .update
  | .other => false

def authorize (tok : Token) (method : Method) (path : Bytes) : Act Bool := do
  if tok.isRoot then return true
  if openTo path then return true
  let acl ← h.aclFor tok
  return permits acl method path

def hasSudo (tok : Token) (path : Bytes) : Act Bool := do
  if tok.isRoot then return true
  let acl ← h.aclFor tok
  return acl.allows path .«sudo»

/-! ### Creating tokens -/

/-- The entries of `want` that are absent from `have`, in order and without repetition. -/
def notIn (want held : List String) : List String :=
  (want.foldl (fun missing p => if !held.contains p && !missing.contains p then missing ++ [p]
    else missing) [])

/-- `strings.Join(missing, ", ")`. -/
def joined (names : List String) : Bytes := (names.map str).intersperse (str ", ") |>.flatten

/-- The lifetime that is asked for; zero stands for the default. -/
def requestedTTL : Option (Option Time) → Option Time
  | none => some 0
  | some none => none
  | some (some d) => if d ≤ 0 then none else some d

/-- `tokenCreate` up to its response: the token that was issued, or why there is none. -/
def tokenCreate (parent : Token) (req : TokenCreateRequest) : Act (Except Response Token) := do
  if req.numUses ≠ 0 then
    return .error (Api.writeError Api.statusBadRequest
      (str "num_uses is not supported; tokens are unlimited-use"))
  if req.type ≠ [] ∧ req.type ≠ str "service" then
    return .error (Api.writeError Api.statusBadRequest (str "only service tokens are supported"))
  if req.entityAlias ≠ [] then
    return .error (Api.writeError Api.statusBadRequest (str "entity_alias is not supported"))
  match requestedTTL req.ttl with
  | none =>
    return .error (Api.writeError Api.statusBadRequest
      (str "ttl must be a positive duration (e.g. \"1h\")"))
  | some ttl =>
    let isSudo ← h.hasSudo parent (str "auth/token/create")
    if !isSudo then
      let missing := notIn req.policies parent.policies
      if missing ≠ [] then
        return .error (Api.writeError Api.statusBadRequest
          (str "child policies must be subset of parent: not held by the calling token: " ++
            joined missing))
      return .ok (← h.tokens.createChild parent req.policies ttl)
    else if ttl > 0 then return .ok (← h.tokens.createWithTTL req.policies ttl)
    else return .ok (← h.tokens.create req.policies)

end Auth

end UbixVault
