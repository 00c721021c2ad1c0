/-
The token store as a state machine.

Clients create and renew tokens and an operator sets the system maximum, one call
at a time.  Each call meets an outside of its own, so what randomness, time and
storage do during one call says nothing about the next.  An event records a call
with the state before it, what it returned and the state after it.

The token store has no lock.  A revocation and the calls that race with it are
threads over one store, and a schedule says whose next step is performed.
-/
import UbixVault.Lib.Interleave
import UbixVault.Lib.Run
import UbixVault.Token

namespace UbixVault

/-- The calls that make tokens or change them. -/
inductive TokenCall
  | createRoot
  | create (policies : List String)
  | createWithTTL (policies : List String) (ttl : Time)
  | createWithAlias (policies : List String) (mountType name : String) (groups : List String)
  | createWithTTLAndAlias (policies : List String) (ttl : Time) (mountType name : String)
      (groups : List String)
  | createForLogin (policies : List String) (ttl maxTTL : Time) (mountType name : String)
      (groups : List String)
  | createChild (parent : Token) (policies : List String) (ttl : Time)
  | renew (id : Bytes) (ttl : Time)
  | lookup (id : Bytes)
  | setMaxTTL (d : Time)

namespace TokenCall

/-- What a call does to the outside; only `setMaxTTL` returns no token. -/
def perform (st : TokenStore) (aliaser : Option Aliaser) : TokenCall → Act (Option Token)
  | createRoot => some <$> st.createRoot
  | create policies => some <$> st.create policies
  | createWithTTL policies ttl => some <$> st.createWithTTL policies ttl
  | createWithAlias policies mountType name groups =>
    some <$> st.createWithAlias aliaser policies mountType name groups
  | createWithTTLAndAlias policies ttl mountType name groups =>
    some <$> st.createWithTTLAndAlias aliaser policies ttl mountType name groups
  | createForLogin policies ttl maxTTL mountType name groups =>
    some <$> st.createForLogin aliaser policies ttl maxTTL mountType name groups
  | createChild parent policies ttl => some <$> st.createChild parent policies ttl
  | renew id ttl => some <$> st.renew id ttl
  | lookup id => some <$> st.lookup id
  | setMaxTTL _ => pure none

/-- What a call does to the settings of the store. -/
def configure (st : TokenStore) : TokenCall → TokenStore
  | setMaxTTL d => st.setMaxTTL d
  | _ => st

end TokenCall

/-- A call and the outside it meets. -/
structure TokenAction where
  env : Env
  call : TokenCall

structure TokenState where
  tokens : TokenStore
  world : World

structure TokenEvent where
  before : TokenState
  action : TokenAction
  result : Except Err (Option Token)
  after : TokenState

namespace TokenState

variable (aliaser : Option Aliaser)

def step (s : TokenState) (a : TokenAction) : TokenEvent :=
  let (result, world) := (a.call.perform s.tokens aliaser).exec a.env s.world
  { before := s, action := a, result, after := ⟨a.call.configure s.tokens, world⟩ }

/-- The state after a sequence of calls. -/
def after (s : TokenState) (actions : List TokenAction) : TokenState :=
  Run.final (step aliaser) TokenEvent.after s actions

/-- The events of a sequence of calls. -/
def events (s : TokenState) (actions : List TokenAction) : List TokenEvent :=
  Run.history (step aliaser) TokenEvent.after s actions

end TokenState

namespace TokenEvent

/-- The call made `t` a child of `parent`. -/
def Bore (e : TokenEvent) (parent t : Token) : Prop :=
  (∃ policies ttl, e.action.call = .createChild parent policies ttl) ∧ e.result = .ok (some t)

/-- The call was a login with the role maximum `maxTTL`. -/
def Login (e : TokenEvent) (maxTTL : Time) : Prop :=
  ∃ policies ttl mountType name groups,
    e.action.call = .createForLogin policies ttl maxTTL mountType name groups

end TokenEvent

/-! ### A race with a revocation -/

/-- The calls that may race with a revocation. -/
inductive RaceCall
  | renew (id : Bytes) (ttl : Time)
  | createChild (parent : Token) (policies : List String) (ttl : Time)

def RaceCall.perform (st : TokenStore) : RaceCall → Act Token
  | renew id ttl => st.renew id ttl
  | createChild parent policies ttl => st.createChild parent policies ttl

/-- The callback of a revocation, if it has one. -/
def callbackIf (cleans : Bool) : Option (Bytes → Act Unit) :=
  if cleans then some Act.cleanup else none

/-- Everything that is done to a token store, one operation at a time. -/
inductive TokenOperation
  | call (a : TokenAction)
  | revoke (env : Env) (id : Bytes) (cleans : Bool)
  | sweep (env : Env) (limit : Int)

/-- The state after an operation that has completed. -/
def TokenState.operate (aliaser : Option Aliaser) (s : TokenState) : TokenOperation → TokenState
  | .call a => (s.step aliaser a).after
  | .revoke env id cleans =>
    ⟨s.tokens, ((s.tokens.revokeAll id (callbackIf cleans)).run env.answer s.world).2⟩
  | .sweep env limit => ⟨s.tokens, ((s.tokens.sweepExpired limit (callbackIf true)).run env.answer s.world).2⟩

/-- One thread revokes `id`, the others perform their calls. -/
def race {ι : Type} (st : TokenStore) (id : Bytes) (cleans : Bool) (calls : ι → RaceCall) :
    Option ι → Prog Unit
  | none => do
      let _ ← st.revokeAll id (callbackIf cleans)
      return ()
  | some i => do
      let _ ← ((calls i).perform st).run
      return ()

/-- The threads over a store, before any has done a step, with an empty journal. -/
def racing {ι : Type} (st : TokenStore) (id : Bytes) (cleans : Bool) (calls : ι → RaceCall)
    (w : World) : Program.Pool Call Reply Unit (Option ι) (World × List Call) :=
  ⟨race st id cleans calls, (w, [])⟩

end UbixVault
