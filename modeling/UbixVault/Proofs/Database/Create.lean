/-
Accounts that no lease knows of.

`GenerateCredentials` asks the plugin for accounts and then records a lease.  If one
step fails, what was created before it is still there: the statements commit at once,
and only a failure to record the lease makes the engine drop the user again.  `leaves`
says for every step what its failure leaves behind, and the run of the program is
followed once, for all steps together.
-/
import UbixVault.Proofs.Database.Basic

namespace UbixVault.Database

open Program

/-- The steps of `GenerateCredentials` that can fail. -/
inductive Step
  | config
  | connect
  | role
  | suffix
  | password
  | beginTx
  | statement (i : Nat)
  | commit
  | leaseID
  | lease
  deriving DecidableEq

/-- The statements that are sent. -/
def CreateUserRequest.sent (format : Time → Bytes) (req : CreateUserRequest) : List Bytes :=
  (req.creationStatements.map (Mariadb.statement format req)).filter (· ≠ [])

namespace Step

variable (failing : Step)

/-- The calls of the vault that fail if the step does. -/
def failsVault (e : Engine) (name : Bytes) : Nat → Call → Bool := fun _ call =>
  match failing, call with
  | .config, .get key => key == e.configKey
  | .role, .get key => key == e.roleKey name
  | .suffix, .randRead n => n == 4
  | .password, .randRead n => n == 24
  | .leaseID, .randRead n => n == 16
  | .lease, .put _ _ => true
  | _, _ => false

/-- The operations of the database that fail if the step does. -/
def failsServer : Site → Op → Bool := fun s op =>
  match failing, op with
  | .connect, .connect _ => true
  | .beginTx, .beginTx => true
  | .statement i, .exec _ => s.executed == i
  | .commit, .commit => true
  | _, _ => false

/-- The accounts that have been created when the step fails and that nothing drops. -/
def leaves (server : Server) (username : Bytes) (sent : List Bytes) : List Account :=
  match failing with
  | .statement i => if i < sent.length then (sent.take i).flatMap server.creates else []
  | .commit => sent.flatMap server.creates
  | .leaseID => sent.flatMap server.creates
  | .lease => (sent.flatMap server.creates).filter (·.user ≠ username)
  | _ => []

end Step

/--
What the plugin is asked for, if it comes to that: the role that is stored, and the
random values and the time of the calls after it.
-/
def Engine.request (e : Engine) (env : Env) (s : Site) (name : Bytes) : Option CreateUserRequest :=
  if s.usable e && validName name then
    ((s.vault.store.lookup (e.roleKey name)).bind e.roleJson.unmarshal).map fun role =>
      let t := s.vault.tick + if s.ready then 0 else 1
      { username := usernameFor name (env.random (t + 1) 4)
        password := base64RawURL (env.random (t + 2) 24)
        expiration := env.clock (t + 3) + role.defaultTTL
        creationStatements := role.creationStatements }
  else none

/-- A lease is recorded for the user. -/
def Site.Tracked (e : Engine) (s : Site) (user : Bytes) : Prop :=
  ∃ id l, e.leaseAt s.vault.store id = some l ∧ l.username = user

variable {env : Env} {server : Server} {failing : Step} {format : Time → Bytes} {e : Engine} {s s' : Site}

/-! ### Creating accounts -/

/-- The statements have been executed. -/
structure Created (server : Server) (stmts : List Bytes) (s s' : Site) : Prop where
  vault : s'.vault = s.vault
  connected : s'.connected = s.connected
  executed : s'.executed = s.executed + stmts.length
  accounts : ∀ a, a ∈ s'.accounts ↔ a ∈ s.accounts ∨ a ∈ stmts.flatMap server.creates

theorem Created.nil (s : Site) : Created server [] s s := ⟨rfl, rfl, rfl, by simp⟩

theorem Created.cons {stmt : Bytes} {stmts : List Bytes} {s₁ : Site}
    (h : Created server [stmt] s s₁) (h' : Created server stmts s₁ s') :
    Created server (stmt :: stmts) s s' where
  vault := h'.vault.trans h.vault
  connected := h'.connected.trans h.connected
  executed := by
    rw [h'.executed, h.executed]
    simp only [List.length_cons, List.length_nil]
    omega
  accounts a := by
    rw [h'.accounts, h.accounts, or_assoc, ← List.mem_append, ← List.flatMap_append]
    rfl

theorem exec_stmt (hfails : server.fails = failing.failsServer) (stmt : Bytes) (s : Site) :
    (failing ≠ .statement s.executed ∧ ∃ s₁, exec (server.answer env)
        ((DbAct.exec stmt).context "mariadb: create user") s = (.ok (), s₁) ∧
          Created server [stmt] s s₁) ∨
      failing = .statement s.executed ∧ ∃ err, exec (server.answer env)
        ((DbAct.exec stmt).context "mariadb: create user") s = (.error err, s) := by
  rw [exec_context]
  show (_ ∧ ∃ s₁, (Except.mapError _ (server.guarded s (.exec stmt) _).1,
      (server.guarded s (.exec stmt) _).2) = _ ∧ _) ∨
    _ ∧ ∃ err, (Except.mapError _ (server.guarded s (.exec stmt) _).1,
      (server.guarded s (.exec stmt) _).2) = _
  unfold Server.guarded
  rw [hfails]
  by_cases hstep : failing = .statement s.executed
  · refine .inr ⟨hstep, ?_⟩
    rw [if_pos (by rw [hstep]; simp [Step.failsServer])]
    exact ⟨_, rfl⟩
  · refine .inl ⟨hstep, ?_⟩
    have hnot : ¬ failing.failsServer s (.exec stmt) = true := by
      cases failing with
      | statement i => exact fun h => hstep (congrArg Step.statement (beq_iff_eq.mp h).symm)
      | _ => exact Bool.false_ne_true
    rw [if_neg hnot]
    refine ⟨_, rfl, rfl, rfl, rfl, fun a => ?_⟩
    simp only [List.mem_append, List.mem_filter, List.flatMap_singleton, decide_eq_true_eq]
    tauto

/-- The failure of a statement, if it is one of `n` that are sent from here on. -/
def Step.strikes (failing : Step) (s : Site) (n : Nat) : Prop :=
  ∃ i < n, failing = .statement (s.executed + i)

theorem execAll_cases (format : Time → Bytes) (hfails : server.fails = failing.failsServer)
    (req : CreateUserRequest)
    (stmts : List Bytes) (s : Site) :
    (¬ failing.strikes s ((stmts.map (Mariadb.statement format req)).filter (· ≠ [])).length ∧
        ∃ s₁, exec (server.answer env) (Mariadb.execAll format req stmts) s = (.ok (), s₁) ∧
          Created server ((stmts.map (Mariadb.statement format req)).filter (· ≠ [])) s s₁) ∨
      ∃ i < ((stmts.map (Mariadb.statement format req)).filter (· ≠ [])).length,
        failing = .statement (s.executed + i) ∧
        ∃ err s₁, exec (server.answer env) (Mariadb.execAll format req stmts) s = (.error err, s₁) ∧
          Created server (((stmts.map (Mariadb.statement format req)).filter (· ≠ [])).take i) s s₁ := by
  induction stmts generalizing s with
  | nil =>
    refine .inl ⟨?_, s, rfl, .nil s⟩
    rintro ⟨i, hi, -⟩
    simp at hi
  | cons stmt rest ih =>
    unfold Mariadb.execAll
    by_cases hempty : Mariadb.statement format req stmt = []
    · rw [if_neg (not_not.mpr hempty), List.map_cons, List.filter_cons_of_neg (by simp [hempty])]
      exact ih s
    · rw [if_pos hempty, List.map_cons, List.filter_cons_of_pos (by simpa using hempty)]
      rcases exec_stmt hfails (Mariadb.statement format req stmt) s with
        ⟨hnot, s₁, hrun, hcreated⟩ | ⟨hstep, err, hrun⟩
      · rw [exec_bind_ok _ hrun]
        have hexecuted : s₁.executed = s.executed + 1 := hcreated.executed
        rcases ih s₁ with ⟨hno, s₂, hrest, hcreated'⟩ | ⟨i, hi, hstep, err, s₂, hrest, hcreated'⟩
        · refine .inl ⟨?_, s₂, hrest, hcreated.cons hcreated'⟩
          rintro ⟨i, hi, hstep⟩
          cases i with
          | zero => exact hnot hstep
          | succ i =>
            refine hno ⟨i, by simpa using hi, ?_⟩
            rw [hstep, hexecuted]
            congr 1
            omega
        · refine .inr ⟨i + 1, by simpa using hi, ?_, err, s₂, hrest, hcreated.cons hcreated'⟩
          rw [hstep, hexecuted]
          congr 1
          omega
      · rw [exec_bind_error _ hrun]
        exact .inr ⟨0, by simp, hstep, err, s, rfl, .nil s⟩

/-- The accounts are those there were and these. -/
structure Adds (accounts : List Account) (s s' : Site) : Prop where
  vault : s'.vault = s.vault
  connected : s'.connected = s.connected
  accounts : ∀ a, a ∈ s'.accounts ↔ a ∈ s.accounts ∨ a ∈ accounts

theorem exec_simple (env : Env) (hfails : server.fails = failing.failsServer) (text : String) (s : Site) :
    exec (server.answer env) (DbAct.beginTx.context text) s
      = (if failing = .beginTx then (.error (.wrap text .outside), s)
        else (.ok (), { s with executed := 0 })) ∧
    exec (server.answer env) (DbAct.commit.context text) s
      = (if failing = .commit then .error (.wrap text .outside) else .ok (), s) := by
  rw [exec_context, exec_context]
  show (Except.mapError _ (server.guarded s .beginTx _).1, (server.guarded s .beginTx _).2) = _ ∧
    (Except.mapError _ (server.guarded s .commit _).1, (server.guarded s .commit _).2) = _
  unfold Server.guarded
  rw [hfails]
  constructor
  · cases failing <;> rfl
  · cases failing <;> rfl

/-- What the plugin leaves behind, if it fails. -/
theorem createUser_cases (hfails : server.fails = failing.failsServer) (req : CreateUserRequest)
    (hconn : s.connected = true) :
    (∃ s₁, exec (server.answer env) (Mariadb.createUser format req) s = (.ok (), s₁) ∧
        Adds ((req.sent format).flatMap server.creates) s s₁ ∧
        (failing.leaves server req.username (req.sent format) = [] ∨ failing = .leaseID ∨
          failing = .lease)) ∨
      ∃ err s₁, exec (server.answer env) (Mariadb.createUser format req) s = (.error err, s₁) ∧
        Adds (failing.leaves server req.username (req.sent format)) s s₁ := by
  have hconn' : exec (server.answer env) Mariadb.conn s = (.ok (), s) := by
    rw [exec_conn, if_pos hconn]
  unfold Mariadb.createUser
  rw [exec_bind_ok _ hconn']
  have hbegin := (exec_simple env hfails "mariadb: begin" s).1
  by_cases hfirst : failing = .beginTx
  · rw [if_pos hfirst] at hbegin
    rw [exec_bind_error _ hbegin]
    exact .inr ⟨_, s, rfl, rfl, rfl, by simp [hfirst, Step.leaves]⟩
  rw [if_neg hfirst] at hbegin
  rw [exec_bind_ok _ hbegin]
  rcases execAll_cases format hfails req req.creationStatements { s with executed := 0 } with
    ⟨hno, s₁, hrun, hcreated⟩ | ⟨i, hi, hstep, err, s₁, hrun, hcreated⟩
  · have hadds : Adds ((req.sent format).flatMap server.creates) s s₁ :=
      ⟨hcreated.vault, hcreated.connected, hcreated.accounts⟩
    rw [exec_bind_ok _ hrun]
    have hcommit := (exec_simple env hfails "mariadb: commit" s₁).2
    by_cases hlast : failing = .commit
    · rw [if_pos hlast] at hcommit
      refine .inr ⟨_, s₁, hcommit, ?_⟩
      rw [hlast]
      exact hadds
    · rw [if_neg hlast] at hcommit
      refine .inl ⟨s₁, hcommit, hadds, ?_⟩
      cases failing with
      | statement i =>
        refine .inl (if_neg fun hi => hno ⟨i, hi, ?_⟩)
        simp
      | commit => exact absurd rfl hlast
      | leaseID => exact .inr (.inl rfl)
      | lease => exact .inr (.inr rfl)
      | _ => exact .inl rfl
  · rw [exec_bind_error _ hrun]
    refine .inr ⟨err, s₁, rfl, hcreated.vault, hcreated.connected, ?_⟩
    have hstep' : failing = .statement i := by simpa using hstep
    rw [hstep']
    show ∀ a, _ ↔ _ ∨ a ∈ if i < (req.sent format).length then _ else _
    rw [if_pos (show i < (req.sent format).length from hi)]
    exact hcreated.accounts

/-! ### Calls of the vault -/

theorem validKey_roleKey (e : Engine) {name : Bytes} (h : validName name = true) :
    validKey (e.roleKey name) = true := by
  have htext : str "/role/" = slash :: str "role" ++ [slash] := by decide_cbv
  have hrole : str "database/role/" = str "database/role" ++ [slash] := by decide_cbv
  rw [validName, Bool.and_eq_true, hrole, List.append_assoc, List.singleton_append,
    validKey_append_slash, Bool.and_eq_true (validKey _)] at h
  rw [Engine.roleKey, htext]
  have hsplit : e.pfx ++ (slash :: str "role" ++ [slash]) ++ name
      = (e.pfx ++ slash :: str "role") ++ slash :: name := by simp
  rw [hsplit, validKey_append_slash, validKey_append_slash, e.validKey_pfx, h.2.2]
  decide_cbv

theorem readRole_cases (env : Env) (server : Server) (e : Engine) (name : Bytes) (w : World) :
    (∃ role, exec (server.storage env) (e.readRole name) w = (.ok role, w.next) ∧
        validName name = true ∧
        (w.store.lookup (e.roleKey name)).bind e.roleJson.unmarshal = some role) ∨
      ∃ err w', exec (server.storage env) (e.readRole name) w = (.error err, w') ∧
        w'.store = w.store ∧ (validName name = false ∨
          (w.store.lookup (e.roleKey name)).bind e.roleJson.unmarshal = none ∨
          env.fails w.tick (.get (e.roleKey name)) = true) := by
  unfold Engine.readRole
  cases hname : validName name with
  | false => exact .inr ⟨_, w, rfl, rfl, .inl rfl⟩
  | true =>
    rw [if_neg (by simp)]
    rcases storage_get_cases env server w (e.roleKey name) with ⟨hget, -⟩ | ⟨err, hget, hwhy⟩
    · have hread : exec (server.storage env)
          ((Act.get (e.roleKey name)).context "database: read role") w
            = (.ok (w.store.lookup (e.roleKey name)), w.next) := (Act.exec_context_eq_ok _ _).mpr hget
      rw [exec_bind_ok _ hread]
      cases w.store.lookup (e.roleKey name) with
      | none => exact .inr ⟨_, _, rfl, rfl, .inr (.inl rfl)⟩
      | some blob =>
        rw [Option.bind_some]
        dsimp only
        cases e.roleJson.unmarshal blob with
        | none => exact .inr ⟨_, _, rfl, rfl, .inr (.inl rfl)⟩
        | some role => exact .inl ⟨role, rfl, rfl, rfl⟩
    · have hread : exec (server.storage env)
          ((Act.get (e.roleKey name)).context "database: read role") w
            = (.error (.wrap "database: read role" err), w.next) :=
        (Act.exec_context_eq_error _ _).mpr ⟨err, hget, rfl⟩
      rw [exec_bind_error _ hread]
      refine .inr ⟨_, _, rfl, rfl, .inr (.inr (hwhy.resolve_right ?_))⟩
      simp [validKey_roleKey e hname]

theorem storage_randRead (env : Env) (server : Server) (n : Nat) (w : World) :
    server.storage env w (.randRead n)
      = (if env.fails w.tick (.randRead n) then .error .outside else .ok (env.random w.tick n), w.next) := by
  show (env.guarded w (.randRead n) true _) = _
  unfold Env.guarded
  cases env.fails w.tick (.randRead n) <;> rfl

/-- A name is generated whether the random source works or not. -/
theorem exec_defaultUsername (env : Env) (server : Server) (name : Bytes) (w : World) :
    exec (server.storage env) (defaultUsername name) w
      = (.ok (usernameFor name (if env.fails w.tick (.randRead 4) then List.replicate 4 0
          else env.random w.tick 4)), w.next) := by
  show run _ ((Act.randRead 4).run >>= _) w = _
  rw [run_bind, show (Act.randRead 4).run.run (server.storage env) w = _ from storage_randRead env server 4 w]
  cases env.fails w.tick (.randRead 4) <;> rfl

theorem exec_random (env : Env) (server : Server) (text : String) (n : Nat) (w : World) :
    exec (server.storage env) ((Act.randRead n).context text) w
      = (if env.fails w.tick (.randRead n) then .error (.wrap text .outside)
          else .ok (env.random w.tick n), w.next) := by
  rw [Act.exec_context, Act.exec_randRead, storage_randRead]
  cases env.fails w.tick (.randRead n) <;> rfl

theorem exec_defaultPassword (env : Env) (server : Server) (w : World) :
    exec (server.storage env) defaultPassword w
      = (if env.fails w.tick (.randRead 24) then
            .error (.wrap "database: generate password" .outside)
          else .ok (base64RawURL (env.random w.tick 24)), w.next) := by
  unfold defaultPassword
  rw [exec_bind, exec_random]
  cases env.fails w.tick (.randRead 24) <;> rfl

theorem exec_randomID (env : Env) (server : Server) (w : World) :
    exec (server.storage env) randomID w
      = (if env.fails w.tick (.randRead 16) then
            .error (.wrap "database: generate lease id" .outside)
          else .ok (hexEncode (env.random w.tick 16)), w.next) := by
  unfold randomID
  rw [exec_bind, exec_random]
  cases env.fails w.tick (.randRead 16) <;> rfl

theorem saveLease_cases (env : Env) (server : Server) (e : Engine) (l : Lease)
    (hid : validKey l.id = true) (w : World) :
    (env.fails w.tick (.put (e.leaseKey l.id) (e.leaseJson.marshal l)) = false ∧
        ∃ w', exec (server.storage env) (e.saveLease l) w = (.ok (), w')) ∨
      env.fails w.tick (.put (e.leaseKey l.id) (e.leaseJson.marshal l)) = true ∧
        ∃ err, exec (server.storage env) (e.saveLease l) w = (.error err, w.next) := by
  unfold Engine.saveLease
  rw [Act.exec_context, Act.exec_put]
  have hanswer : server.storage env w (.put (e.leaseKey l.id) (e.leaseJson.marshal l))
      = env.guarded w (.put (e.leaseKey l.id) (e.leaseJson.marshal l)) (validKey (e.leaseKey l.id))
        (.ok (), w.write (w.store.insert (e.leaseKey l.id) (e.leaseJson.marshal l))) := rfl
  rw [hanswer, e.validKey_leaseKey, hid]
  cases hfails : env.fails w.tick (.put (e.leaseKey l.id) (e.leaseJson.marshal l)) with
  | true =>
    rw [Env.guarded_fail hfails]
    exact .inr ⟨rfl, _, rfl⟩
  | false =>
    rw [Env.guarded_ok hfails]
    exact .inl ⟨rfl, _, rfl⟩

/-! ### The whole call -/

/-- What is left behind, if the plugin was asked. -/
def Step.LeftBehind (failing : Step) (server : Server) (format : Time → Bytes)
    (req : Option CreateUserRequest) (a : Account) : Prop :=
  ∃ r ∈ req, a ∈ failing.leaves server r.username (r.sent format)

/--
How the call ends: an error has stored nothing and has added exactly what its step
leaves behind; if it ends well, there was no such step.
-/
def Accounted {α : Type} (left : Account → Prop) (s : Site) : Except Err α × Site → Prop
  | (.ok _, _) => ∀ a, ¬ left a
  | (.error _, s') =>
    s'.vault.store = s.vault.store ∧ ∀ a, a ∉ s.accounts → (a ∈ s'.accounts ↔ left a)

/-- An error before anything was created. -/
theorem Accounted.early {α : Type} {left : Account → Prop} {err : Err}
    (hstore : s'.vault.store = s.vault.store) (haccounts : s'.accounts = s.accounts)
    (hleft : ∀ a, ¬ left a) : Accounted left s ((.error err, s') : Except Err α × Site) := by
  refine ⟨hstore, fun a ha => ?_⟩
  rw [haccounts]
  exact iff_of_false ha (hleft a)

theorem not_leftBehind_of_none {a : Account} : ¬ failing.LeftBehind server format none a := by
  rintro ⟨r, hr, -⟩
  cases hr

theorem not_leftBehind_of_early {req : Option CreateUserRequest} {a : Account}
    (h : ∀ username sent, failing.leaves server username sent = []) :
    ¬ failing.LeftBehind server format req a := by
  rintro ⟨r, -, ha⟩
  rw [h] at ha
  cases ha

/-- A call of the vault before the plugin is asked. -/
theorem leaves_of_get {name : Bytes} {t : Nat} {key : Key}
    (h : failing.failsVault e name t (.get key) = true) (username : Bytes) (sent : List Bytes) :
    failing.leaves server username sent = [] := by
  cases failing with
  | config | role => rfl
  | _ => cases h

/-- What `RevokeUser` drops when the lease could not be recorded. -/
theorem saveOrRevoke_cases (hplugin : e.plugin = Mariadb.plugin format) {name : Bytes}
    (hvault : env.fails = failing.failsVault e name) (hserver : server.fails = failing.failsServer)
    (l : Lease) (hid : validKey l.id = true) (hconn : s.connected = true) :
    (failing ≠ .lease ∧ ∃ s₁, exec (server.answer env) (e.saveOrRevoke l) s = (.ok (), s₁)) ∨
      failing = .lease ∧ ∃ err s₁, exec (server.answer env) (e.saveOrRevoke l) s = (.error err, s₁) ∧
        s₁.vault.store = s.vault.store ∧ s₁.accounts = s.accounts.filter (·.user ≠ l.username) := by
  have hput : ∀ t key value, env.fails t (.put key value) = true ↔ failing = .lease := by
    intro t key value
    rw [hvault]
    cases failing with
    | lease => exact iff_of_true rfl rfl
    | _ => exact iff_of_false Bool.false_ne_true (by nofun)
  show (_ ∧ ∃ s₁, run _ ((DbAct.vault (e.saveLease l)).run >>= _) s = _) ∨
    _ ∧ ∃ err s₁, run _ ((DbAct.vault (e.saveLease l)).run >>= _) s = _ ∧ _
  rw [run_bind]
  rcases saveLease_cases env server e l hid s.vault with ⟨hf, w, hsave⟩ | ⟨hf, err, hsave⟩
  · have hrun : (DbAct.vault (e.saveLease l)).run.run (server.answer env) s = _ := exec_vault_eq hsave
    rw [hrun]
    exact .inl ⟨fun h => by simp [(hput _ _ _).mpr h] at hf, _, rfl⟩
  · have hrun : (DbAct.vault (e.saveLease l)).run.run (server.answer env) s = _ := exec_vault_eq hsave
    have hlease := (hput _ _ _).mp hf
    have hrevoke : ((Mariadb.plugin format).revokeUser l.username).run.run (server.answer env)
        { s with vault := s.vault.next } = _ :=
      exec_revokeUser_ok env (fun s => by rw [hserver, hlease]; rfl)
        (fun s host => by rw [hserver, hlease]; rfl) hconn
    rw [hrun, hplugin]
    dsimp only
    rw [run_bind, hrevoke]
    exact .inr ⟨hlease, err, _, rfl, rfl, rfl⟩

/-- From the plugin to the end of the call. -/
theorem issue_accounted {α : Type} (hplugin : e.plugin = Mariadb.plugin format) {name : Bytes}
    (hvault : env.fails = failing.failsVault e name) (hserver : server.fails = failing.failsServer)
    {left : Account → Prop} {s : Site} (s₁ : Site) (req : CreateUserRequest)
    (hstore : s₁.vault.store = s.vault.store) (haccounts : s₁.accounts = s.accounts)
    (hleft : ∀ a, left a ↔
      s₁.connected = true ∧ a ∈ failing.leaves server req.username (req.sent format))
    (record : Bytes → Lease) (hrecord : ∀ id, (record id).id = id ∧ (record id).username = req.username)
    (result : Bytes → α) :
    Accounted left s (exec (server.answer env) (do
      (Mariadb.createUser format req).context "database: create user"
      let id ← DbAct.vault randomID
      e.saveOrRevoke (record id)
      return result id) s₁) := by
  cases hconn : s₁.connected with
  | false =>
    have hrun : exec (server.answer env)
        ((Mariadb.createUser format req).context "database: create user") s₁
          = (.error (.wrap "database: create user" (.text "mariadb: not initialized")), s₁) := by
      have hconn' : exec (server.answer env) Mariadb.conn s₁
          = (.error (.text "mariadb: not initialized"), s₁) := by
        rw [exec_conn, hconn]
        rfl
      rw [exec_context, Mariadb.createUser, exec_bind_error _ hconn']
      rfl
    rw [exec_bind_error _ hrun]
    refine .early hstore haccounts fun a h => ?_
    simp [(hleft a).mp h] at hconn
  | true =>
    have hleft' : ∀ a, left a ↔ a ∈ failing.leaves server req.username (req.sent format) := by
      intro a
      rw [hleft, hconn, eq_self, true_and]
    rcases createUser_cases hserver req hconn with
      ⟨s₂, hcreate, hadds, hlate⟩ | ⟨err, s₂, hcreate, hadds⟩
    · have hrun : exec (server.answer env)
          ((Mariadb.createUser format req).context "database: create user") s₁ = (.ok (), s₂) := by
        rw [exec_context, hcreate]
        rfl
      rw [exec_bind_ok _ hrun]
      have hrandom : env.fails s₂.vault.tick (.randRead 16) = true ↔ failing = .leaseID := by
        rw [hvault]
        cases failing with
        | leaseID => exact iff_of_true rfl rfl
        | _ => exact iff_of_false Bool.false_ne_true (by nofun)
      have hid := exec_randomID env server s₂.vault
      by_cases hstep : failing = .leaseID
      · rw [if_pos (hrandom.mpr hstep)] at hid
        rw [exec_bind_error _ (exec_vault_eq hid)]
        refine ⟨?_, fun a ha => ?_⟩
        · exact (congrArg World.store hadds.vault).trans hstore
        · have hmem := hadds.accounts a
          rw [haccounts, or_iff_right ha] at hmem
          rw [hleft', hstep]
          exact hmem
      · rw [if_neg fun h => hstep (hrandom.mp h)] at hid
        rw [exec_bind_ok _ (exec_vault_eq hid)]
        have hvalid : validKey (hexEncode (env.random s₂.vault.tick 16)) = true :=
          validKey_segment (ascii_hexEncode _) (slash_notMem_hexEncode _)
            (validSegment_hexEncode (List.ne_nil_of_length_pos (by simp [(env.random _ _).2])))
        have hconn₂ : ({ s₂ with vault := s₂.vault.next } : Site).connected = true :=
          hadds.connected.trans hconn
        rcases saveOrRevoke_cases hplugin hvault hserver
          (record (hexEncode (env.random s₂.vault.tick 16))) ((hrecord _).1.symm ▸ hvalid) hconn₂ with
          ⟨hnot, s₃, hsave⟩ | ⟨hlease, err, s₃, hsave, hstore₃, haccounts₃⟩
        · rw [exec_bind_ok _ hsave]
          intro a ha
          rw [hleft'] at ha
          rcases hlate with hnil | hlate | hlate
          · rw [hnil] at ha
            cases ha
          · exact hstep hlate
          · exact hnot hlate
        · rw [exec_bind_error _ hsave]
          refine ⟨?_, fun a ha => ?_⟩
          · rw [hstore₃]
            exact (congrArg World.store hadds.vault).trans hstore
          · rw [hleft', hlease, haccounts₃, (hrecord _).2]
            show _ ↔ a ∈ ((req.sent format).flatMap server.creates).filter _
            rw [List.mem_filter, List.mem_filter, hadds.accounts, haccounts, or_iff_right ha]
    · have hrun : exec (server.answer env)
          ((Mariadb.createUser format req).context "database: create user") s₁
            = (.error (.wrap "database: create user" err), s₂) := by
        rw [exec_context, hcreate]
        rfl
      rw [exec_bind_error _ hrun]
      refine ⟨?_, fun a ha => ?_⟩
      · exact (congrArg World.store hadds.vault).trans hstore
      · rw [hadds.accounts, haccounts, hleft', or_iff_right ha]

theorem generateCredentials_accounted (hplugin : e.plugin = Mariadb.plugin format) {name : Bytes}
    (hvault : env.fails = failing.failsVault e name) (hserver : server.fails = failing.failsServer)
    (createdBy : Bytes) (s : Site) :
    Accounted (failing.LeftBehind server format (e.request env s name)) s
      (exec (server.answer env) (e.generateCredentials name createdBy) s) := by
  unfold Engine.generateCredentials
  -- The engine gets its connection.
  rcases e.ensureReady_cases env server hplugin s with
    ⟨s₁, hready, hready'⟩ | ⟨err, s₁, hready, hstore, haccounts, hwhy⟩
  swap
  · rw [exec_bind_error _ hready]
    refine .early hstore haccounts fun a => ?_
    rcases hwhy with hnot | hf | ⟨s₂, url, hf⟩
    · rw [Engine.request, hnot]
      exact not_leftBehind_of_none
    · rw [hvault] at hf
      exact not_leftBehind_of_early (leaves_of_get hf)
    · rw [hserver] at hf
      refine not_leftBehind_of_early fun username sent => ?_
      cases failing with
      | connect => rfl
      | _ => cases hf
  rw [exec_bind_ok _ hready]
  -- It reads the role.
  rcases readRole_cases env server e name s₁.vault with
    ⟨role, hrole, hname, hrole'⟩ | ⟨err, w, hrole, hstore, hwhy⟩
  swap
  · rw [exec_bind_error _ (exec_vault_eq hrole)]
    refine .early (hstore.trans hready'.store) hready'.accounts fun a => ?_
    rw [hready'.store] at hwhy
    rcases hwhy with hnot | hnone | hf
    · rw [Engine.request, hnot, Bool.and_false]
      exact not_leftBehind_of_none
    · rw [Engine.request, hnone]
      simp only [Option.map_none, ite_self]
      exact not_leftBehind_of_none
    · rw [hvault] at hf
      exact not_leftBehind_of_early (leaves_of_get hf)
  rw [exec_bind_ok _ (exec_vault_eq hrole),
    exec_bind_ok _ (exec_vault_eq (exec_defaultUsername env server name s₁.vault.next))]
  -- It generates a password.
  have hpassword := exec_defaultPassword env server s₁.vault.next.next
  by_cases hp : env.fails s₁.vault.next.next.tick (.randRead 24) = true
  · rw [if_pos hp] at hpassword
    rw [exec_bind_error _ (exec_vault_eq hpassword)]
    refine .early hready'.store hready'.accounts fun a => not_leftBehind_of_early fun username sent => ?_
    rw [hvault] at hp
    cases failing with
    | password => rfl
    | _ => cases hp
  rw [if_neg hp] at hpassword
  have hnow : exec (server.storage env) Act.now s₁.vault.next.next.next
      = (.ok (env.clock s₁.vault.next.next.next.tick), s₁.vault.next.next.next.next) := rfl
  rw [exec_bind_ok _ (exec_vault_eq hpassword), exec_bind_ok _ (exec_vault_eq hnow), hplugin]
  generalize husername : usernameFor name _ = username
  generalize hpass : base64RawURL _ = password
  generalize hclock : env.clock _ = now
  refine issue_accounted hplugin hvault hserver { s₁ with vault := s₁.vault.next.next.next.next }
    ⟨username, password, now + role.defaultTTL, role.creationStatements⟩
    hready'.store hready'.accounts (fun a => ?_)
    (fun id => ⟨id, name, username, now + role.defaultTTL, createdBy⟩)
    (fun id => ⟨rfl, rfl⟩) (fun id => (⟨id, username, password, role.defaultTTL⟩ : Credential))
  show _ ↔ s₁.connected = true ∧ _
  rw [hready'.connected]
  cases husable : s.usable e with
  | false =>
    rw [Engine.request, husable, Bool.false_and]
    exact iff_of_false not_leftBehind_of_none (by simp)
  | true =>
    rw [eq_self, true_and]
    -- Unless the suffix fails, which leaves nothing, the plugin is asked as the inputs say.
    by_cases hsuffix : failing = .suffix
    · rw [hsuffix]
      exact iff_of_false (not_leftBehind_of_early fun _ _ => rfl) (by simp [Step.leaves])
    have hrequest : e.request env s name
        = some ⟨username, password, now + role.defaultTTL, role.creationStatements⟩ := by
      have hf : env.fails s₁.vault.next.tick (.randRead 4) = false := by
        rw [hvault]
        cases failing with
        | suffix => exact absurd rfl hsuffix
        | _ => rfl
      rw [hready'.store] at hrole'
      rw [← husername, ← hpass, ← hclock, hf, Engine.request, husable, hname, hrole', Bool.and_self,
        if_pos rfl]
      simp only [World.next_tick, hready'.tick]
      rfl
    rw [hrequest]
    constructor
    · rintro ⟨r, hr, ha⟩
      cases hr
      exact ha
    · exact fun ha => ⟨_, rfl, ha⟩

/--
**Accounts without a lease.**  If one step of `GenerateCredentials` fails, no account
that it created is left without a lease exactly if the failing step leaves none behind,
accounts apart that were there before or whose user has a lease already.
-/
theorem generateCredentials_tracked_iff (e : Engine) (format : Time → Bytes)
    (hplugin : e.plugin = Mariadb.plugin format) (failing : Step) (name createdBy : Bytes) (env : Env)
    (hvault : env.fails = failing.failsVault e name) (server : Server)
    (hserver : server.fails = failing.failsServer) (s : Site) :
    (∀ err s', exec (server.answer env) (e.generateCredentials name createdBy) s = (.error err, s') →
      ∀ a ∈ s'.accounts, a ∉ s.accounts → s'.Tracked e a.user) ↔
      ∀ req ∈ e.request env s name, ∀ a ∈ failing.leaves server req.username (req.sent format),
        a ∉ s.accounts → s.Tracked e a.user := by
  have haccounted := generateCredentials_accounted hplugin hvault hserver createdBy s
  constructor
  · intro h req hreq a ha hnew
    rcases hrun : exec (server.answer env) (e.generateCredentials name createdBy) s with ⟨r, s'⟩
    rw [hrun] at haccounted
    cases r with
    | ok c => exact absurd ⟨req, hreq, ha⟩ (haccounted a)
    | error err =>
      obtain ⟨hstore, hadded⟩ := haccounted
      have htracked := h err s' hrun a ((hadded a hnew).mpr ⟨req, hreq, ha⟩) hnew
      rw [Site.Tracked, hstore] at htracked
      exact htracked
  · intro h err s' hrun a ha hnew
    rw [hrun] at haccounted
    obtain ⟨hstore, hadded⟩ := haccounted
    obtain ⟨req, hreq, ha'⟩ := (hadded a hnew).mp ha
    rw [Site.Tracked, hstore]
    exact h req hreq a ha' hnew

/-! ### A role with two statements -/

/-- A role as operators write it. -/
def appRole : Role where
  creationStatements :=
    [str "CREATE USER '\x7b\x7busername\x7d\x7d'@'%' IDENTIFIED BY '\x7b\x7bpassword\x7d\x7d'",
      str "GRANT SELECT ON app.* TO '\x7b\x7busername\x7d\x7d'@'%'"]
  defaultTTL := hour

/-- The user that is generated for the role `app` where all random bytes are zero. -/
def zeroUser : Bytes := usernameFor (str "app") (List.replicate 4 0)

/-- The role `app` is stored and the engine is connected. -/
def roleStored : Site where
  vault := ⟨Finmap.singleton (Engine.transparent.roleKey (str "app"))
    (Engine.transparent.roleJson.marshal appRole), 0⟩
  ready := true
  connected := true
  accounts := []
  executed := 0

/-- A server that creates the account where it is told to, and fails at one step. -/
def failingServer (failing : Step) : Server where
  creates stmt := if (str "CREATE USER ").isPrefixOf stmt then [⟨zeroUser, str "%"⟩] else []
  fails := failing.failsServer
  order := id
  order_perm := List.Perm.refl

/-- The storage and the random source fail at one step. -/
def failingEnv (failing : Step) : Env :=
  .failing (failing.failsVault Engine.transparent (str "app"))

/-- What the plugin is asked for. -/
def zeroRequest : CreateUserRequest :=
  ⟨zeroUser, base64RawURL (List.replicate 24 0), 0 + hour, appRole.creationStatements⟩

theorem not_tracked_of_list {user : Bytes} (h : s.vault.store.list e.leasePrefix = []) :
    ¬ s.Tracked e user := by
  rintro ⟨id, l, hl, -⟩
  have hmem := e.mem_list_of_leaseAt hl
  rw [h] at hmem
  cases hmem

/-- The second statement fails, and the account of the first is left without a lease. -/
theorem account_untracked :
    ∃ err s' a, exec ((failingServer (.statement 1)).answer (failingEnv (.statement 1)))
        (Engine.transparent.generateCredentials (str "app") []) roleStored = (.error err, s') ∧
      a ∈ s'.accounts ∧ a ∉ roleStored.accounts ∧ ¬ s'.Tracked Engine.transparent a.user := by
  refine ⟨.wrap "database: create user" (.wrap "mariadb: create user" .outside), _,
    ⟨zeroUser, str "%"⟩, exec_eq_of_fst _ ?_, ?_, List.not_mem_nil, not_tracked_of_list ?_⟩
  · decide +kernel
  · decide +kernel
  · decide +kernel

/-- If the lease cannot be recorded, the account is dropped. -/
theorem account_dropped_without_lease :
    Engine.transparent.request (failingEnv .lease) roleStored (str "app") = some zeroRequest ∧
      ∀ err s', exec ((failingServer .lease).answer (failingEnv .lease))
          (Engine.transparent.generateCredentials (str "app") []) roleStored = (.error err, s') →
        ∀ a ∈ s'.accounts, a ∉ roleStored.accounts → s'.Tracked Engine.transparent a.user := by
  have hrequest : Engine.transparent.request (failingEnv .lease) roleStored (str "app")
      = some zeroRequest := by decide +kernel
  refine ⟨hrequest, (generateCredentials_tracked_iff Engine.transparent (fun _ => []) rfl
    .lease (str "app") [] (failingEnv .lease) rfl (failingServer .lease) rfl roleStored).mpr ?_⟩
  intro req hreq a ha
  rw [hrequest, Option.mem_some] at hreq
  subst hreq
  have hnone : Step.leaves .lease (failingServer .lease) zeroRequest.username
    (zeroRequest.sent fun _ => []) = [] := by decide +kernel
  rw [hnone] at ha
  cases ha

end UbixVault.Database
