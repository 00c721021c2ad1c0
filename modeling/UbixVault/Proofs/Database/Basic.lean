/-
Running programs of the database engine.

What an operation does is said once for each of them.  Programs of the vault run in
the engine as they do in the vault, with the listings in the order of the server.
-/
import UbixVault.Database
import UbixVault.Proofs.Basic
import UbixVault.Proofs.Snapshot

namespace UbixVault.Database

open Program

variable {α β : Type} {env : Env} {server : Server} {s s' : Site}

/-! ### Programs of the vault -/

theorem run_vault (p : Prog α) (s : Site) :
    (p.translate fun call => perform (Op.vault call) : DbProg α).run (server.answer env) s =
      ((p.run (server.storage env) s.vault).1,
        { s with vault := (p.run (server.storage env) s.vault).2 }) := by
  induction p generalizing s with
  | ret a => rfl
  | step call next ih => exact ih _ _

theorem exec_vault (x : Act α) (s : Site) :
    exec (server.answer env) (DbAct.vault x) s =
      ((exec (server.storage env) x s.vault).1,
        { s with vault := (exec (server.storage env) x s.vault).2 }) := run_vault x.run s

theorem exec_vault_eq {x : Act α} {r : Except Err α} {w' : World}
    (h : exec (server.storage env) x s.vault = (r, w')) :
    exec (server.answer env) (DbAct.vault x) s = (r, { s with vault := w' }) := by
  rw [exec_vault, h]

theorem exec_context (text : String) (x : DbAct α) (s : Site) :
    exec (server.answer env) (x.context text) s =
      ((exec (server.answer env) x s).1.mapError (Err.wrap text), (exec (server.answer env) x s).2) := by
  show (ExceptT.adapt (Err.wrap text) x : DbAct α).run.run _ s = _
  rw [run_adapt, run_bind]
  rfl

theorem exec_perform (op : Op) (s : Site) :
    exec (server.answer env) (liftM (perform op : DbProg (Res op)) : DbAct (Res op)) s
      = (.ok (server.answer env s op).1, (server.answer env s op).2) := rfl

theorem exec_conn (s : Site) :
    exec (server.answer env) Mariadb.conn s
      = (if s.connected then .ok () else .error (.text "mariadb: not initialized"), s) := by
  unfold Mariadb.conn
  rw [exec_bind, exec_perform]
  show exec _ (if s.connected = true then _ else _) s = _
  cases s.connected <;> rfl

theorem guarded_ok {op : Op} {reply : Except Err α × Site} (h : server.fails s op = false) :
    server.guarded s op reply = reply := if_neg (by simp [h])

theorem guarded_fail {op : Op} {reply : Except Err α × Site} (h : server.fails s op = true) :
    server.guarded s op reply = (.error .outside, s) := if_pos h

/-! ### Dropping a user -/

section Drop

variable {username : Bytes}

theorem exec_hosts (env : Env) (hok : server.fails s (.hosts username) = false) :
    exec (server.answer env) ((DbAct.hosts username).context "mariadb: find user hosts") s
      = (.ok ((s.accounts.filter (·.user = username)).map Account.host), s) := by
  rw [exec_context]
  show (Except.mapError _ (server.guarded s (.hosts username) _).1,
    (server.guarded s (.hosts username) _).2) = _
  rw [guarded_ok hok]
  rfl

theorem exec_dropAll (env : Env)
    (hok : ∀ s host, server.fails s (.dropUser ⟨username, host⟩) = false) (hosts : List Bytes)
    (s : Site) :
    exec (server.answer env) (Mariadb.dropAll username hosts) s
      = (.ok (), { s with
          accounts := s.accounts.filter fun a => !(a.user == username && hosts.contains a.host) }) := by
  induction hosts generalizing s with
  | nil =>
    show (Except.ok (), s) = _
    simp
  | cons host rest ih =>
    have hdrop : exec (server.answer env)
        ((DbAct.dropUser ⟨username, host⟩).context "mariadb: drop user") s
          = (.ok (), { s with accounts := s.accounts.filter (· ≠ ⟨username, host⟩) }) := by
      rw [exec_context]
      show (Except.mapError _ (server.guarded s (.dropUser ⟨username, host⟩) _).1,
        (server.guarded s (.dropUser ⟨username, host⟩) _).2) = _
      rw [guarded_ok (hok s host)]
      rfl
    unfold Mariadb.dropAll
    rw [exec_bind_ok _ hdrop, ih]
    congr 2
    rw [List.filter_filter]
    congr 1
    funext a
    obtain ⟨user, host'⟩ := a
    by_cases hu : user = username <;> by_cases hh : host' = host <;> simp [hu, hh]

/-- Where nothing fails, all accounts of the user are dropped. -/
theorem exec_revokeUser_ok (env : Env) (hhosts : ∀ s, server.fails s (.hosts username) = false)
    (hdrop : ∀ s host, server.fails s (.dropUser ⟨username, host⟩) = false)
    (hconn : s.connected = true) :
    exec (server.answer env) (Mariadb.revokeUser username) s
      = (.ok (), { s with accounts := s.accounts.filter (·.user ≠ username) }) := by
  have hconn' : exec (server.answer env) Mariadb.conn s = (.ok (), s) := by
    rw [exec_conn, if_pos hconn]
  unfold Mariadb.revokeUser
  rw [exec_bind_ok _ hconn', exec_bind_ok _ (exec_hosts env (hhosts s)), exec_dropAll env hdrop]
  congr 2
  refine List.filter_congr fun a ha => ?_
  by_cases hu : a.user = username
  · have hmem : a.host ∈ (s.accounts.filter (·.user = username)).map Account.host :=
      List.mem_map_of_mem (List.mem_filter.mpr ⟨ha, by simpa using hu⟩)
    simp [hu, hmem]
  · simp [hu]

end Drop

/-! ### The storage -/

theorem storage_get_cases (env : Env) (server : Server) (w : World) (key : Key) :
    (server.storage env w (.get key) = (.ok (w.store.lookup key), w.next) ∧ validKey key = true) ∨
      ∃ err, server.storage env w (.get key) = (.error err, w.next) ∧
        (env.fails w.tick (.get key) = true ∨ validKey key = false) :=
  Env.guarded_why env w (.get key) (validKey key) (.ok (w.store.lookup key), w.next)

theorem storage_delete_cases (env : Env) (server : Server) (w : World) (key : Key) :
    (server.storage env w (.delete key) = (.ok (), w.write (w.store.erase key)) ∧ validKey key = true) ∨
      ∃ err, server.storage env w (.delete key) = (.error err, w.next) ∧
        (env.fails w.tick (.delete key) = true ∨ validKey key = false) :=
  Env.guarded_why env w (.delete key) (validKey key) (.ok (), w.write (w.store.erase key))

theorem storage_list_cases (env : Env) (server : Server) (w : World) (pfx : Key) :
    (server.storage env w (.list pfx) = (.ok (server.order (w.store.list pfx)), w.next) ∧
      validPrefix pfx = true) ∨
      ∃ err, server.storage env w (.list pfx) = (.error err, w.next) ∧
        (env.fails w.tick (.list pfx) = true ∨ validPrefix pfx = false) := by
  have hanswer := Env.guarded_why env w (.list pfx) (validPrefix pfx) (.ok (w.store.list pfx), w.next)
  change (env.answer w (.list pfx) = _ ∧ _) ∨ ∃ err, env.answer w (.list pfx) = _ ∧ _ at hanswer
  unfold Server.storage
  rcases hanswer with ⟨h, hvalid⟩ | ⟨err, h, hwhy⟩
  · rw [h]
    exact .inl ⟨rfl, hvalid⟩
  · rw [h]
    exact .inr ⟨err, rfl, hwhy⟩

theorem storage_delete (server : Server) {w : World} (hworks : env.Works) {key : Key}
    (hv : validKey key = true) :
    server.storage env w (.delete key) = (.ok (), w.write (w.store.erase key)) := by
  unfold Server.storage
  simp [Env.answer, Env.guarded, hworks w.tick, hv, Server.reorder]

theorem storage_list (server : Server) {w : World} (hworks : env.Works) {pfx : Key}
    (hv : validPrefix pfx = true) :
    server.storage env w (.list pfx) = (.ok (server.order (w.store.list pfx)), w.next) := by
  unfold Server.storage
  simp [Env.answer, Env.guarded, hworks w.tick, hv, Server.reorder, Except.map]

/-! ### Keys -/

namespace Engine

variable (e : Engine)

theorem leasePrefix_eq : e.leasePrefix = (e.pfx ++ slash :: str "lease") ++ [slash] := by
  have htext : str "/lease/" = slash :: str "lease" ++ [slash] := by decide_cbv
  rw [leasePrefix, htext, List.append_assoc]

theorem leaseKey_eq (id : Bytes) : e.leaseKey id = (e.pfx ++ slash :: str "lease") ++ slash :: id := by
  unfold leaseKey
  rw [leasePrefix_eq, List.append_assoc]
  rfl

theorem validKey_leases : validKey (e.pfx ++ slash :: str "lease") = true := by
  rw [validKey_append_slash, e.validKey_pfx]
  decide_cbv

theorem validKey_leaseKey (id : Bytes) : validKey (e.leaseKey id) = validKey id := by
  rw [leaseKey_eq, validKey_append_slash, validKey_leases, Bool.true_and]

theorem validPrefix_leasePrefix : validPrefix e.leasePrefix = true := by
  rw [leasePrefix_eq, validPrefix, List.getLast?_concat, List.dropLast_concat, validKey_leases]
  simp

theorem validKey_configKey : validKey e.configKey = true := by
  have htext : str "/config" = slash :: str "config" := by decide_cbv
  rw [configKey, htext, validKey_append_slash, e.validKey_pfx]
  decide_cbv

theorem leaseKey_injective : Function.Injective e.leaseKey := fun _ _ h => List.append_cancel_left h

theorem leaseAt_eq_some {store : Store} {id : Bytes} {l : Lease} :
    e.leaseAt store id = some l ↔
      slash ∉ id ∧ validKey id = true ∧
        ∃ blob, store.lookup (e.leaseKey id) = some blob ∧ e.leaseJson.unmarshal blob = some l := by
  unfold leaseAt
  split
  case isTrue h => simp [h, Option.bind_eq_some_iff]
  case isFalse h =>
    constructor
    · intro h'
      cases h'
    · rintro ⟨hslash, hvalid, -⟩
      exact absurd ⟨hslash, hvalid⟩ h

/-- A lease that is recorded is listed. -/
theorem mem_list_of_leaseAt {store : Store} {id : Bytes} {l : Lease} (h : e.leaseAt store id = some l) :
    id ∈ store.list e.leasePrefix := by
  obtain ⟨hslash, hvalid, blob, hblob, -⟩ := e.leaseAt_eq_some.mp h
  have hne : id ≠ [] := by
    rintro rfl
    exact absurd hvalid (by decide)
  refine Store.mem_list.mpr ⟨e.leaseKey id, ?_, childUnder_append hne hslash⟩
  exact Finmap.lookup_isSome.mp (by rw [hblob]; rfl)

/-- What is listed and can be looked up has no slash. -/
theorem slash_notMem_of_listed {store : Store} {id : Bytes} (h : id ∈ store.list e.leasePrefix)
    (hvalid : validKey id = true) : slash ∉ id := by
  obtain ⟨key, -, hchild⟩ := Store.mem_list.mp h
  obtain ⟨-, hslash, -⟩ | ⟨seg, -, rfl, -⟩ := childUnder_eq_some_iff.mp hchild
  · exact hslash
  · exact absurd List.getLast?_concat (getLast?_of_validKey hvalid)

/-! ### Leases -/

/-- Reading a lease changes nothing, and finds what is recorded unless the read fails. -/
theorem loadLease_cases (env : Env) (server : Server) {id : Bytes}
    (hid : validKey id = true → slash ∉ id) (w : World) :
    (∃ l, exec (server.storage env) (e.loadLease id) w = (.ok l, w.next) ∧
        e.leaseAt w.store id = some l) ∨
      ∃ err, exec (server.storage env) (e.loadLease id) w = (.error err, w.next) ∧
        (env.fails w.tick (.get (e.leaseKey id)) = true ∨ e.leaseAt w.store id = none) := by
  unfold loadLease
  rcases storage_get_cases env server w (e.leaseKey id) with ⟨hget, hvalid⟩ | ⟨err, hget, hwhy⟩
  · have hread : exec (server.storage env)
        ((Act.get (e.leaseKey id)).context "database: read lease") w
          = (.ok (w.store.lookup (e.leaseKey id)), w.next) :=
      (Act.exec_context_eq_ok _ _).mpr hget
    rw [validKey_leaseKey] at hvalid
    have hat : e.leaseAt w.store id
        = (w.store.lookup (e.leaseKey id)).bind e.leaseJson.unmarshal := if_pos ⟨hid hvalid, hvalid⟩
    rw [exec_bind_ok _ hread, hat]
    cases w.store.lookup (e.leaseKey id) with
    | none => exact .inr ⟨_, rfl, .inr rfl⟩
    | some blob =>
      rw [Option.bind_some]
      dsimp only
      cases e.leaseJson.unmarshal blob with
      | none => exact .inr ⟨_, rfl, .inr rfl⟩
      | some l => exact .inl ⟨l, rfl, rfl⟩
  · have hread : exec (server.storage env)
        ((Act.get (e.leaseKey id)).context "database: read lease") w
          = (.error (.wrap "database: read lease" err), w.next) :=
      (Act.exec_context_eq_error _ _).mpr ⟨err, hget, rfl⟩
    rw [exec_bind_error _ hread]
    refine .inr ⟨_, rfl, hwhy.imp_right fun hinvalid => ?_⟩
    rw [validKey_leaseKey] at hinvalid
    exact if_neg fun h => by simp [hinvalid] at h

/-! ### The connection -/

/-- The engine has a connection, if it could have one, and nothing else has changed. -/
structure Readied (s s' : Site) : Prop where
  store : s'.vault.store = s.vault.store
  accounts : s'.accounts = s.accounts
  tick : s'.vault.tick = s.vault.tick + if s.ready then 0 else 1
  ready : s'.ready = true
  connected : s'.connected = s.usable e

theorem readConfig_cases (env : Env) (server : Server) (w : World) :
    (∃ url, exec (server.storage env) e.readConfig w = (.ok url, w.next) ∧
        (w.store.lookup e.configKey).bind e.configJson.unmarshal = some url) ∨
      ∃ err, exec (server.storage env) e.readConfig w = (.error err, w.next) ∧
        (env.fails w.tick (.get e.configKey) = true ∨
          (w.store.lookup e.configKey).bind e.configJson.unmarshal = none) := by
  unfold readConfig
  rcases storage_get_cases env server w e.configKey with ⟨hget, -⟩ | ⟨err, hget, hwhy⟩
  · have hread : exec (server.storage env) ((Act.get e.configKey).context "database: read config") w
        = (.ok (w.store.lookup e.configKey), w.next) := (Act.exec_context_eq_ok _ _).mpr hget
    rw [exec_bind_ok _ hread]
    cases w.store.lookup e.configKey with
    | none => exact .inr ⟨_, rfl, .inr rfl⟩
    | some blob =>
      rw [Option.bind_some]
      dsimp only
      cases e.configJson.unmarshal blob with
      | none => exact .inr ⟨_, rfl, .inr rfl⟩
      | some url => exact .inl ⟨url, rfl, rfl⟩
  · have hread : exec (server.storage env) ((Act.get e.configKey).context "database: read config") w
        = (.error (.wrap "database: read config" err), w.next) :=
      (Act.exec_context_eq_error _ _).mpr ⟨err, hget, rfl⟩
    rw [exec_bind_error _ hread]
    exact .inr ⟨_, rfl, .inl (hwhy.resolve_right (by simp [e.validKey_configKey]))⟩

theorem ensureReady_cases {format : Time → Bytes} (env : Env) (server : Server)
    (hplugin : e.plugin = Mariadb.plugin format) (s : Site) :
    (∃ s', exec (server.answer env) e.ensureReady s = (.ok (), s') ∧ e.Readied s s') ∨
      ∃ err s', exec (server.answer env) e.ensureReady s = (.error err, s') ∧
        s'.vault.store = s.vault.store ∧ s'.accounts = s.accounts ∧
        (s.usable e = false ∨ env.fails s.vault.tick (.get e.configKey) = true ∨
          ∃ s₁ url, server.fails s₁ (.connect url) = true) := by
  unfold ensureReady Site.usable
  rw [exec_bind, exec_perform]
  show (∃ s', exec _ (if s.ready = true then _ else _) s = _ ∧ _) ∨
    ∃ err s', exec _ (if s.ready = true then _ else _) s = _ ∧ _
  cases hready : s.ready with
  | true =>
    refine .inl ⟨s, rfl, rfl, rfl, ?_, hready, ?_⟩
    · rw [hready]
      rfl
    · rw [Site.usable, hready]
      rfl
  | false =>
    rw [if_neg Bool.false_ne_true, if_neg Bool.false_ne_true]
    rcases e.readConfig_cases env server s.vault with ⟨url, hread, hurl⟩ | ⟨err, hread, hwhy⟩
    · rw [exec_bind_ok _ (exec_vault_eq hread), hplugin]
      generalize hs₁ : ({ s with vault := s.vault.next } : Site) = s₁
      have hinit : exec (server.answer env)
          (((Mariadb.plugin format).initializePlugin url).context "database: initialize plugin") s₁
            = ((((server.guarded s₁ (.connect url) (.ok (), { s₁ with connected := true })).1).mapError
                (Err.wrap "mariadb: ping")).mapError (Err.wrap "database: initialize plugin"),
              (server.guarded s₁ (.connect url) (.ok (), { s₁ with connected := true })).2) := by
        show exec _ (((DbAct.connect url).context "mariadb: ping").context _) s₁ = _
        rw [exec_context, exec_context]
        rfl
      unfold Server.guarded at hinit
      cases hfails : server.fails s₁ (.connect url) with
      | true =>
        rw [hfails] at hinit
        refine .inr ⟨_, _, exec_bind_error _ hinit _, ?_, ?_, .inr (.inr ⟨_, _, hfails⟩)⟩
        · exact hs₁ ▸ rfl
        · exact hs₁ ▸ rfl
      | false =>
        rw [hfails] at hinit
        rw [exec_bind_ok _ hinit]
        subst hs₁
        refine .inl ⟨_, rfl, rfl, rfl, ?_, rfl, ?_⟩
        · rw [hready]
          rfl
        · rw [Site.usable, hready, if_neg Bool.false_ne_true, hurl]
          rfl
    · rw [exec_bind_error _ (exec_vault_eq hread)]
      refine .inr ⟨_, _, rfl, rfl, rfl, ?_⟩
      rcases hwhy with hf | hnone
      · exact .inr (.inl hf)
      · exact .inl (by rw [hnone]; rfl)

end Engine

/-! ### An engine that computes -/

open Wire

def Role.wire : Wire Role :=
  (bytes.many.pair int).via (fun r => (r.creationStatements, r.defaultTTL)) (fun (l, t) => ⟨l, t⟩)
    fun _ => rfl

def Lease.wire : Wire Lease :=
  (bytes.pair (bytes.pair (bytes.pair (int.pair bytes)))).via
    (fun l => (l.id, l.role, l.username, l.expiration, l.createdBy))
    (fun (id, r, u, t, c) => ⟨id, r, u, t, c⟩) fun _ => rfl

/-- The engine of the vault, with encodings that hide nothing. -/
def Engine.transparent : Engine where
  pfx := str "database"
  validKey_pfx := by decide_cbv
  configJson := bytes.codec
  roleJson := Role.wire.codec
  leaseJson := Lease.wire.codec
  plugin := Mariadb.plugin fun _ => []

end UbixVault.Database
