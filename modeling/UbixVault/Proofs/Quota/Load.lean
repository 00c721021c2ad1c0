/-
Loading the quotas again after a failure.

A load reads the rate limits, the lease counts and the configuration, in this order.
What each of the three reads does is said once, by whether everything it asks for can
be read.  The quotas come into force before the configuration is read, so a load that
fails there has changed the manager and is not repeated: this is the only failure that
is not retried.
-/
import UbixVault.Proofs.Platform
import UbixVault.Proofs.Storage
import UbixVault.Quota

namespace UbixVault.Quota

open Program

variable {α : Type} {env : Env}

/-! ### What can be read -/

section Records

variable (env : Env) (s : Store) (pfx : Key) (unmarshal : Bytes → Option α)

/-- Every record of the names can be read and decoded, from call `t` on. -/
def Intact : Nat → List Key → Prop
  | _, [] => True
  | t, name :: rest =>
    (env.fails t (.get (pfx ++ name)) = false ∧ validKey (pfx ++ name) = true ∧
      ∀ blob, s.lookup (pfx ++ name) = some blob → (unmarshal blob).isSome = true) ∧
    Intact (t + 1) rest

/-- The names below the prefix can be listed and their records can be read. -/
def Readable (t : Nat) : Prop :=
  env.fails t (.list pfx) = false ∧ Intact env s pfx unmarshal (t + 1) (s.list pfx)

/-- The records of the names. -/
def records (names : List Key) : List α := names.filterMap fun name => (s.lookup (pfx ++ name)).bind unmarshal

/-- The number of the call after those that read everything below the prefix. -/
def readUntil (t : Nat) : Nat := t + 1 + (s.list pfx).length

end Records

theorem records_cons_none {s : Store} {pfx name : Key} {unmarshal : Bytes → Option α} (names : List Key)
    (h : s.lookup (pfx ++ name) = none) :
    records s pfx unmarshal (name :: names) = records s pfx unmarshal names :=
  List.filterMap_cons_none (by rw [h]; rfl)

theorem records_cons_some {s : Store} {pfx name : Key} {unmarshal : Bytes → Option α} {blob : Bytes} {q : α}
    (names : List Key) (h : s.lookup (pfx ++ name) = some blob) (hq : unmarshal blob = some q) :
    records s pfx unmarshal (name :: names) = q :: records s pfx unmarshal names :=
  List.filterMap_cons_some (by rw [h]; exact hq)

/-! ### The three reads -/

/-- A read of a record returns what is stored, or it fails. -/
theorem exec_get_cases (env : Env) (w : World) (text : String) (name key : Key) :
    (env.fails w.tick (.get key) = false ∧ validKey key = true ∧
      exec env.answer ((Act.get key).contextAt text name) w = (.ok (w.store.lookup key), w.next)) ∨
    ∃ e, exec env.answer ((Act.get key).contextAt text name) w = (.error e, w.next) ∧
      (env.fails w.tick (.get key) = true ∨ validKey key = false) := by
  rw [Act.contextAt, Act.exec_adapt, Act.exec_get]
  cases hfails : env.fails w.tick (.get key) with
  | true => exact .inr ⟨_, by rw [Env.answer, Env.guarded_fail hfails], .inl rfl⟩
  | false =>
    cases hvalid : validKey key with
    | true => exact .inl ⟨rfl, rfl, by rw [Env.answer_get hfails hvalid]⟩
    | false =>
      refine .inr ⟨.atKey text name (.storage .invalidKey), ?_, .inr rfl⟩
      rw [Env.answer, hvalid, Env.guarded, hfails]
      rfl

section ReadEach

variable {readText decodeText : String} {pfx : Key} {unmarshal : Bytes → Option α}

theorem exec_readEach (names : List Key) (w : World) (h : Intact env w.store pfx unmarshal w.tick names) :
    exec env.answer (readEach readText decodeText pfx unmarshal names) w
      = (.ok (records w.store pfx unmarshal names), ⟨w.store, w.tick + names.length⟩) := by
  induction names generalizing w with
  | nil => rfl
  | cons name rest ih =>
    obtain ⟨⟨hok, hvalid, hdecodes⟩, hrest⟩ := h
    have hget : exec env.answer ((Act.get (pfx ++ name)).contextAt readText name) w
        = (.ok (w.store.lookup (pfx ++ name)), w.next) := by
      rw [Act.contextAt, Act.exec_adapt, Act.exec_get, Env.answer_get hok hvalid]
    have ih' := ih w.next hrest
    have hticks : w.next.tick + rest.length = w.tick + (name :: rest).length := by
      rw [World.next_tick, List.length_cons]
      omega
    rw [hticks] at ih'
    unfold readEach
    rw [exec_bind_ok _ hget]
    cases hlookup : w.store.lookup (pfx ++ name) with
    | none =>
      rw [records_cons_none _ hlookup]
      exact ih'
    | some blob =>
      obtain ⟨q, hq⟩ := Option.isSome_iff_exists.mp (hdecodes blob hlookup)
      rw [records_cons_some _ hlookup hq]
      simp only [hq]
      rw [exec_bind_ok _ ih']
      rfl

theorem exec_readEach_broken (names : List Key) (w : World)
    (h : ¬ Intact env w.store pfx unmarshal w.tick names) :
    ∃ e w', exec env.answer (readEach readText decodeText pfx unmarshal names) w = (.error e, w') := by
  induction names generalizing w with
  | nil => exact absurd trivial h
  | cons name rest ih =>
    unfold readEach
    rcases exec_get_cases env w readText name (pfx ++ name) with ⟨hok, hvalid, hget⟩ | ⟨e, hget, -⟩
    · rw [exec_bind_ok _ hget]
      cases hlookup : w.store.lookup (pfx ++ name) with
      | none =>
        refine ih w.next fun hrest => h ⟨⟨hok, hvalid, fun blob hblob => ?_⟩, hrest⟩
        rw [hlookup] at hblob
        cases hblob
      | some blob =>
        cases hq : unmarshal blob with
        | none =>
          simp only [hq]
          exact ⟨_, _, rfl⟩
        | some q =>
          have hrest : ¬ Intact env w.next.store pfx unmarshal w.next.tick rest := by
            intro hrest
            refine h ⟨⟨hok, hvalid, fun blob' hblob' => ?_⟩, hrest⟩
            rw [hlookup] at hblob'
            rw [← Option.some.inj hblob', hq]
            rfl
          obtain ⟨e, w', hfail⟩ := ih w.next hrest
          simp only [hq]
          exact ⟨e, w', exec_bind_error _ hfail _⟩
    · exact ⟨_, _, exec_bind_error _ hget _⟩

end ReadEach

section ReadAll

variable {listText readText decodeText : String} {pfx : Key} {unmarshal : Bytes → Option α}

theorem exec_readAll (w : World) (hpfx : validPrefix pfx = true)
    (h : Readable env w.store pfx unmarshal w.tick) :
    exec env.answer (readAll listText readText decodeText pfx unmarshal) w
      = (.ok (records w.store pfx unmarshal (w.store.list pfx)),
        ⟨w.store, readUntil w.store pfx w.tick⟩) := by
  have hlist : exec env.answer ((Act.list pfx).context listText) w = (.ok (w.store.list pfx), w.next) := by
    rw [Act.exec_context, Act.exec_list, Env.answer_list h.1 hpfx]
  unfold readAll
  rw [exec_bind_ok _ hlist]
  exact exec_readEach (w.store.list pfx) w.next h.2

theorem exec_readAll_broken (w : World) (hpfx : validPrefix pfx = true)
    (h : ¬ Readable env w.store pfx unmarshal w.tick) :
    ∃ e w', exec env.answer (readAll listText readText decodeText pfx unmarshal) w = (.error e, w') := by
  unfold readAll
  cases hfails : env.fails w.tick (.list pfx) with
  | true =>
    have hlist : exec env.answer ((Act.list pfx).context listText) w
        = (.error (.wrap listText .outside), w.next) := by
      rw [Act.exec_context, Act.exec_list, Env.answer, Env.guarded_fail hfails]
    exact ⟨_, _, exec_bind_error _ hlist _⟩
  | false =>
    have hlist : exec env.answer ((Act.list pfx).context listText) w = (.ok (w.store.list pfx), w.next) := by
      rw [Act.exec_context, Act.exec_list, Env.answer_list hfails hpfx]
    rw [exec_bind_ok _ hlist]
    exact exec_readEach_broken (w.store.list pfx) w.next fun hrest => h ⟨hfails, hrest⟩

end ReadAll

section Config

variable (E : Encoding)

/-- The configuration can be read and decoded, at call `t`. -/
def ConfigReadable (env : Env) (s : Store) (t : Nat) : Prop :=
  env.fails t (.get configKey) = false ∧
    ∀ blob, s.lookup configKey = some blob → (E.configJson.unmarshal blob).isSome = true

/-- The configuration that the storage holds. -/
def storedConfig (s : Store) : Option Config := (s.lookup configKey).bind E.configJson.unmarshal

theorem validKey_configKey : validKey configKey = true := by decide_cbv

theorem exec_readConfig (w : World) (h : ConfigReadable E env w.store w.tick) :
    exec env.answer (readConfig E) w = (.ok (storedConfig E w.store), w.next) := by
  have hget : exec env.answer ((Act.get configKey).context "quota: read config") w
      = (.ok (w.store.lookup configKey), w.next) := by
    rw [Act.exec_context, Act.exec_get, Env.answer_get h.1 validKey_configKey]
  unfold readConfig storedConfig
  rw [exec_bind_ok _ hget]
  cases hlookup : w.store.lookup configKey with
  | none => rfl
  | some blob =>
    obtain ⟨c, hc⟩ := Option.isSome_iff_exists.mp (h.2 blob hlookup)
    simp only [Option.bind_some, hc]
    rfl

theorem exec_readConfig_broken (w : World) (h : ¬ ConfigReadable E env w.store w.tick) :
    ∃ e w', exec env.answer (readConfig E) w = (.error e, w') := by
  unfold readConfig
  cases hfails : env.fails w.tick (.get configKey) with
  | true =>
    have hget : exec env.answer ((Act.get configKey).context "quota: read config") w
        = (.error (.wrap "quota: read config" .outside), w.next) := by
      rw [Act.exec_context, Act.exec_get, Env.answer, Env.guarded_fail hfails]
    exact ⟨_, _, exec_bind_error _ hget _⟩
  | false =>
    have hget : exec env.answer ((Act.get configKey).context "quota: read config") w
        = (.ok (w.store.lookup configKey), w.next) := by
      rw [Act.exec_context, Act.exec_get, Env.answer_get hfails validKey_configKey]
    rw [exec_bind_ok _ hget]
    cases hlookup : w.store.lookup configKey with
    | none =>
      refine absurd ⟨hfails, fun blob hblob => ?_⟩ h
      rw [hlookup] at hblob
      cases hblob
    | some blob =>
      cases hc : E.configJson.unmarshal blob with
      | none =>
        simp only [hc]
        exact ⟨_, _, rfl⟩
      | some c =>
        refine absurd ⟨hfails, fun blob' hblob' => ?_⟩ h
        rw [hlookup] at hblob'
        rw [← Option.some.inj hblob', hc]
        rfl

end Config

/-! ### One load -/

section Load

variable (E : Encoding)

/-- The rate limits that the storage holds, by their names. -/
def storedQuotas (s : Store) : Finmap fun _ : Bytes => LiveQuota :=
  byName RateLimitQuota.name RateLimitQuota.live
    (records s storePrefix E.rateJson.unmarshal (s.list storePrefix))

/-- The lease counts that the storage holds, by their names. -/
def storedLeaseQuotas (s : Store) : Finmap fun _ : Bytes => LeaseCountQuota :=
  byName LeaseCountQuota.name id (records s leaseStorePrefix E.leaseJson.unmarshal (s.list leaseStorePrefix))

/-- All quotas can be read. -/
def QuotasReadable (env : Env) (w : World) : Prop :=
  Readable env w.store storePrefix E.rateJson.unmarshal w.tick ∧
    Readable env w.store leaseStorePrefix E.leaseJson.unmarshal (readUntil w.store storePrefix w.tick)

/-- The number of the call that reads the configuration. -/
def configTick (w : World) : Nat := readUntil w.store leaseStorePrefix (readUntil w.store storePrefix w.tick)

theorem validPrefix_storePrefix : validPrefix storePrefix = true := by decide_cbv

theorem validPrefix_leaseStorePrefix : validPrefix leaseStorePrefix = true := by decide_cbv

/-- The manager after the quotas have been read. -/
def Manager.withStored (m : Manager) (s : Store) : Manager :=
  { m with quotas := storedQuotas E s, leaseQuotas := storedLeaseQuotas E s, loaded := true }

variable {E} {m : Manager} {w : World}

theorem load_loaded (h : m.loaded = true) : execState env.answer (ensureLoaded E) m w = ((.ok (), m), w) := by
  unfold ensureLoaded
  rw [execState_bind_ok env.answer (execState_get env.answer m w), if_pos h]
  rfl

theorem load_unloaded (h : m.loaded = false) :
    execState env.answer (ensureLoaded E) m w
      = execState env.answer (do
          let qs ← Program.stateless (readQuotas E)
          let lqs ← Program.stateless (readLeaseQuotas E)
          modify fun m => m.publish qs lqs
          let c ← Program.stateless (readConfig E)
          modify fun m => m.applyConfig c) m w := by
  unfold ensureLoaded
  rw [execState_bind_ok env.answer (execState_get env.answer m w), if_neg (by simp [h])]

/-- A load that cannot read the quotas changes nothing. -/
theorem load_quotas_broken (hm : m.loaded = false) (h : ¬ QuotasReadable E env w) :
    ∃ e w', execState env.answer (ensureLoaded E) m w = ((.error e, m), w') := by
  rw [load_unloaded hm]
  by_cases hquotas : Readable env w.store storePrefix E.rateJson.unmarshal w.tick
  · have hread : exec env.answer (readQuotas E) w = _ := exec_readAll w validPrefix_storePrefix hquotas
    obtain ⟨e, w', hfail⟩ : ∃ e w', exec env.answer (readLeaseQuotas E) _ = (.error e, w') :=
      exec_readAll_broken ⟨w.store, readUntil w.store storePrefix w.tick⟩ validPrefix_leaseStorePrefix
        fun hlease => h ⟨hquotas, hlease⟩
    refine ⟨e, w', ?_⟩
    rw [execState_bind_ok _ (execState_stateless_eq _ hread m)]
    exact execState_bind_error _ (execState_stateless_eq _ hfail _) _
  · obtain ⟨e, w', hfail⟩ : ∃ e w', exec env.answer (readQuotas E) w = (.error e, w') :=
      exec_readAll_broken w validPrefix_storePrefix hquotas
    exact ⟨e, w', execState_bind_error _ (execState_stateless_eq _ hfail _) _⟩

/-- A load that can read the quotas goes on with the configuration. -/
theorem load_quotas (hm : m.loaded = false) (h : QuotasReadable E env w) :
    execState env.answer (ensureLoaded E) m w
      = execState env.answer (do
          let c ← Program.stateless (readConfig E)
          modify fun m => m.applyConfig c) (m.withStored E w.store) ⟨w.store, configTick w⟩ := by
  have hread : exec env.answer (readQuotas E) w = _ := exec_readAll w validPrefix_storePrefix h.1
  have hreadLease : exec env.answer (readLeaseQuotas E) _ = _ :=
    exec_readAll ⟨w.store, readUntil w.store storePrefix w.tick⟩ validPrefix_leaseStorePrefix h.2
  rw [load_unloaded hm, execState_bind_ok _ (execState_stateless_eq _ hread m),
    execState_bind_ok _ (execState_stateless_eq _ hreadLease m),
    execState_bind_ok _ (execState_modify env.answer _ m _)]
  rfl

theorem load_complete (hm : m.loaded = false) (h : QuotasReadable E env w)
    (hconfig : ConfigReadable E env w.store (configTick w)) :
    execState env.answer (ensureLoaded E) m w
      = ((.ok (), (m.withStored E w.store).applyConfig (storedConfig E w.store)),
        ⟨w.store, configTick w + 1⟩) := by
  have hread := exec_readConfig E ⟨w.store, configTick w⟩ hconfig
  rw [load_quotas hm h, execState_bind_ok _ (execState_stateless_eq _ hread _), execState_modify]
  rfl

/-- The quotas stay in force when the configuration cannot be read. -/
theorem load_config_broken (hm : m.loaded = false) (h : QuotasReadable E env w)
    (hconfig : ¬ ConfigReadable E env w.store (configTick w)) :
    ∃ e w', execState env.answer (ensureLoaded E) m w = ((.error e, m.withStored E w.store), w') := by
  obtain ⟨e, w', hfail⟩ := exec_readConfig_broken E ⟨w.store, configTick w⟩ hconfig
  exact ⟨e, w', by rw [load_quotas hm h]; exact execState_bind_error _ (execState_stateless_eq _ hfail _) _⟩

end Load

/-! ### Retrying -/

section Retry

variable (E : Encoding)

/-- The default limit that a configuration asks for, and the one of before if there is none. -/
def DefaultFrom (c : Option Config) (m m' : Manager) : Prop :=
  match c with
  | none => m'.defaultLimiter = m.defaultLimiter ∧ m'.defaultRate = m.defaultRate ∧
      m'.defaultBurst = m.defaultBurst
  | some c =>
    if 0 < c.defaultRate then
      let burst := if 0 < c.defaultBurst then c.defaultBurst else c.defaultRate
      m'.defaultLimiter = some (.new c.defaultRate burst) ∧ m'.defaultRate = c.defaultRate ∧
        m'.defaultBurst = burst
    else m'.defaultLimiter = none ∧ m'.defaultRate = 0 ∧ m'.defaultBurst = 0

/-- What a manager enforces is what the storage holds; it was `m` before the load. -/
structure Enforces (s : Store) (m m' : Manager) : Prop where
  quotas : m'.quotas = storedQuotas E s
  leaseQuotas : m'.leaseQuotas = storedLeaseQuotas E s
  default : DefaultFrom (storedConfig E s) m m'

/-- A load that fails leaves the manager as it was, and the next one that meets no failure
succeeds and ends with what the storage holds. -/
def RetriesLoad (env : Env) (m : Manager) (w : World) : Prop :=
  ∀ e m' w', execState env.answer (ensureLoaded E) m w = ((.error e, m'), w') →
    m'.loaded = false ∧ m' = m ∧
      ∀ (env' : Env) (v : World), QuotasReadable E env' v →
        ConfigReadable E env' v.store (configTick v) →
        ∃ m'' v', execState env'.answer (ensureLoaded E) m' v = ((.ok (), m''), v') ∧
          Enforces E v.store m m''

variable {E}

theorem enforces_applyConfig (m : Manager) (s : Store) :
    Enforces E s m ((m.withStored E s).applyConfig (storedConfig E s)) := by
  cases hc : storedConfig E s with
  | none => exact ⟨rfl, rfl, by rw [hc]; exact ⟨rfl, rfl, rfl⟩⟩
  | some c =>
    show Enforces E s m ((m.withStored E s).setDefaultRate c.defaultRate c.defaultBurst)
    unfold Manager.setDefaultRate
    by_cases hrate : 0 < c.defaultRate
    · rw [if_neg (not_le.mpr hrate)]
      refine ⟨rfl, rfl, ?_⟩
      have hburst : (if 0 < c.defaultBurst then c.defaultBurst else c.defaultRate)
          = if c.defaultBurst ≤ 0 then c.defaultRate else c.defaultBurst := by
        simp only [← not_lt, ite_not]
      rw [hc, DefaultFrom, if_pos hrate, hburst]
      exact ⟨rfl, rfl, rfl⟩
    · rw [if_pos (not_lt.mp hrate)]
      refine ⟨rfl, rfl, ?_⟩
      rw [hc, DefaultFrom, if_neg hrate]
      exact ⟨rfl, rfl, rfl⟩

/-- A failed load is retried unless it was the configuration that could not be read. -/
theorem retriesLoad_iff (env : Env) (m : Manager) (w : World) :
    RetriesLoad E env m w ↔
      (m.loaded = false → QuotasReadable E env w → ConfigReadable E env w.store (configTick w)) := by
  constructor
  · intro h hm hquotas
    by_contra hconfig
    obtain ⟨e, w', hfail⟩ := load_config_broken hm hquotas hconfig
    exact absurd (h _ _ _ hfail).1 (by simp [Manager.withStored])
  · intro h e m' w' hrun
    cases hm : m.loaded with
    | true =>
      rw [load_loaded hm] at hrun
      simp at hrun
    | false =>
      have hm' : m' = m := by
        by_cases hquotas : QuotasReadable E env w
        · rw [load_complete hm hquotas (h hm hquotas)] at hrun
          simp at hrun
        · obtain ⟨e, w'', hfail⟩ := load_quotas_broken hm hquotas
          rw [hfail] at hrun
          simp only [Prod.mk.injEq] at hrun
          exact hrun.1.2.symm
      subst hm'
      exact ⟨hm, rfl, fun env' v hquotas hconfig =>
        ⟨_, _, load_complete hm hquotas hconfig, enforces_applyConfig _ _⟩⟩

end Retry

/-! ### A configuration that stays unread -/

def RateLimitQuota.wire : Wire RateLimitQuota :=
  (Wire.bytes.pair (Wire.bytes.pair (Wire.rat.pair Wire.rat))).via
    (fun q => (q.name, q.path, q.rate, q.burst)) (fun q => ⟨q.1, q.2.1, q.2.2.1, q.2.2.2⟩)
    fun _ => rfl

def LeaseCountQuota.wire : Wire LeaseCountQuota :=
  (Wire.bytes.pair (Wire.bytes.pair Wire.int)).via (fun q => (q.name, q.path, q.maxLeases))
    (fun q => ⟨q.1, q.2.1, q.2.2⟩) fun _ => rfl

def Config.wire : Wire Config :=
  (Wire.rat.pair Wire.rat).via (fun c => (c.defaultRate, c.defaultBurst)) (fun c => ⟨c.1, c.2⟩)
    fun _ => rfl

/-- Encodings that hide nothing. -/
def Encoding.transparent : Encoding where
  rateJson := RateLimitQuota.wire.codec
  leaseJson := LeaseCountQuota.wire.codec
  configJson := Config.wire.codec

/-- Five requests a second, by configuration only. -/
def configured : Store := Finmap.singleton configKey (Encoding.transparent.configJson.marshal ⟨5, 5⟩)

/-- A backend where one read of the configuration fails. -/
def configUnavailable : Env := .failing fun _ call => call == .get configKey

theorem quotasReadable_configured (t : Nat) :
    QuotasReadable Encoding.transparent configUnavailable ⟨configured, t⟩ := by
  have hquotas : configured.list storePrefix = [] := by decide +kernel
  have hlease : configured.list leaseStorePrefix = [] := by decide +kernel
  refine ⟨⟨rfl, ?_⟩, rfl, ?_⟩
  · rw [hquotas]
    trivial
  · rw [hlease]
    trivial

/-- The read of the configuration fails once; no later call reads it, and there is no
limit although the storage holds one. -/
theorem failed_load_not_retried :
    ¬ RetriesLoad Encoding.transparent configUnavailable .new ⟨configured, 0⟩ ∧
    storedConfig Encoding.transparent configured = some ⟨5, 5⟩ ∧
    ∃ e m w, execState configUnavailable.answer (ensureLoaded Encoding.transparent) .new ⟨configured, 0⟩
        = ((.error e, m), w) ∧
      ∀ (env : Env) (v : World),
        execState env.answer (ensureLoaded Encoding.transparent) m v = ((.ok (), m), v) ∧
        m.defaultLimiter = none := by
  have hconfig : ¬ ConfigReadable Encoding.transparent configUnavailable configured
      (configTick ⟨configured, 0⟩) := by
    intro h
    have hfails := h.1
    simp [configUnavailable, Env.failing] at hfails
  obtain ⟨e, w, hfail⟩ := load_config_broken (m := .new) rfl (quotasReadable_configured 0) hconfig
  refine ⟨?_, by decide +kernel, e, _, w, hfail, fun env v => ⟨load_loaded rfl, rfl⟩⟩
  intro h
  exact absurd (h _ _ _ hfail).1 (by simp [Manager.withStored])

end UbixVault.Quota
