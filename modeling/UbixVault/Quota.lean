/-
Resource quotas, as package `quota` computes them.

Quotas are enforced from memory.  They are loaded from the storage once after an unseal
and kept current by the calls that write them.  The order in which a map is iterated is
decided outside, so the functions that iterate over one are given the order.

Rates and bursts are exact numbers here, as in the limiter.
-/
import UbixVault.Lib.Crypto
import UbixVault.Outside
import UbixVault.Ratelimit

namespace UbixVault.Quota

open Ratelimit (Limiter)

def storePrefix : Key := str "sys/quotas/rate-limit/"

def configKey : Key := str "sys/quotas/config"

def leaseStorePrefix : Key := str "sys/quotas/lease-count/"

/-- A limit on the rate of requests below a path. -/
structure RateLimitQuota where
  name : Bytes
  path : Bytes
  rate : ℚ
  burst : ℚ
  deriving DecidableEq

def RateLimitQuota.effectiveBurst (q : RateLimitQuota) : ℚ := if q.burst > 0 then q.burst else q.rate

/-- A limit on the number of leases below a path. -/
structure LeaseCountQuota where
  name : Bytes
  path : Bytes
  maxLeases : Int
  deriving DecidableEq

structure LiveQuota where
  spec : RateLimitQuota
  limiter : Limiter

/-- A quota as it comes into force: nobody has used it. -/
def RateLimitQuota.live (q : RateLimitQuota) : LiveQuota := ⟨q, .new q.rate q.effectiveBurst⟩

/-- The quota for paths that have none. -/
structure Config where
  defaultRate : ℚ
  defaultBurst : ℚ
  deriving DecidableEq

/-- Texts that the encoding keeps as they are. -/
def RateLimitQuota.WF (q : RateLimitQuota) : Prop := validUTF8 q.name = true ∧ validUTF8 q.path = true

def LeaseCountQuota.WF (q : LeaseCountQuota) : Prop := validUTF8 q.name = true ∧ validUTF8 q.path = true

/-- How records are written. -/
structure Encoding where
  rateJson : Codec Byte RateLimitQuota RateLimitQuota.WF
  leaseJson : Codec Byte LeaseCountQuota LeaseCountQuota.WF
  configJson : Codec Byte Config fun _ => True

/-- Which limiter the default points to. -/
inductive Default
  | off
  /-- The one that a flag gave. -/
  | seed
  | configured (limiter : Limiter)

structure Manager where
  quotas : Finmap fun _ : Bytes => LiveQuota
  leaseQuotas : Finmap fun _ : Bytes => LeaseCountQuota
  loaded : Bool
  default : Default
  defaultRate : ℚ
  defaultBurst : ℚ
  seedLimiter : Option Limiter

/-- `New`. -/
def Manager.new : Manager := ⟨∅, ∅, false, .off, 0, 0, none⟩

/-- A single segment that a key may have. -/
def validName (name : Bytes) : Bool :=
  if name = [] ∨ slash ∈ name then false else validKey (storePrefix ++ name)

/-- No control characters that end a text or a line. -/
def validPath (path : Bytes) : Bool := path.all fun c => c ≠ 0x00 && c ≠ 0x0a && c ≠ 0x0d

def pathMatches (quotaPath reqPath : Bytes) : Bool := quotaPath = [] || decide (quotaPath <+: reqPath)

/-! ### Defaults -/

namespace Manager

variable (m : Manager)

def defaultLimiter : Option Limiter :=
  match m.default with
  | .off => none
  | .seed => m.seedLimiter
  | .configured l => some l

/-- Use the limiter of the flag, if there is one. -/
def useSeed : Manager :=
  match m.seedLimiter with
  | some l => { m with default := .seed, defaultRate := l.rate, defaultBurst := l.burst }
  | none => { m with default := .seed, defaultRate := 0, defaultBurst := 0 }

def setDefaultLimiter (l : Option Limiter) : Manager := { m with seedLimiter := l }.useSeed

/-- The default that a configuration asks for; without a rate there is none. -/
def setDefaultRate (rate burst : ℚ) : Manager :=
  if rate ≤ 0 then { m with default := .off, defaultRate := 0, defaultBurst := 0 }
  else
    let burst := if burst ≤ 0 then rate else burst
    { m with default := .configured (.new rate burst), defaultRate := rate, defaultBurst := burst }

/-- Forget what was loaded, and go back to the default of the flag. -/
def reset : Manager := { m with quotas := ∅, leaseQuotas := ∅, loaded := false }.useSeed

end Manager

/-! ### Loading -/

/-- A step that may fail and changes the manager. -/
abbrev QuotaM : Type → Type := ExceptT Err (StateT Manager Prog)

/-- The records of the given names, in order; one that is gone is passed over. -/
def readEach {α : Type} (readText decodeText : String) (pfx : Key) (unmarshal : Bytes → Option α) :
    List Key → Act (List α)
  | [] => return []
  | name :: rest => do
      match ← (Act.get (pfx ++ name)).contextAt readText name with
      | none => readEach readText decodeText pfx unmarshal rest
      | some blob =>
        match unmarshal blob with
        | none => throw (.atKey decodeText name .outside)
        | some q => do
            let qs ← readEach readText decodeText pfx unmarshal rest
            return q :: qs

/-- A map of records by a name; of two with one name the later one stays. -/
def byName {α β : Type} (name : α → Bytes) (value : α → β) (qs : List α) : Finmap fun _ : Bytes => β :=
  qs.foldl (fun m q => m.insert (name q) (value q)) ∅

/-- Everything below a prefix. -/
def readAll {α : Type} (listText readText decodeText : String) (pfx : Key) (unmarshal : Bytes → Option α) :
    Act (List α) := do
  let names ← (Act.list pfx).context listText
  readEach readText decodeText pfx unmarshal names

variable (E : Encoding)

def readQuotas : Act (List RateLimitQuota) :=
  readAll "quota: list" "quota: read" "quota: decode" storePrefix E.rateJson.unmarshal

def readLeaseQuotas : Act (List LeaseCountQuota) :=
  readAll "quota: list lease-count" "quota: read lease-count" "quota: decode lease-count" leaseStorePrefix
    E.leaseJson.unmarshal

/-- The configuration that is stored, if there is one. -/
def readConfig : Act (Option Config) := do
  match ← (Act.get configKey).context "quota: read config" with
  | none => return none
  | some blob =>
    match E.configJson.unmarshal blob with
    | none => throw (.wrap "quota: decode config" .outside)
    | some c => return some c

/-- What was loaded, before the default. -/
def Manager.publish (m : Manager) (qs : List RateLimitQuota) (lqs : List LeaseCountQuota) : Manager :=
  { m with
    quotas := byName RateLimitQuota.name RateLimitQuota.live qs
    leaseQuotas := byName LeaseCountQuota.name id lqs
    loaded := true }

def Manager.applyConfig (m : Manager) : Option Config → Manager
  | none => m
  | some c => m.setDefaultRate c.defaultRate c.defaultBurst

def ensureLoaded : QuotaM Unit := do
  let m ← get
  if m.loaded then return ()
  else
    let qs ← Program.stateless (readQuotas E)
    let lqs ← Program.stateless (readLeaseQuotas E)
    -- The quotas are in force from here on, and the manager counts as loaded.
    modify fun m => m.publish qs lqs
    let c ← Program.stateless (readConfig E)
    modify fun m => m.applyConfig c

/-! ### Writing -/

def setConfig (rate burst : ℚ) : QuotaM Unit := do
  Program.stateless ((Act.put configKey (E.configJson.marshal ⟨rate, burst⟩)).context "quota: persist config")
  modify fun m => m.setDefaultRate rate burst

def set (q : RateLimitQuota) : QuotaM Unit :=
  if !validName q.name then throw (.quota .invalidName)
  else if q.rate ≤ 0 then throw (.quota .invalidRate)
  else if !validPath q.path then throw (.quota .invalidPath)
  else do
    Program.stateless ((Act.put (storePrefix ++ q.name) (E.rateJson.marshal q)).context "quota: persist")
    modify fun m => { m with quotas := m.quotas.insert q.name q.live }

def delete (name : Bytes) : QuotaM Unit :=
  if !validName name then throw (.quota .invalidName)
  else do
    Program.stateless ((Act.delete (storePrefix ++ name)).context "quota: delete")
    modify fun m => { m with quotas := m.quotas.erase name }

def setLeaseCount (q : LeaseCountQuota) : QuotaM Unit :=
  if !validName q.name then throw (.quota .invalidName)
  else if q.maxLeases ≤ 0 then throw (.quota .invalidMax)
  else if !validPath q.path then throw (.quota .invalidPath)
  else do
    Program.stateless ((Act.put (leaseStorePrefix ++ q.name) (E.leaseJson.marshal q)).context
      "quota: persist lease-count")
    modify fun m => { m with leaseQuotas := m.leaseQuotas.insert q.name q }

def deleteLeaseCount (name : Bytes) : QuotaM Unit :=
  if !validName name then throw (.quota .invalidName)
  else do
    Program.stateless ((Act.delete (leaseStorePrefix ++ name)).context "quota: delete lease-count")
    modify fun m => { m with leaseQuotas := m.leaseQuotas.erase name }

/-! ### Choosing a quota -/

section Choice

variable {α : Type} (path : α → Bytes) (reqPath : Bytes)

/-- One turn of the loop: a quota that applies and is more specific than the best so far. -/
def better (best : Option α × Int) (q : α) : Option α × Int :=
  if pathMatches (path q) reqPath && decide ((path q).length > best.2) then
    (some q, (path q).length) else best

/-- The quota that applies to a path, when they are gone through in this order. -/
def mostSpecific (order : List α) : Option α := (order.foldl (better path reqPath) (none, -1)).1

end Choice

/-- `MatchLeaseCount`, over the map in the given order. -/
def matchLeaseCount (order : List ((_ : Bytes) × LeaseCountQuota)) (path : Bytes) : Option LeaseCountQuota :=
  mostSpecific LeaseCountQuota.path path (order.map Sigma.snd)

/-- The named quota that `Allow` applies, over the map in the given order. -/
def matchQuota (order : List ((_ : Bytes) × LiveQuota)) (path : Bytes) : Option LiveQuota :=
  mostSpecific (fun q => q.spec.path) path (order.map Sigma.snd)

/-- What `Allow` answers, and which hook it calls for a request that is denied. -/
structure Verdict where
  allowed : Bool
  quota : Bytes
  exceeded : Option Bytes

/-- The limiter of the default has counted a request. -/
def Manager.replaceDefault (m : Manager) (l : Limiter) : Manager :=
  match m.default with
  | .off => m
  | .seed => { m with seedLimiter := some l }
  | .configured _ => { m with default := .configured l }

/-- A request of a client, at a time. -/
def Manager.allow (m : Manager) (order : List ((_ : Bytes) × LiveQuota)) (now : ℚ) (path client : Bytes) :
    Verdict × Manager :=
  match matchQuota order path with
  | some best =>
    let (ok, l) := best.limiter.allow now client
    (⟨ok, best.spec.name, if ok then none else some best.spec.name⟩,
      { m with quotas := m.quotas.insert best.spec.name ⟨best.spec, l⟩ })
  | none =>
    match m.defaultLimiter with
    | some l =>
      let (ok, l') := l.allow now client
      (⟨ok, [], if ok then none else some (str "default")⟩, m.replaceDefault l')
    | none => (⟨true, [], none⟩, m)

end UbixVault.Quota
