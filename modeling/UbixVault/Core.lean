/-
The core: initialization, sealing, rekeying and root regeneration, as package
`core` computes them.

A call runs under the core's lock, so it is one program over the core's in-memory
state.  Where the source undoes something before it returns an error (seals the
barrier again, drops the gathered shares, ends an attempt), the call is marked
with `onError` and what is undone; a call without the mark leaves everything as
it was.
-/
import UbixVault.Barrier
import UbixVault.Shamir
import UbixVault.Token

namespace UbixVault

open Program (stateless ensuring onError outcome)
open Shamir (Share)

def masterKeySize : Nat := 32

def recoveryKeySize : Nat := 32

def sealConfigPath : Key := str "core/seal-config"

def wrappedMasterKeyPath : Key := str "core/auto-master"

/-! ### Data -/

/-- The auto-unseal modes: a local key, a remote Transit engine, an operator's command. -/
inductive AutoSeal
  | auto | transit | external
  deriving DecidableEq, Repr

inductive SealType
  | shamir
  | autoUnseal (mode : AutoSeal)
  deriving DecidableEq, Repr

def isAutoSeal : SealType → Bool
  | .shamir => false
  | .autoUnseal _ => true

/-- The stored seal configuration; `none` as type stands for a config older than seal types. -/
structure SealConfig where
  type : Option SealType
  shares : Int
  threshold : Int
  recoveryHash : Bytes
  deriving DecidableEq

def SealConfig.kind (cfg : SealConfig) : SealType := cfg.type.getD .shamir

/-- What the core takes from outside its repository: cipher, hash and JSON. -/
structure Platform where
  aead : Aead Byte
  sha256 : Hash Byte
  sealConfigJson : Codec Byte SealConfig fun _ => True
  tokenJson : Codec Byte Token Token.WF

/-- The core's token store. -/
def Platform.tokens (P : Platform) : TokenStore := ⟨P.sha256, P.tokenJson, defaultMaxTTL⟩

structure InitConfig where
  secretShares : Int
  secretThreshold : Int
  deriving DecidableEq

structure InitResult where
  keys : List Share
  recoveryKeys : List Share
  rootToken : Bytes
  deriving DecidableEq

structure SealStatus where
  initialized : Bool
  sealed : Bool
  type : Option SealType
  shares : Int
  threshold : Int
  progress : Nat
  deriving DecidableEq

structure RootGenStatus where
  started : Bool
  nonce : Bytes
  progress : Nat
  required : Int
  complete : Bool
  /-- Set only by the update that completes the attempt. -/
  rootToken : Bytes
  deriving DecidableEq

structure RootGen where
  nonce : Bytes
  progress : List Share
  deriving DecidableEq

structure RekeyStatus where
  started : Bool
  nonce : Bytes
  progress : Nat
  required : Int
  newShares : Int
  newThreshold : Int
  complete : Bool
  /-- The new unseal shares, set only on completion. -/
  keys : List Share
  deriving DecidableEq

structure RekeyAttempt where
  nonce : Bytes
  newShares : Int
  newThreshold : Int
  progress : List Share
  deriving DecidableEq

/-- The in-memory state of a core. -/
structure Core where
  /-- The auto-unseal seal; `none` means Shamir mode. -/
  autoSeal : Option AutoSeal
  ha : Bool
  barrier : Barrier
  progress : List Share
  rootAttempt : Option RootGen
  rekey : Option RekeyAttempt

/-- A core as it starts: sealed, with nothing gathered. -/
def Core.new (autoSeal : Option AutoSeal) (ha : Bool) : Core :=
  { autoSeal, ha, barrier := .new, progress := [], rootAttempt := none, rekey := none }

namespace Core

def sealBarrier (c : Core) : Core := { c with barrier := c.barrier.seal }

def resetProgress (c : Core) : Core := { c with progress := [] }

def endRootAttempt (c : Core) : Core := { c with rootAttempt := none }

def endRekey (c : Core) : Core := { c with rekey := none }

def statusLocked (c : Core) (cfg : SealConfig) (sealed : Bool) : SealStatus :=
  { initialized := true, sealed, type := cfg.type, shares := cfg.shares
    threshold := cfg.threshold, progress := c.progress.length }

end Core

/-- Programs of the core: over its state and the outside, possibly failing. -/
abbrev CoreM : Type → Type := ExceptT Err (StateT Core Prog)

/-- Add a share unless it has been supplied already. -/
def gather (progress : List Share) (share : Share) : List Share :=
  if share ∈ progress then progress else progress ++ [share]

/-- A k-of-n configuration that can be shared out. -/
def validShares (shares threshold : Int) : Bool :=
  2 ≤ shares && shares ≤ 255 && 2 ≤ threshold && threshold ≤ shares

/-- A random hex nonce. -/
def randomNonce : Act Bytes := do
  let b ← (Act.randRead 16).context "core: generate nonce"
  return hexEncode b.val

/-- What `Unseal` makes of an error of the barrier. -/
def unsealError (e : Err) : Err :=
  if e.is (.barrier .invalidKey) then .core .unsealFailed else .wrap "core: unseal barrier" e

variable (P : Platform)

def writeSealConfig (cfg : SealConfig) : Act Unit :=
  (Act.put sealConfigPath (P.sealConfigJson.marshal cfg)).context "core: persist seal config"

def readSealConfig : Act SealConfig := do
  match ← (Act.get sealConfigPath).context "core: read seal config" with
  | none => throw (.core .notInitialized)
  | some data =>
    match P.sealConfigJson.unmarshal data with
    | none => throw (.wrap "core: parse seal config" .outside)
    | some cfg => return { cfg with type := some cfg.kind }

namespace Core

/-! ### Initialization -/

/-- Auto-unseal mode defaults to five recovery shares, three required. -/
def initConfig (c : Core) (cfg : InitConfig) : InitConfig :=
  if c.autoSeal.isSome ∧ cfg.secretShares = 0 ∧ cfg.secretThreshold = 0 then ⟨5, 3⟩ else cfg

/-- Auto mode: wrap the master key, hand out recovery shares, stay unsealed. -/
def initAuto (cfg : InitConfig) (mode : AutoSeal) (masterKey : Bytes) (root : Token) :
    CoreM InitResult := do
  let wrapped ← onError sealBarrier (Act.wrap masterKey)
  onError sealBarrier
    ((Act.put wrappedMasterKeyPath wrapped).context "core: persist wrapped master key")
  let recoveryKey ← onError sealBarrier
    ((Act.randRead recoveryKeySize).context "core: generate recovery key")
  let recoveryShares ← onError sealBarrier
    ((Shamir.split recoveryKey.val cfg.secretShares cfg.secretThreshold).context
      "core: split recovery key")
  -- Unlike on the errors before, the barrier stays unsealed when this write fails.
  stateless (writeSealConfig P {
    type := some (.autoUnseal mode)
    shares := cfg.secretShares
    threshold := cfg.secretThreshold
    recoveryHash := P.sha256.sum recoveryKey.val })
  return { keys := [], recoveryKeys := recoveryShares, rootToken := root.id }

/-- Shamir mode: seal again and hand out the shares of the master key. -/
def initShamir (cfg : InitConfig) (masterKey : Bytes) (root : Token) : CoreM InitResult := do
  modify sealBarrier
  let shares ← stateless
    ((Shamir.split masterKey cfg.secretShares cfg.secretThreshold).context
      "core: split master key")
  stateless (writeSealConfig P {
    type := some .shamir
    shares := cfg.secretShares
    threshold := cfg.secretThreshold
    recoveryHash := [] })
  return { keys := shares, recoveryKeys := [], rootToken := root.id }

/-- Unseal with the new master key, create the root token, and hand out the shares. -/
def initUnsealed (cfg : InitConfig) (masterKey : Bytes) : CoreM InitResult := do
  let c ← get
  let barrier ← stateless
    ((c.barrier.unseal P.aead masterKey).context "core: unseal for init")
  set { c with barrier := barrier }
  let root ← onError sealBarrier
    ((barrier.through P.aead P.tokens.createRoot).context "core: create root token")
  match c.autoSeal with
  | some mode => initAuto P cfg mode masterKey root
  | none => initShamir P cfg masterKey root

def initLocked (cfg : InitConfig) : CoreM InitResult := do
  let initialized ← stateless Barrier.initialized
  if initialized then throw (.core .alreadyInitialized)
  else do
    let masterKey ← stateless
      ((Act.randRead masterKeySize).context "core: generate master key")
    stateless
      ((Barrier.initializeKeyring P.aead masterKey.val).context "core: initialize barrier")
    initUnsealed P cfg masterKey.val

/-- Give the HA lock back; whether that works is not looked at. -/
def releaseLock : Prog Unit := do
  let _ ← Act.releaseLock.run
  return ()

/-- `Initialize`. -/
def initializeVault (cfg : InitConfig) : CoreM InitResult := do
  let c ← get
  let cfg := c.initConfig cfg
  if validShares cfg.secretShares cfg.secretThreshold then
    if c.ha then do
      let initialized ← stateless Barrier.initialized
      if initialized then throw (.core .alreadyInitialized)
      else do
        stateless (Act.acquireLock.context "core: acquire HA lock to initialize")
        ensuring (initLocked P cfg) releaseLock
    else initLocked P cfg
  else throw (.core .invalidConfig)

/-! ### Unsealing and sealing -/

def autoUnseal : CoreM Unit := do
  let c ← get
  if c.autoSeal.isNone then throw (.core .autoUnsealNotConfigured)
  else if c.barrier.sealed then do
    let cfg ← stateless (readSealConfig P)
    if isAutoSeal cfg.kind then do
      match ← stateless
        ((Act.get wrappedMasterKeyPath).context "core: read wrapped master key") with
      | none => throw (.text "core: wrapped master key missing")
      | some wrapped => do
          let masterKey ← stateless (Act.unwrap wrapped)
          let barrier ← stateless
            ((c.barrier.unseal P.aead masterKey).context "core: auto-unseal barrier")
          set { c with barrier := barrier }
    else throw (.core .notAutoUnseal)
  else return ()

/-- Combine the gathered shares and try the key on the barrier. -/
def unsealQuorum (cfg : SealConfig) (progress : List Share) : CoreM SealStatus := do
  let masterKey ← onError resetProgress
    ((Act.ofExcept (Shamir.combine progress)).context "core: combine shares")
  let c ← get
  let barrier ← onError resetProgress
    (ExceptT.adapt unsealError (c.barrier.unseal P.aead masterKey))
  set { c with barrier := barrier, progress := [] }
  return statusLocked { c with progress := [] } cfg false

end Core

/-- Supply one unseal share. -/
def Core.unseal (share : Share) : CoreM SealStatus :=
  if share.length ≠ masterKeySize + 1 then throw (.core .invalidShare)
  else do
    let cfg ← stateless (readSealConfig P)
    if isAutoSeal cfg.kind then throw (.core .autoUnsealShamir)
    else do
      let c ← get
      if c.barrier.sealed then do
        let progress := gather c.progress share
        set { c with progress := progress }
        if (progress.length : Int) < cfg.threshold then
          return statusLocked { c with progress := progress } cfg true
        else unsealQuorum P cfg progress
      else return c.statusLocked cfg false

/-- Seal the barrier and drop the gathered unseal shares. -/
def Core.seal : CoreM Unit := modify fun c => c.sealBarrier.resetProgress

namespace Core

def status : CoreM SealStatus := do
  let c ← get
  match ← outcome (readSealConfig P) with
  | .error e =>
    if e.is (.core .notInitialized) then
      return { initialized := false, sealed := true, type := none, shares := 0
               threshold := 0, progress := 0 }
    else throw e
  | .ok cfg => return c.statusLocked cfg c.barrier.sealed

/-! ### Regenerating the root token -/

def generateRootInit : CoreM RootGenStatus := do
  let cfg ← stateless (readSealConfig P)
  if isAutoSeal cfg.kind ∧ cfg.recoveryHash = [] then throw (.core .rootGenNoRecovery)
  else do
    let c ← get
    if c.barrier.sealed then throw (.core .rootGenSealed)
    else do
      let nonce ← stateless randomNonce
      set { c with rootAttempt := some ⟨nonce, []⟩ }
      return { started := true, nonce, progress := 0, required := cfg.threshold
               complete := false, rootToken := [] }

/-- Whether the combined shares are the master key, or in auto mode the recovery key. -/
def verifyCombined (cfg : SealConfig) (combined : Bytes) : Act Bool :=
  if isAutoSeal cfg.kind then return P.sha256.sum combined == cfg.recoveryHash
  else Barrier.verifyMasterKey P.aead combined

/-- Combine the gathered shares, verify the key and mint a token. -/
def generateRootQuorum (cfg : SealConfig) (progress : List Share) : CoreM RootGenStatus := do
  let combined ← onError endRootAttempt
    ((Act.ofExcept (Shamir.combine progress)).context "core: combine shares")
  let ok ← onError endRootAttempt (verifyCombined P cfg combined)
  if ok then do
    let c ← get
    let root ← onError endRootAttempt
      ((c.barrier.through P.aead P.tokens.createRoot).context "core: create root token")
    modify endRootAttempt
    return { started := false, nonce := [], progress := 0, required := cfg.threshold
             complete := true, rootToken := root.id }
  else do
    modify endRootAttempt
    throw (.core .unsealFailed)

def generateRootUpdate (nonce : Bytes) (share : Share) : CoreM RootGenStatus :=
  if share.length ≠ masterKeySize + 1 then throw (.core .invalidShare)
  else do
    let c ← get
    match c.rootAttempt with
    | none => throw (.core .rootGenNotStarted)
    | some attempt =>
      if nonce ≠ attempt.nonce then throw (.core .rootGenNonce)
      else do
        let cfg ← stateless (readSealConfig P)
        let progress := gather attempt.progress share
        set { c with rootAttempt := some { attempt with progress := progress } }
        if (progress.length : Int) < cfg.threshold then
          return { started := true, nonce, progress := progress.length
                   required := cfg.threshold, complete := false, rootToken := [] }
        else generateRootQuorum P cfg progress

def generateRootCancel : CoreM Unit := modify endRootAttempt

def generateRootStatus : CoreM RootGenStatus := do
  let c ← get
  match c.rootAttempt with
  | none =>
    return { started := false, nonce := [], progress := 0, required := 0, complete := false
             rootToken := [] }
  | some attempt => do
      let cfg ← stateless (readSealConfig P)
      return { started := true, nonce := attempt.nonce, progress := attempt.progress.length
               required := cfg.threshold, complete := false, rootToken := [] }

/-! ### Rekeying -/

def rekeyInit (newShares newThreshold : Int) : CoreM RekeyStatus :=
  if validShares newShares newThreshold then do
    let cfg ← stateless (readSealConfig P)
    if isAutoSeal cfg.kind then throw (.core .rekeyNotShamir)
    else do
      let c ← get
      if c.barrier.sealed then throw (.core .rekeySealed)
      else do
        let nonce ← stateless randomNonce
        set { c with rekey := some { nonce, newShares, newThreshold, progress := [] } }
        return { started := true, nonce, progress := 0, required := cfg.threshold, newShares
                 newThreshold, complete := false, keys := [] }
  else throw (.core .invalidConfig)

/--
Replace the master key: split a new one, rewrap the keyring, record the new
configuration.  When only the last write fails, the keyring already needs the new
shares, so they are returned together with the error.
-/
def replaceMasterKey (cfg : SealConfig) (attempt : RekeyAttempt) (oldMasterKey : Bytes) :
    CoreM (RekeyStatus × Option Err) := do
  let newMasterKey ← onError endRekey
    ((Act.randRead masterKeySize).context "core: generate master key")
  let shares ← onError endRekey
    ((Shamir.split newMasterKey.val attempt.newShares attempt.newThreshold).context
      "core: split master key")
  onError endRekey
    ((Barrier.rekey P.aead oldMasterKey newMasterKey.val).context "core: rewrap keyring")
  let written ← outcome (writeSealConfig P {
    type := some .shamir
    shares := attempt.newShares
    threshold := attempt.newThreshold
    recoveryHash := [] })
  modify endRekey
  match written with
  | .error e =>
    return ({ started := false, nonce := [], progress := 0, required := 0
              newShares := attempt.newShares, newThreshold := attempt.newThreshold
              complete := true, keys := shares }, some e)
  | .ok () =>
    return ({ started := false, nonce := [], progress := 0, required := cfg.threshold
              newShares := attempt.newShares, newThreshold := attempt.newThreshold
              complete := true, keys := shares }, none)

/-- Combine the gathered shares and, if they are the master key, replace it. -/
def rekeyQuorum (cfg : SealConfig) (attempt : RekeyAttempt) (progress : List Share) :
    CoreM (RekeyStatus × Option Err) := do
  let oldMasterKey ← onError endRekey
    ((Act.ofExcept (Shamir.combine progress)).context "core: combine shares")
  let ok ← onError endRekey (Barrier.verifyMasterKey P.aead oldMasterKey)
  if ok then replaceMasterKey P cfg attempt oldMasterKey
  else do
    modify endRekey
    throw (.core .unsealFailed)

/-- Supply one current share; a status may come with an error. -/
def rekeyUpdate (nonce : Bytes) (share : Share) : CoreM (RekeyStatus × Option Err) :=
  if share.length ≠ masterKeySize + 1 then throw (.core .invalidShare)
  else do
    let c ← get
    match c.rekey with
    | none => throw (.core .rekeyNotStarted)
    | some attempt =>
      if nonce ≠ attempt.nonce then throw (.core .rekeyNonce)
      else do
        let cfg ← stateless (readSealConfig P)
        if c.barrier.sealed then throw (.core .rekeySealed)
        else do
          let progress := gather attempt.progress share
          set { c with rekey := some { attempt with progress := progress } }
          if (progress.length : Int) < cfg.threshold then
            return ({ started := true, nonce, progress := progress.length
                      required := cfg.threshold, newShares := attempt.newShares
                      newThreshold := attempt.newThreshold, complete := false
                      keys := [] }, none)
          else rekeyQuorum P cfg attempt progress

def rekeyCancel : CoreM Unit := modify endRekey

def rekeyStatus : CoreM RekeyStatus := do
  let c ← get
  match c.rekey with
  | none =>
    return { started := false, nonce := [], progress := 0, required := 0, newShares := 0
             newThreshold := 0, complete := false, keys := [] }
  | some attempt => do
      let cfg ← stateless (readSealConfig P)
      return { started := true, nonce := attempt.nonce, progress := attempt.progress.length
               required := cfg.threshold, newShares := attempt.newShares
               newThreshold := attempt.newThreshold, complete := false, keys := [] }

end Core

end UbixVault
