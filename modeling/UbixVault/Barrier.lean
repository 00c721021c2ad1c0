/-
The barrier: encryption at rest, as package `barrier` computes it.

Two levels of keys: the master key wraps the barrier key in the keyring, the
barrier key encrypts data.  A barrier is sealed while it holds no barrier key.
The functions that only touch the keyring (`initializeKeyring`, `rekey`, …) do not read
the in-memory key, so they take no `Barrier`.

The cipher is a parameter; what AES-GCM promises is the law of `Aead`.
-/
import UbixVault.Lib.Crypto
import UbixVault.Outside

namespace UbixVault

def keySize : Nat := 32

/-- The nonce size of GCM. -/
def nonceSize : Nat := 12

def formatVersion : Byte := 1

def reservedPrefix : Key := str "core/"

def keyringPath : Key := str "core/keyring"

/-- A key that AES-256 accepts. -/
abbrev CipherKey : Type := {k : Bytes // k.length = keySize}

def newAEAD (key : Bytes) : Except Err CipherKey :=
  if h : key.length = keySize then .ok ⟨key, h⟩ else .error (.barrier .invalidKey)

/-- The authenticated data of an entry: its format version and its path. -/
def aad (path : Key) : Bytes := formatVersion :: path

/-- A data key is valid and outside the reserved namespace. -/
def checkDataKey (key : Key) : Except Err Unit :=
  if validKey key then
    if reservedPrefix.isPrefixOf key then .error (.barrier .reservedPath) else .ok ()
  else .error (.storage .invalidKey)

section Cipher

variable (A : Aead Byte)

/-- The blob with the given nonce: version, nonce, ciphertext. -/
def blobOf (aead : CipherKey) (nonce plaintext : Bytes) (path : Key) : Bytes :=
  formatVersion :: (nonce ++ A.seals aead.val nonce plaintext (aad path))

def encrypt (aead : CipherKey) (plaintext : Bytes) (path : Key) : Act Bytes := do
  let nonce ← (Act.randRead nonceSize).context "barrier: nonce"
  return blobOf A aead nonce.val plaintext path

def decrypt (aead : CipherKey) (blob : Bytes) (path : Key) : Except Err Bytes :=
  match blob with
  | [] => .error (.barrier .malformed)
  | version :: rest =>
    if rest.length < nonceSize then .error (.barrier .malformed)
    else if version ≠ formatVersion then
      .error (.detail (.barrier .malformed) s!"unknown version {version.toNat}")
    else
      match A.opens aead.val (rest.take nonceSize) (rest.drop nonceSize) (aad path) with
      | some plaintext => .ok plaintext
      | none => .error .authentication

end Cipher

/-- The in-memory part of a barrier: the barrier key, or none while sealed. -/
structure Barrier where
  aead : Option CipherKey
  deriving DecidableEq

/-- A sealed barrier. -/
def Barrier.new : Barrier := ⟨none⟩

def Barrier.sealed (b : Barrier) : Bool := b.aead.isNone

/-- Forget the barrier key. -/
def Barrier.seal (_ : Barrier) : Barrier := ⟨none⟩

section Keyring

variable (A : Aead Byte)

/-- `Initialize`: generate a barrier key and store it encrypted under the master key. -/
def Barrier.initializeKeyring (masterKey : Bytes) : Act Unit := do
  let master ← Act.ofExcept (newAEAD masterKey)
  match ← (Act.get keyringPath).context "barrier: check init" with
  | some _ => throw (.barrier .alreadyInitialized)
  | none => do
      let barrierKey ← (Act.randRead keySize).context "barrier: generate key"
      let blob ← (encrypt A master barrierKey.val keyringPath).context "barrier: seal keyring"
      (Act.put keyringPath blob).context "barrier: persist keyring"

/-- Whether a keyring has been written. -/
def Barrier.initialized : Act Bool := do
  let entry ← (Act.get keyringPath).context "barrier: check init"
  return entry.isSome

/-- Whether the key authenticates the stored keyring. -/
def Barrier.verifyMasterKey (masterKey : Bytes) : Act Bool := do
  let master ← Act.ofExcept (newAEAD masterKey)
  match ← (Act.get keyringPath).context "barrier: read keyring" with
  | none => throw (.barrier .notInitialized)
  | some blob =>
    match decrypt A master blob keyringPath with
    | .error _ => return false
    | .ok _ => return true

/-- Re-encrypt the stored barrier key from the old to the new master key. -/
def Barrier.rekey (oldMasterKey newMasterKey : Bytes) : Act Unit := do
  let oldMaster ← Act.ofExcept (newAEAD oldMasterKey)
  let newMaster ← Act.ofExcept (newAEAD newMasterKey)
  match ← (Act.get keyringPath).context "barrier: read keyring" with
  | none => throw (.barrier .notInitialized)
  | some entry =>
    match decrypt A oldMaster entry keyringPath with
    | .error _ => throw (.barrier .invalidKey)
    | .ok barrierKey => do
        let blob ← (encrypt A newMaster barrierKey keyringPath).context "barrier: reseal keyring"
        (Act.put keyringPath blob).context "barrier: persist keyring"

/-- Decrypt the stored barrier key; an unsealed barrier stays as it is. -/
def Barrier.unseal (b : Barrier) (masterKey : Bytes) : Act Barrier := do
  let master ← Act.ofExcept (newAEAD masterKey)
  if b.sealed then
    match ← (Act.get keyringPath).context "barrier: read keyring" with
    | none => throw (.barrier .notInitialized)
    | some entry =>
      match decrypt A master entry keyringPath with
      | .error _ => throw (.barrier .invalidKey)
      | .ok barrierKey => do
          let aead ← (Act.ofExcept (newAEAD barrierKey)).context "barrier: load barrier key"
          return ⟨some aead⟩
  else return b

end Keyring

namespace Barrier

section Data

variable (A : Aead Byte) (b : Barrier)

def get (key : Key) : Act (Option Bytes) := do
  Act.ofExcept (checkDataKey key)
  match b.aead with
  | none => throw (.barrier .sealed)
  | some aead => do
      match ← Act.get key with
      | none => return none
      | some blob =>
        match decrypt A aead blob key with
        | .error e => throw (.atKey "barrier: decrypt" key e)
        | .ok plaintext => return some plaintext

def put (key : Key) (value : Bytes) : Act Unit := do
  Act.ofExcept (checkDataKey key)
  match b.aead with
  | none => throw (.barrier .sealed)
  | some aead => do
      let blob ← ExceptT.adapt (Err.atKey "barrier: encrypt" key) (encrypt A aead value key)
      Act.put key blob

def delete (key : Key) : Act Unit := do
  Act.ofExcept (checkDataKey key)
  match b.aead with
  | none => throw (.barrier .sealed)
  | some _ => Act.delete key

/-- The children under a prefix; the reserved namespace is hidden at the root. -/
def list (pfx : Key) : Act (List Key) := do
  match b.aead with
  | none => throw (.barrier .sealed)
  | some _ => do
      let children ← Act.list pfx
      return children.filter fun c => ¬ (pfx = [] ∧ c = reservedPrefix)

/-- How the barrier implements a storage call; the other calls go past it. -/
def serve : (call : Call) → Prog (Reply call)
  | .get key => (get A b key).run
  | .put key value => (put A b key value).run
  | .delete key => (delete b key).run
  | .list pfx => (list b pfx).run
  | call => Program.perform call

/-- A program over plain storage, run over the barrier instead. -/
def through {α : Type} (x : Act α) : Act α := ExceptT.mk (x.run.translate (serve A b))

end Data

end Barrier

end UbixVault
