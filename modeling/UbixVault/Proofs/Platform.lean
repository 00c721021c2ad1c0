/-
The laws assumed of the outside can all be met at once.

The ciphers, hashes and encodings that write down what they were given keep every
law, and they compute.  Run against a store that never fails, they make up a world in
which each theorem of this development says something about a vault that exists, and in
which a run of it can be evaluated.
-/
import UbixVault.Core
import UbixVault.Lib.Wire
import UbixVault.Proofs.Outside

namespace UbixVault

open Wire

/-- The modes of a seal by number. -/
def SealType.all : List SealType :=
  [.shamir, .autoUnseal .auto, .autoUnseal .transit, .autoUnseal .external]

def SealType.wire : Wire SealType :=
  nat.via (SealType.all.idxOf ·) (SealType.all.getD · .shamir) fun t => by
    rcases t with _ | _ | _ | _ <;> rfl

def SealConfig.wire : Wire SealConfig :=
  (SealType.wire.option.pair (int.pair (int.pair bytes))).via
    (fun c => (c.type, c.shares, c.threshold, c.recoveryHash)) (fun (t, n, k, h) => ⟨t, n, k, h⟩)
    fun _ => rfl

def Token.wire : Wire Token :=
  (bytes.pair (string.many.pair (string.pair (int.pair (int.pair (int.pair bytes)))))).via
    (fun t => (t.id, t.policies, t.entityID, t.createdTime, t.expiresAt, t.maxExpiresAt, t.parentHash))
    (fun (id, ps, e, c, x, m, h) => ⟨id, ps, e, c, x, m, h⟩) fun _ => rfl

/-- A platform that hides nothing. -/
def Platform.transparent : Platform where
  aead := Aead.transparent (bytes.pair (bytes.pair bytes)).codec
  sha256 := Hash.transparent 0
  sealConfigJson := SealConfig.wire.codec
  tokenJson := Token.wire.codec

/-- A provider that wraps a key as it is. -/
def Kms.transparent : Kms := ⟨fun _ b => b, some, fun _ _ => rfl⟩

/-- An outside in which the given calls fail, and randomness and time stand still. -/
def Env.failing (fails : Nat → Call → Bool) : Env :=
  { fails, randomByte := fun _ _ => 0, randomIndex := fun _ => 0, clock := fun _ => 0
    kms := .transparent }

/-- An outside in which nothing fails. -/
def Env.faultless : Env := .failing fun _ _ => false

theorem works_faultless : Env.faultless.Works := fun _ _ => rfl

/-- An outside without failures whose random bytes are all `b`. -/
def Env.constant (b : Byte) : Env := { Env.faultless with randomByte := fun _ _ => b }

/-- The token value made of one random byte. -/
def constantID (i : Nat) : Bytes :=
  displayPrefix ++ hexEncode (List.replicate idBytes (BitVec.ofNat 8 i))

/-- An outside without failures whose random bytes count on from call to call. -/
def Env.counting : Env := { Env.faultless with randomByte := fun t n => BitVec.ofNat 8 (t + n) }

end UbixVault
