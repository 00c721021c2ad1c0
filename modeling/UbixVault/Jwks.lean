/-
Keys of a JSON Web Key Set, as package `jwtauth` reads them.

An exponent is shifted into an `int` byte by byte, so of a long one only the last eight
bytes remain.  A key that cannot be used is left out of the set.
-/
import UbixVault.Basic
import UbixVault.Lib.RawBase64

namespace UbixVault.JwtAuth

/-- One key of a set; binary fields are base64url text. -/
structure Jwk where
  kty : Bytes
  n : Bytes
  e : Bytes
  crv : Bytes
  x : Bytes
  y : Bytes

inductive Curve
  | p256 | p384 | p521
  deriving DecidableEq

/-- `rsa.PublicKey` and `ecdsa.PublicKey`. -/
inductive PublicKey
  | rsa (n : Nat) (e : Int)
  | ecdsa (curve : Curve) (x y : Nat)
  deriving DecidableEq

inductive KeyError
  /-- `base64.CorruptInputError`, without the position. -/
  | corruptInput
  | zeroExponent
  | unsupportedCurve (crv : Bytes)
  | unsupportedKeyType (kty : Bytes)
  deriving DecidableEq

def KeyError.message : KeyError → Bytes
  | corruptInput => str "illegal base64 data"
  | zeroExponent => str "jwtauth: RSA exponent is zero"
  | unsupportedCurve crv => str "jwtauth: unsupported curve " ++ quote crv
  | unsupportedKeyType kty => str "jwtauth: unsupported key type " ++ quote kty

/-- The number that bytes stand for, the first one counting most; `big.Int.SetBytes`. -/
def bigEndian (b : Bytes) : Nat := b.foldl (fun n x => n * 256 + x.toNat) 0

def b64u (s : Bytes) : Except KeyError Bytes :=
  match Alphabet64.url.decode false s with
  | some b => .ok b
  | none => .error .corruptInput

def b64uBig (s : Bytes) : Except KeyError Nat := bigEndian <$> b64u s

def curveFor (crv : Bytes) : Except KeyError Curve :=
  if crv = str "P-256" then .ok .p256
  else if crv = str "P-384" then .ok .p384
  else if crv = str "P-521" then .ok .p521
  else .error (.unsupportedCurve crv)

/-- `e<<8 | int(b)`, in an `int` of 64 bits. -/
def shiftIn (e : BitVec 64) (b : Byte) : BitVec 64 := e <<< 8 ||| b.setWidth 64

/-- The loop over the bytes of an exponent. -/
def exponent (eb : Bytes) : BitVec 64 := eb.foldl shiftIn 0

def Jwk.publicKey (k : Jwk) : Except KeyError PublicKey :=
  if k.kty = str "RSA" then do
    let n ← b64uBig k.n
    let eb ← b64u k.e
    let e := exponent eb
    if e = 0 then throw .zeroExponent
    return .rsa n e.toInt
  else if k.kty = str "EC" then do
    let curve ← curveFor k.crv
    let x ← b64uBig k.x
    let y ← b64uBig k.y
    return .ecdsa curve x y
  else .error (.unsupportedKeyType k.kty)

/-- `parseJWKS`, for a set that has been decoded from JSON. -/
def parseJWKS (keys : List Jwk) : List PublicKey := keys.filterMap fun k => k.publicKey.toOption

end UbixVault.JwtAuth
