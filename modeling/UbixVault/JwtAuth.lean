/-
Checking the claims of a JWT, as package `jwtauth` does.

Claims are decoded from JSON into a map, so every number is a double there.  An integer
up to 2^53 is kept exactly; of any other double only what the checks ask of it is known:
how it is printed, and its whole seconds.
-/
import Mathlib.Data.List.DropRight
import UbixVault.Storage

namespace UbixVault.JwtAuth

/-- A value that a claim can have. -/
inductive Claim
  | text (s : Bytes)
  | bool (b : Bool)
  | integer (n : {n : Int // n.natAbs ≤ 2 ^ 53})
  | float (printed : Bytes) (seconds : Int)
  | null
  | array (items : List Claim)
  | object

abbrev Claims : Type := Finmap fun _ : Bytes => Claim

structure Config where
  boundIssuer : Bytes

structure Role where
  boundAudiences : List Bytes
  /-- The value that each bound claim must have. -/
  boundClaims : Finmap fun _ : Bytes => Bytes

/-- Why claims are refused. -/
inductive ClaimError
  | noExp | expired | notYetValid | issuerMismatch | audienceMismatch
  | claimMismatch (claim : Bytes)
  deriving DecidableEq

def ClaimError.message : ClaimError → Bytes
  | noExp => str "jwtauth: token has no exp"
  | expired => str "jwtauth: token expired"
  | notYetValid => str "jwtauth: token not yet valid"
  | issuerMismatch => str "jwtauth: issuer mismatch"
  | audienceMismatch => str "jwtauth: audience mismatch"
  | claimMismatch claim => str "jwtauth: claim " ++ quote claim ++ str " mismatch"

/-- Tolerated difference of the clocks. -/
def leeway : Time := 60 * 1000000000

/-- `time.Unix(sec, 0)`. -/
def unix (sec : Int) : Time := (sec + 62135596800) * 1000000000

/-! ### Printing a number -/

/-- `%e` with the fewest digits: one digit, the others after a point, and the exponent. -/
def scientific (n : Nat) : Bytes :=
  let digits := (decimal n).rdropWhile (· = 0x30)
  let exponent := (decimal n).length - 1
  digits.take 1 ++ (if digits.length > 1 then 0x2e :: digits.drop 1 else []) ++ str "e+" ++
    (if exponent < 10 then decimalDigit 0 :: decimal exponent else decimal exponent)

/-- `fmt.Sprintf("%v", t)` of a double that is an integer: an exponent from seven digits on. -/
def sprintInteger (n : Int) : Bytes :=
  if n.natAbs < 10 ^ 6 then itoa n
  else if n < 0 then 0x2d :: scientific n.natAbs else scientific n.natAbs

def stringifyClaim : Option Claim → Bytes
  | some (.text s) => s
  | some (.bool true) => str "true"
  | some (.bool false) => str "false"
  | some (.integer n) => sprintInteger n
  | some (.float printed _) => printed
  | _ => []

/-! ### The checks -/

/-- A claim that is a time, in whole seconds. -/
def numericClaim (claims : Claims) (name : Bytes) : Option Time :=
  match claims.lookup name with
  | some (.integer n) => some (unix n)
  | some (.float _ seconds) => some (unix seconds)
  | _ => none

/-- The audiences that a token names: one, or those texts that are in an array. -/
def audiences : Option Claim → List Bytes
  | some (.text s) => [s]
  | some (.array items) => items.filterMap fun item =>
    match item with
    | .text s => some s
    | _ => none
  | _ => []

def audienceMatches (aud : Option Claim) (allowed : List Bytes) : Bool :=
  (audiences aud).any fun a => allowed.any fun want => a = want

/-- The bound claims, in the order in which the map is gone through. -/
def checkBound (claims : Claims) : List ((_ : Bytes) × Bytes) → Except ClaimError Unit
  | [] => .ok ()
  | ⟨claim, want⟩ :: rest =>
    if stringifyClaim (claims.lookup claim) ≠ want then .error (.claimMismatch claim)
    else checkBound claims rest

/-- The check of the times. -/
def checkTimes (now : Time) (claims : Claims) : Except ClaimError Unit :=
  match numericClaim claims (str "exp") with
  | none => .error .noExp
  | some exp =>
    if now > exp + leeway then .error .expired
    else
      match numericClaim claims (str "nbf") with
      | none => .ok ()
      | some nbf => if now + leeway < nbf then .error .notYetValid else .ok ()

/-- The text of the issuer; empty when the claim is no text. -/
def issuer (claims : Claims) : Bytes :=
  match claims.lookup (str "iss") with
  | some (.text iss) => iss
  | _ => []

def validateClaims (now : Time) (cfg : Config) (role : Role) (order : List ((_ : Bytes) × Bytes))
    (claims : Claims) : Except ClaimError Unit := do
  checkTimes now claims
  if cfg.boundIssuer ≠ [] ∧ issuer claims ≠ cfg.boundIssuer then throw .issuerMismatch
  if role.boundAudiences ≠ [] ∧ ¬ audienceMatches (claims.lookup (str "aud")) role.boundAudiences then
    throw .audienceMismatch
  checkBound claims order

end UbixVault.JwtAuth
