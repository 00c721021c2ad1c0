/-
Shamir's secret sharing over GF(2^8), as package `shamir` computes it.

A share is one byte per secret byte, followed by its x-coordinate.  The field is
bytes under exclusive or and the shift-and-xor product reduced by `0x11b`.
-/
import UbixVault.Outside

namespace UbixVault.Shamir

abbrev Share : Type := Bytes

/-! ### Field arithmetic -/

def gfAdd (a b : Byte) : Byte := a ^^^ b

/-- The rounds of `gfMul` that are left, with the running product and operands. -/
def gfMulLoop : Nat → Byte → Byte → Byte → Byte
  | 0, p, _, _ => p
  | n + 1, p, a, b =>
    let p := p ^^^ (a &&& ((0 : Byte) - (b &&& (1 : Byte)))) -- a, iff the low bit of b is set
    let hi : Byte := (0 : Byte) - (a >>> 7)                  -- 0xff iff the high bit of a is set
    gfMulLoop n p ((a <<< 1) ^^^ ((0x1b : Byte) &&& hi)) (b >>> 1)

def gfMul (a b : Byte) : Byte := gfMulLoop 8 0 a b

/-- The rounds of `gfInverse` that are left: square and multiply while the exponent is positive. -/
def gfInverseLoop : Nat → Nat → Byte → Byte → Byte
  | 0, _, result, _ => result
  | n + 1, exp, result, b =>
    if 0 < exp then
      gfInverseLoop n (exp >>> 1) (if exp &&& 1 = 1 then gfMul result b else result) (gfMul b b)
    else result

/-- `a^254`; the exponent is below `2^8`, so eight rounds exhaust it. -/
def gfInverse (a : Byte) : Byte := gfInverseLoop 8 254 1 a

/-! ### Polynomials -/

/-- Horner's rule, lowest coefficient first.  The source never calls it on no coefficients. -/
def evaluate (coeffs : Bytes) (x : Byte) : Byte :=
  match coeffs.reverse with
  | [] => 0
  | top :: rest => rest.foldl (fun out c => gfAdd (gfMul out x) c) top

/-- Numerator and denominator of the `i`-th Lagrange basis polynomial at zero. -/
def basisAtZero (xs : Bytes) (i : Nat) (xi : Byte) : Byte × Byte :=
  xs.zipIdx.foldl
    (fun (num, den) (xj, j) =>
      if i = j then (num, den) else (gfMul num xj, gfMul den (gfAdd xi xj)))
    (1, 1)

/-- The value at zero of the polynomial through the points `(xs[i], ys[i])`. -/
def interpolate (xs ys : Bytes) : Byte :=
  (xs.zip ys).zipIdx.foldl
    (fun result ((xi, yi), i) =>
      let (num, den) := basisAtZero xs i xi
      gfAdd result (gfMul yi (gfMul num (gfInverse den))))
    0

/-! ### Dealing -/

/-- Exchange two elements of a list. -/
def swap (l : Bytes) (i j : Nat) : Bytes :=
  match l[i]?, l[j]? with
  | some a, some b => (l.set i b).set j a
  | _, _ => l

/-- The rounds of the shuffle that are left, from index `i` on. -/
def shuffle : Nat → Nat → Bytes → Act Bytes
  | 0, _, all => pure all
  | n + 1, i, all => do
      let j ← (Act.randInt (255 - i)).context "shamir: random index"
      shuffle n (i + 1) (swap all i (j.val + i))

/-- `n` distinct nonzero x-coordinates: a partial Fisher-Yates shuffle of 1..255. -/
def randomCoordinates (n : Nat) : Act Bytes := do
  let all ← shuffle n 0 ((List.range 255).map fun i => BitVec.ofNat 8 (i + 1))
  return all.take n

/-- Coefficients with the given intercept and random higher ones. -/
def randomPolynomial (degree : Nat) (intercept : Byte) : Act Bytes :=
  if 0 < degree then do
    let rest ← (Act.randRead degree).context "shamir: random coefficients"
    return intercept :: rest.val
  else return [intercept]

/-- One polynomial per secret byte. -/
def randomPolynomials (degree : Nat) : Bytes → Act (List Bytes)
  | [] => return []
  | b :: rest => do
      let coeffs ← randomPolynomial degree b
      let others ← randomPolynomials degree rest
      return coeffs :: others

/-- The share at `x`: each polynomial sampled there, then the coordinate itself. -/
def shareAt (polys : List Bytes) (x : Byte) : Share := polys.map (evaluate · x) ++ [x]

/-- Divide `secret` into `parts` shares, any `threshold` of which recover it. -/
def split (secret : Bytes) (parts threshold : Int) : Act (List Share) :=
  if secret = [] then throw (.shamir .emptySecret)
  else if parts < 2 ∨ parts > 255 then throw (.shamir .partsRange)
  else if threshold < 2 ∨ threshold > parts then throw (.shamir .thresholdRange)
  else do
    let xCoords ← randomCoordinates parts.toNat
    let polys ← randomPolynomials (threshold.toNat - 1) secret
    return xCoords.map (shareAt polys)

/-! ### Combining -/

/-- The x-coordinates of the shares, refused when one is zero or seen before. -/
def coordinates (secretLen : Nat) : List Share → (seen : Bytes) → Except Err Bytes
  | [], _ => .ok []
  | s :: rest, seen =>
    let x := s.getD secretLen 0
    if x = 0 then .error (.shamir .duplicateShares)
    else if x ∈ seen then .error (.shamir .duplicateShares)
    else (coordinates secretLen rest (x :: seen)).map (x :: ·)

/-- Recover a secret from shares that `split` produced. -/
def combine (shares : List Share) : Except Err Bytes :=
  if shares.length < 2 then .error (.shamir .tooFewShares)
  else
    let shareLen := (shares.headD []).length
    if shareLen < 2 then .error (.shamir .shareLength)
    else if shares.any (·.length ≠ shareLen) then .error (.shamir .shareLength)
    else do
      let secretLen := shareLen - 1
      let xs ← coordinates secretLen shares []
      return (List.range secretLen).map fun idx => interpolate xs (shares.map (·.getD idx 0))

end UbixVault.Shamir
