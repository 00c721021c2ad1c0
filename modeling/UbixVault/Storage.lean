/-
Storage keys and the key/value store.

A backend is a map from keys to blobs.  Keys are `/`-separated paths; every
backend refuses a key that `validKey` refuses, and `Store.list` is the immediate
children of a prefix, sorted and without repetition, as the in-memory backend
computes them.
-/
import UbixVault.Basic
import UbixVault.Lib.InOrder

namespace UbixVault

abbrev Key : Type := Bytes

/-- Bytes are compared as unsigned numbers, so keys are ordered as `sort.Strings` orders them. -/
instance : LinearOrder Byte where
  le_refl := BitVec.le_refl
  le_trans _ _ _ := BitVec.le_trans
  le_antisymm _ _ := BitVec.le_antisymm
  le_total := BitVec.le_total
  lt_iff_le_not_ge a b := by rw [BitVec.le_def, BitVec.le_def, BitVec.lt_def]; omega
  toDecidableLE := inferInstance
  toDecidableEq := inferInstance
  toDecidableLT := inferInstance

instance transKey : IsTrans Key (· ≤ ·) := inferInstance

instance antisymmKey : @Std.Antisymm Key (· ≤ ·) := inferInstance

instance totalKey : @Std.Total Key (· ≤ ·) := inferInstance

def slash : Byte := 0x2f

def dot : Byte := 0x2e

/-! ### Key rules -/

/-- A continuation byte of a UTF-8 sequence. -/
def isCont (b : Byte) : Bool := 0x80 ≤ b && b ≤ 0xbf

/-- `utf8.ValidString`: no overlong forms, no surrogates, nothing above U+10FFFF. -/
def validUTF8 : Bytes → Bool
  | [] => true
  | b0 :: rest =>
    if b0 < 0x80 then validUTF8 rest
    else if 0xc2 ≤ b0 && b0 ≤ 0xdf then
      match rest with
      | b1 :: rest => isCont b1 && validUTF8 rest
      | _ => false
    else if 0xe0 ≤ b0 && b0 ≤ 0xef then
      match rest with
      | b1 :: b2 :: rest =>
        (if b0 = 0xe0 then 0xa0 ≤ b1 && b1 ≤ 0xbf
          else if b0 = 0xed then 0x80 ≤ b1 && b1 ≤ 0x9f
          else isCont b1) && isCont b2 && validUTF8 rest
      | _ => false
    else if 0xf0 ≤ b0 && b0 ≤ 0xf4 then
      match rest with
      | b1 :: b2 :: b3 :: rest =>
        (if b0 = 0xf0 then 0x90 ≤ b1 && b1 ≤ 0xbf
          else if b0 = 0xf4 then 0x80 ≤ b1 && b1 ≤ 0x8f
          else isCont b1) && isCont b2 && isCont b3 && validUTF8 rest
      | _ => false
    else false

/-- `strings.Split(key, "/")`. -/
def splitSlash : Bytes → List Bytes
  | [] => [[]]
  | b :: rest =>
    if b = slash then [] :: splitSlash rest
    else
      match splitSlash rest with
      | [] => [[b]]
      | seg :: segs => (b :: seg) :: segs

/-- A segment that is not empty, `.` or `..`. -/
def validSegment (seg : Bytes) : Bool := seg != [] && seg != [dot] && seg != [dot, dot]

/-- `ValidateKey` accepts the key. -/
def validKey (key : Key) : Bool :=
  key != [] && validUTF8 key && key.head? != some slash && key.getLast? != some slash &&
    (splitSlash key).all validSegment

/-- `validatePrefix` accepts the prefix: the root, or a key with a trailing slash. -/
def validPrefix (pfx : Key) : Bool :=
  pfx == [] || (pfx.getLast? == some slash && validKey pfx.dropLast)

/-- The immediate child of `pfx` on the way to `key`, with a slash if it is a subtree. -/
def childUnder (pfx key : Key) : Option Key :=
  if pfx <+: key then
    let rest := key.drop pfx.length
    if rest = [] then none
    else if slash ∈ rest then some (rest.takeWhile (· ≠ slash) ++ [slash])
    else some rest
  else none

/-! ### The store -/

/-- What a backend holds. -/
abbrev Store : Type := Finmap fun _ : Key => Bytes

/-- The immediate children under a prefix, sorted and without repetition. -/
def Store.list (s : Store) (pfx : Key) : List Key :=
  (s.keys.biUnion fun key => (childUnder pfx key).toFinset).inOrder

end UbixVault
