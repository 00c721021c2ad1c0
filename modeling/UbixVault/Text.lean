/-
Text, as Go's standard library handles it.

A rune is a Unicode scalar value, so a `[]rune` is a list of characters here.
Searching and trimming work on bytes, and a string need not be valid UTF-8.
-/
import UbixVault.Storage

namespace UbixVault

/-! ### Runes -/

/-- `utf8.AppendRune`. -/
def encodeRune (c : Char) : Bytes :=
  let n := c.toNat
  if n < 0x80 then [BitVec.ofNat 8 n]
  else if n < 0x800 then [BitVec.ofNat 8 (0xc0 + n / 64), BitVec.ofNat 8 (0x80 + n % 64)]
  else if n < 0x10000 then
    [BitVec.ofNat 8 (0xe0 + n / 4096), BitVec.ofNat 8 (0x80 + n / 64 % 64),
      BitVec.ofNat 8 (0x80 + n % 64)]
  else
    [BitVec.ofNat 8 (0xf0 + n / 262144), BitVec.ofNat 8 (0x80 + n / 4096 % 64),
      BitVec.ofNat 8 (0x80 + n / 64 % 64), BitVec.ofNat 8 (0x80 + n % 64)]

/-- `string(runes)`. -/
def encodeRunes (cs : List Char) : Bytes := cs.flatMap encodeRune

/-- What stands for a byte that is not part of valid UTF-8. -/
def runeError : Char := Char.ofNat 0xfffd

/-- The low six bits of a continuation byte. -/
def contBits (b : Byte) : Nat := b.toNat % 64

/-- `utf8.DecodeRune`: the first rune of a string that is not empty, and what comes after it. -/
def decodeRune (b0 : Byte) (rest : Bytes) : Char × Bytes :=
  if b0 < 0x80 then (Char.ofNat b0.toNat, rest)
  else
    match rest with
    | b1 :: b2 :: b3 :: rest' =>
      if validUTF8 [b0, b1] then (Char.ofNat (b0.toNat % 32 * 64 + contBits b1), b2 :: b3 :: rest')
      else if validUTF8 [b0, b1, b2] then
        (Char.ofNat (b0.toNat % 16 * 4096 + contBits b1 * 64 + contBits b2), b3 :: rest')
      else if validUTF8 [b0, b1, b2, b3] then
        (Char.ofNat (b0.toNat % 8 * 262144 + contBits b1 * 4096 + contBits b2 * 64 + contBits b3),
          rest')
      else (runeError, rest)
    | [b1, b2] =>
      if validUTF8 [b0, b1] then (Char.ofNat (b0.toNat % 32 * 64 + contBits b1), [b2])
      else if validUTF8 [b0, b1, b2] then
        (Char.ofNat (b0.toNat % 16 * 4096 + contBits b1 * 64 + contBits b2), [])
      else (runeError, rest)
    | [b1] =>
      if validUTF8 [b0, b1] then (Char.ofNat (b0.toNat % 32 * 64 + contBits b1), [])
      else (runeError, rest)
    | [] => (runeError, [])

theorem decodeRune_length (b0 : Byte) (rest : Bytes) :
    (decodeRune b0 rest).2.length ≤ rest.length := by
  unfold decodeRune
  split_ifs
  · exact Nat.le_refl _
  · split
    · split_ifs <;> simp only [List.length_cons] <;> omega
    · split_ifs <;> simp
    · split_ifs <;> simp
    · exact Nat.le_refl _

/-- `[]rune(s)`. -/
def runes : Bytes → List Char
  | [] => []
  | b0 :: rest => (decodeRune b0 rest).1 :: runes (decodeRune b0 rest).2
termination_by s => s.length
decreasing_by exact Nat.lt_succ_of_le (decodeRune_length b0 rest)

/-- A string whose bytes are these, if they are valid text. -/
def text (b : Bytes) : String := String.ofList (runes b)

/-- The characters with the property White_Space. -/
def spaceRunes : List Char :=
  [0x09, 0x0a, 0x0b, 0x0c, 0x0d, 0x20, 0x85, 0xa0, 0x1680, 0x2000, 0x2001, 0x2002, 0x2003, 0x2004,
    0x2005, 0x2006, 0x2007, 0x2008, 0x2009, 0x200a, 0x2028, 0x2029, 0x202f, 0x205f, 0x3000].map
    Char.ofNat

/-- `unicode.IsSpace`. -/
def isSpace (c : Char) : Bool := spaceRunes.contains c

/-! ### Searching and trimming -/

/-- `strings.Index`, without the case of an absent text being a number. -/
def index (sep : Bytes) : Bytes → Option Nat
  | [] => if sep = [] then some 0 else none
  | b :: rest => if sep <+: b :: rest then some 0 else (index sep rest).map (· + 1)

/-- `strings.Contains`. -/
def containsText (sep s : Bytes) : Bool := (index sep s).isSome

/-- One white space character less on the left, if there is one. -/
def trimLeftOnce (s : Bytes) : Bytes :=
  match (spaceRunes.map encodeRune).find? (fun sp => sp.isPrefixOf s) with
  | some sp => s.drop sp.length
  | none => s

/-- One white space character less on the right, if there is one. -/
def trimRightOnce (s : Bytes) : Bytes :=
  match (spaceRunes.map encodeRune).find? (fun sp => sp.isSuffixOf s) with
  | some sp => s.take (s.length - sp.length)
  | none => s

/-- `strings.TrimSpace`: no text has more white space characters than bytes. -/
def trimSpace (s : Bytes) : Bytes :=
  let left := trimLeftOnce^[s.length] s
  trimRightOnce^[left.length] left

example : trimSpace (str " \t key\n") = str "key" := by decide +kernel

/-- `bytesTrimLeadingSpace`. -/
def bytesTrimLeadingSpace (data : Bytes) : Bytes :=
  data.dropWhile fun b => b = 0x20 ∨ b = 0x09 ∨ b = 0x0a ∨ b = 0x0d

end UbixVault
