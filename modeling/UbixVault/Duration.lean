/-
Durations as text, as the standard library reads them.

`time.ParseDuration` adds up parts, each a number with a unit, in an unsigned integer of
64 bits.  A fraction is converted in floating point; what that gives is a parameter, of
which nothing is assumed.
-/
import UbixVault.Basic

namespace UbixVault.Duration

def second : Int := 1000000000

/-- `unitMap`, in nanoseconds; both ways of writing a micro sign count. -/
def unitMap (u : Bytes) : Option Nat :=
  if u = str "ns" then some 1
  else if u = str "us" ∨ u = str "µs" ∨ u = str "μs" then some 1000
  else if u = str "ms" then some 1000000
  else if u = str "s" then some 1000000000
  else if u = str "m" then some (60 * 1000000000)
  else if u = str "h" then some (3600 * 1000000000)
  else none

def isDigit (c : Byte) : Bool := (fromDecimalDigit c).isSome

def isUnit (c : Byte) : Bool := c != 0x2e && !isDigit c

/-- `leadingInt`: the digits at the start, without those a duration cannot hold, and the rest. -/
def leadingInt (s : Bytes) : Option (Nat × Bytes) :=
  let v := (fromDecimal (s.takeWhile isDigit)).getD 0
  if v > 2 ^ 63 then none else some (v, s.dropWhile isDigit)

/-- `(\.[0-9]*)?`: the digits after a point, and the rest. -/
def leadingFraction : Bytes → Bytes × Bytes
  | [] => ([], [])
  | c :: s => if c = 0x2e then (s.takeWhile isDigit, s.dropWhile isDigit) else ([], c :: s)

theorem leadingInt_length {s rest : Bytes} {v : Nat} (h : leadingInt s = some (v, rest)) :
    rest.length ≤ s.length := by
  unfold leadingInt at h
  dsimp only at h
  split_ifs at h
  cases h
  exact (List.dropWhile_suffix _).length_le

theorem leadingFraction_length (s : Bytes) : (leadingFraction s).2.length ≤ s.length := by
  cases s with
  | nil => exact le_rfl
  | cons c s =>
    rw [leadingFraction]
    split_ifs
    · exact (List.dropWhile_suffix _).length_le.trans (Nat.le_succ _)
    · exact le_rfl

/-- A unit that is there leaves less to read. -/
theorem length_dropUnit {s : Bytes} (h : s.takeWhile isUnit ≠ []) :
    (s.dropWhile isUnit).length < s.length := by
  have hsplit := congrArg List.length (s.takeWhile_append_dropWhile (p := isUnit))
  have hpos := List.length_pos_iff.mpr h
  rw [List.length_append] at hsplit
  omega

variable (fraction : (digits : Bytes) → (unit : Nat) → Nat)

/-- The value of a part in nanoseconds. -/
def scaled (v : Nat) (frac : Bytes) (unit : Nat) : Option Nat :=
  if v > 2 ^ 63 / unit then none
  else if (fromDecimal frac).getD 0 > 0 then
    if v * unit + fraction frac unit > 2 ^ 63 then none else some (v * unit + fraction frac unit)
  else some (v * unit)

/-- The loop over the parts, with what they have added up to. -/
def addParts (s : Bytes) (d : Nat) : Option Nat :=
  if s = [] then some d
  else
    match hint : leadingInt s with
    | none => none
    | some (v, s₁) =>
      if s.takeWhile isDigit = [] ∧ (leadingFraction s₁).1 = [] then none
      else if hunit : (leadingFraction s₁).2.takeWhile isUnit = [] then none
      else
        match unitMap ((leadingFraction s₁).2.takeWhile isUnit) with
        | none => none
        | some unit =>
          match scaled fraction v (leadingFraction s₁).1 unit with
          | none => none
          | some n =>
            -- The sum is one of unsigned integers too.
            if (d + n) % 2 ^ 64 > 2 ^ 63 then none
            else addParts ((leadingFraction s₁).2.dropWhile isUnit) ((d + n) % 2 ^ 64)
termination_by s.length
decreasing_by
  have hlt := length_dropUnit hunit
  have hfrac := leadingFraction_length s₁
  have hlead := leadingInt_length hint
  omega

/-- The parts after the sign. -/
def parseUnsigned (s : Bytes) : Option Nat :=
  if s = str "0" then some 0 else if s = [] then none else addParts fraction s 0

def parseDuration : Bytes → Option Int
  | [] => none
  | c :: s =>
    if c = 0x2d then (parseUnsigned fraction s).map fun d => -Int.ofNat d
    else
      match parseUnsigned fraction (if c = 0x2b then s else c :: s) with
      | none => none
      | some d => if d > 2 ^ 63 - 1 then none else some (Int.ofNat d)

/-- `strconv.Atoi`, into an `int` of 64 bits. -/
def atoi64 (s : Bytes) : Option Int := (atoi s).filter fun n => -2 ^ 63 ≤ n ∧ n < 2 ^ 63

/-- `time.Duration(secs) * time.Second`, in integers of 64 bits. -/
def seconds (secs : Int) : Int := (secs * second).bmod (2 ^ 64)

end UbixVault.Duration
