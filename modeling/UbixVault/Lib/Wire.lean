/-
Wire formats over bytes.

A value is written in front of whatever follows it, and reading takes it off again and
leaves the rest.  Formats with that law can be put one after another, so a format of a
record is made of those of its fields.  Everything here computes: what is written with a
format can be evaluated, and so can a program that stores it.
-/
import Mathlib.Data.Finmap
import UbixVault.Lib.Crypto
import UbixVault.Lib.InOrder

structure Wire (α : Type) where
  write : α → List (BitVec 8)
  read : List (BitVec 8) → Option (α × List (BitVec 8))
  read_write : ∀ a rest, read (write a ++ rest) = some (a, rest)

namespace Wire

variable {α β : Type}

/-- The encoding that reads a value if nothing follows it. -/
def codec {wf : α → Prop} (w : Wire α) : Codec (BitVec 8) α wf where
  marshal := w.write
  unmarshal l := (w.read l).bind fun (a, rest) => if rest = [] then some a else none
  unmarshal_marshal a _ := by
    have hread := w.read_write a []
    rw [List.append_nil] at hread
    simp [hread]

/-- A type whose values are told apart by values of another. -/
def via (w : Wire α) (f : β → α) (g : α → β) (hgf : ∀ b, g (f b) = b) : Wire β where
  write b := w.write (f b)
  read l := (w.read l).map fun (a, rest) => (g a, rest)
  read_write b rest := by simp [w.read_write, hgf]

def pair (w : Wire α) (v : Wire β) : Wire (α × β) where
  write p := w.write p.1 ++ v.write p.2
  read l := (w.read l).bind fun (a, l) => (v.read l).map fun (b, rest) => ((a, b), rest)
  read_write p rest := by simp [w.read_write, v.read_write]

def byte : Wire (BitVec 8) where
  write b := [b]
  read l := l.head?.map (·, l.tail)
  read_write _ _ := rfl

/-! ### Lists -/

/-- A one before each element, and a zero at the end. -/
def writeMany (w : Wire α) : List α → List (BitVec 8)
  | [] => [0]
  | a :: as => 1 :: (w.write a ++ w.writeMany as)

def readMany (w : Wire α) : (fuel : Nat) → List (BitVec 8) → Option (List α × List (BitVec 8))
  | fuel + 1, b :: l =>
    if b = 0 then some ([], l)
    else (w.read l).bind fun (a, l) =>
      (w.readMany fuel l).map fun (as, rest) => (a :: as, rest)
  | _, _ => none

theorem length_lt_writeMany (w : Wire α) (as : List α) : as.length < (w.writeMany as).length := by
  induction as with
  | nil => exact Nat.zero_lt_one
  | cons a as ih =>
    simp only [writeMany, List.length_cons, List.length_append]
    omega

theorem readMany_writeMany (w : Wire α) (as : List α) (rest : List (BitVec 8)) {fuel : Nat}
    (hfuel : as.length < fuel) : w.readMany fuel (w.writeMany as ++ rest) = some (as, rest) := by
  induction as generalizing fuel with
  | nil =>
    cases fuel with
    | zero => cases hfuel
    | succ fuel => simp [writeMany, readMany]
  | cons a as ih =>
    cases fuel with
    | zero => cases hfuel
    | succ fuel => simp [writeMany, readMany, w.read_write, ih (Nat.lt_of_succ_lt_succ hfuel)]

def many (w : Wire α) : Wire (List α) where
  write := w.writeMany
  read l := w.readMany l.length l
  read_write as rest := by
    refine w.readMany_writeMany as rest ?_
    rw [List.length_append]
    exact Nat.lt_add_right _ (w.length_lt_writeMany as)

def option (w : Wire α) : Wire (Option α) := w.many.via Option.toList List.head? (by simp)

/-! ### Numbers and text -/

def bool : Wire Bool := byte.via (if · then 1 else 0) (· = 1) (by decide)

def bytes : Wire (List (BitVec 8)) := byte.many

theorem ofDigits_bytes (n : Nat) :
    Nat.ofDigits 256 (((Nat.digits 256 n).map (BitVec.ofNat 8)).map BitVec.toNat) = n := by
  have hdigit : ∀ d ∈ Nat.digits 256 n, (BitVec.toNat ∘ BitVec.ofNat 8) d = id d := by
    intro d hd
    exact Nat.mod_eq_of_lt (Nat.digits_lt_base (by decide) hd)
  rw [List.map_map, List.map_congr_left hdigit, List.map_id]
  exact Nat.ofDigits_digits 256 n

def nat : Wire Nat :=
  bytes.via (fun n => (Nat.digits 256 n).map (BitVec.ofNat 8))
    (fun l => Nat.ofDigits 256 (l.map BitVec.toNat)) ofDigits_bytes

def int : Wire Int :=
  (nat.pair nat).via (fun i => (i.toNat, (-i).toNat)) (fun p => p.1 - p.2) fun i => by
    dsimp only
    omega

def rat : Wire ℚ :=
  (int.pair nat).via (fun q => (q.num, q.den)) (fun p => mkRat p.1 p.2) Rat.mkRat_self

def string : Wire String :=
  nat.many.via (fun s => s.toList.map Char.toNat) (fun l => String.ofList (l.map Char.ofNat))
    fun s => by simp [Function.comp_def]

/-! ### Maps -/

variable {κ : Type} [LinearOrder κ]

def ofPairs : List (κ × Option β) → Finmap fun _ : κ => β
  | [] => ∅
  | (_, none) :: l => ofPairs l
  | (k, some b) :: l => (ofPairs l).insert k b

theorem lookup_ofPairs (m : Finmap fun _ : κ => β) {ks : List κ} {k : κ} (hk : k ∈ m → k ∈ ks) :
    (ofPairs (ks.map fun k => (k, m.lookup k))).lookup k = m.lookup k := by
  induction ks with
  | nil => exact (Finmap.lookup_eq_none.mpr fun h => List.not_mem_nil (hk h)).symm
  | cons k' ks ih =>
    rw [List.map_cons]
    cases hk' : m.lookup k' with
    | none =>
      refine ih fun h => (List.mem_cons.mp (hk h)).resolve_left ?_
      rintro rfl
      exact Finmap.lookup_eq_none.mp hk' h
    | some b =>
      rw [ofPairs]
      by_cases heq : k = k'
      · rw [heq, Finmap.lookup_insert, hk']
      · rw [Finmap.lookup_insert_of_ne _ heq]
        exact ih fun h => (List.mem_cons.mp (hk h)).resolve_left heq

def finmap (w : Wire κ) (v : Wire β) : Wire (Finmap fun _ : κ => β) :=
  (w.pair v.option).many.via (fun m => m.keys.inOrder.map fun k => (k, m.lookup k)) ofPairs fun m =>
    Finmap.ext_lookup fun _ =>
      lookup_ofPairs m fun hk => Finset.mem_inOrder.mpr (Finmap.mem_keys.mpr hk)

end Wire
