/-
How the database backends list the children of a prefix.

The in-memory backend collects children into a set.  The Raft backend moves a
cursor over keys in byte order and removes repetitions afterwards, in place.  The
MySQL backend selects a range of keys, whose rows come in any order.
-/
import UbixVault.Storage

namespace UbixVault

/-- `sort.Strings`. -/
def sortStrings (l : List Key) : List Key := l.insertionSort (· ≤ ·)

/-! ### The cursor of the Raft backend -/

/-- The loop of `kvList` over the keys the cursor still has; `out` is what it found. -/
def kvScan (pfx : Key) : List Key → List Key → List Key
  | [], out => out
  | k :: ks, out =>
    if ¬ pfx <+: k then out
    else
      match childUnder pfx k with
      | none => kvScan pfx ks out
      | some child =>
        if out.getLast? = some child then kvScan pfx ks out
        else kvScan pfx ks (out ++ [child])

/--
The loop of `dedupe` with `n` turns left: `s` is the array, which holds the `m` texts
that were kept at its front and is read at `i`.
-/
def dedupeFrom : (n i m : Nat) → List Key → List Key
  | 0, _, m, s => s.take m
  | n + 1, i, m, s =>
    if 0 < i ∧ s[i]? = s[i - 1]? then dedupeFrom n (i + 1) m s
    else dedupeFrom n (i + 1) (m + 1) (s.set m (s.getD i []))

def dedupe (s : List Key) : List Key := dedupeFrom s.length 0 0 s

/-- `kvList`: bbolt holds its keys in byte order, and `Seek` moves to the first that is not below. -/
def kvList (s : Store) (pfx : Key) : List Key :=
  dedupe (sortStrings (kvScan pfx (s.keys.inOrder.dropWhile (· < pfx)) []))

/-! ### The range scan of the MySQL backend -/

/-- The loop of `prefixSuccessor`, from the last byte to the first. -/
def successorOfReversed : Bytes → Option Bytes
  | [] => none
  | b :: rest => if b ≠ 0xff then some ((b + 1) :: rest).reverse else successorOfReversed rest

def prefixSuccessor (p : Bytes) : Option Bytes := successorOfReversed p.reverse

/-- The condition of the query. -/
def selected (pfx key : Key) : Bool :=
  if pfx = [] then true
  else
    match prefixSuccessor pfx with
    | some hi => pfx ≤ key ∧ key < hi
    | none => pfx ≤ key

/-- The rows of the query, in the order the database chose. -/
def Rows (s : Store) (pfx : Key) (rows : List Key) : Prop :=
  rows.Perm (s.keys.inOrder.filter (selected pfx ·))

/-- The loop of `MySQLBackend.List` over the rows; what was seen is what was collected. -/
def collectChildren (pfx : Key) : List Key → List Key → List Key
  | [], children => children
  | k :: rows, children =>
    match childUnder pfx k with
    | none => collectChildren pfx rows children
    | some child =>
      if child ∈ children then collectChildren pfx rows children
      else collectChildren pfx rows (children ++ [child])

def mysqlList (pfx : Key) (rows : List Key) : List Key :=
  sortStrings (collectChildren pfx rows [])

end UbixVault
