/-
Walking a backend, and snapshots of it.

A snapshot is a header line and then one JSON object per entry.  JSON is a
parameter: the encoder puts one object on a line, and the decoder, which reads
objects one after the other from a stream, delivers what was encoded if its key is
valid text.
-/
import UbixVault.Outside

namespace UbixVault

/-- `storage.Entry`. -/
structure Entry where
  key : Key
  value : Bytes
  deriving DecidableEq

/-! ### Walking -/

section Walk

variable {α : Type} (fn : Entry → Except Err α)

/-- One turn of the loop of `walk`; `descend` is the recursive call. -/
def walkChild (descend : Key → Act (List α)) (pfx c : Key) : Act (List α) :=
  if c.getLast? = some slash then descend (pfx ++ c)
  else do
    match ← Act.get (pfx ++ c) with
    | none => return []
    | some value => return [← Act.ofExcept (fn ⟨pfx ++ c, value⟩)]

/-- The loop of `walk` over the children of a prefix. -/
def walkChildren (descend : Key → Act (List α)) (pfx : Key) : List Key → Act (List α)
  | [] => return []
  | c :: cs => do
      let here ← walkChild fn descend pfx c
      let rest ← walkChildren descend pfx cs
      return here ++ rest

/-- `walk`, at most `depth` levels deep, with what `fn` made of each entry in turn. -/
def walk : (depth : Nat) → Key → Act (List α)
  | 0, _ => throw .outside
  | depth + 1, pfx => do
      let children ← Act.list pfx
      walkChildren fn (walk depth) pfx children

/-- `Walk`. -/
def walkAll (depth : Nat) : Act (List α) := walk fn depth []

end Walk

/-! ### Snapshots -/

/-- `encoding/json` on a stream of entries. -/
structure EntryJson where
  /-- One object and a newline. -/
  encode : Entry → Bytes
  /-- Nothing if the stream is malformed; else the next entry and the rest, if there is one. -/
  decode : Bytes → Option (Option (Entry × Bytes))
  decode_nil : decode [] = some none
  decode_encode : ∀ e rest, validUTF8 e.key = true → decode (encode e ++ rest) = some (some (e, rest))
  shorter : ∀ data e rest, decode data = some (some (e, rest)) → rest.length < data.length

namespace Snapshot

def header : Bytes := str "ubixvault-snapshot v1"

def newline : Byte := 0x0a

variable (json : EntryJson)

/-- `Write`. -/
def write (depth : Nat) : Act Bytes := do
  let lines ← (walkAll (fun e => .ok (json.encode e)) depth).context "snapshot: write entries"
  return header ++ [newline] ++ lines.flatten

/-- `ReadString('\n')`: the line and what follows it. -/
def readLine : Bytes → Option (Bytes × Bytes)
  | [] => none
  | b :: rest =>
    if b = newline then some ([], rest) else (readLine rest).map fun (line, rest) => (b :: line, rest)

/-- The loop of `Restore`. -/
def restoreEntries (data : Bytes) : Act Unit :=
  match hdecode : json.decode data with
  | none => throw (.wrap "snapshot: decode entry" .outside)
  | some none => return ()
  | some (some (e, rest)) => do
      ExceptT.adapt (Err.atKey "snapshot: restore" e.key) (Act.put e.key e.value)
      restoreEntries rest
termination_by data.length
decreasing_by exact json.shorter data e rest hdecode

/-- `Restore`. -/
def restore (data : Bytes) : Act Unit :=
  match readLine data with
  | none => throw (.wrap "snapshot: read header" .outside)
  | some (line, rest) =>
    if line ≠ header then throw (.quoted "snapshot: unrecognized format" line)
    else restoreEntries json rest

end Snapshot

end UbixVault
