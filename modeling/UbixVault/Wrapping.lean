/-
Response wrapping, as package `wrapping` computes it.

A payload is stored under the hash of a random token and handed out once.  `Unwrap`
reads it, deletes it and only then returns it.  Storage has no way of doing the first
two in one step, so a lock of the process stands around them; `Wrap` takes no lock.

A payload is JSON text that is not looked into.  Package `encoding/json` writes such a
text into the record in its compact form, and that form is what is read back.  The rest
of the encoding is a parameter, and some records cannot be encoded.
-/
import UbixVault.Lib.Crypto
import UbixVault.Lib.Events
import UbixVault.Outside

namespace UbixVault.Wrapping

open Program (Locked)

def storePrefix : Key := str "sys/wrapping/"

def displayPrefix : Bytes := str "uvw."

def tokenBytes : Nat := 24

def defaultTTL : Time := 5 * 60 * 1000000000

def maxTTL : Time := 24 * hour

/-! ### JSON text in a record -/

/-- `json.RawMessage`: JSON text as it stands. -/
abbrev RawMessage : Type := Bytes

/-- JSON text without the blanks between its tokens; `quoted` inside a string. -/
def withoutBlanks : (quoted : Bool) → RawMessage → RawMessage
  | _, [] => []
  | true, 0x5c :: escaped :: rest => 0x5c :: escaped :: withoutBlanks true rest
  | true, c :: rest => c :: withoutBlanks (c != 0x22) rest
  | false, c :: rest =>
    if c = 0x20 ∨ c = 0x09 ∨ c = 0x0a ∨ c = 0x0d then withoutBlanks false rest
    else c :: withoutBlanks (c == 0x22) rest

/-- `<`, `>` and `&`, which only strings can hold, are written as escapes. -/
def escapeByte (c : Byte) : Bytes :=
  if c = 0x3c ∨ c = 0x3e ∨ c = 0x26 then str "\\u00" ++ hexEncode [c] else [c]

/-- So are the separators U+2028 and U+2029. -/
def escapeHTML : RawMessage → RawMessage
  | a :: b :: c :: rest =>
    if a = 0xe2 ∧ b = 0x80 ∧ (c = 0xa8 ∨ c = 0xa9) then
      str (if c = 0xa8 then "\\u2028" else "\\u2029") ++ escapeHTML rest
    else escapeByte a ++ escapeHTML (b :: c :: rest)
  | short => short.flatMap escapeByte

/-- How `encoding/json` writes a JSON text into a record; a text that is missing becomes `null`. -/
def compact (raw : RawMessage) : RawMessage :=
  if raw = [] then str "null" else escapeHTML (withoutBlanks false raw)

example : compact (str "\x7b\"a b\" : [ \"<\\\" \" ] \x7d")
    = str "\x7b\"a b\":[\"\\u003c\\\" \"]\x7d" := by decide +kernel

/-! ### The store -/

/-- The record behind a wrapping token. -/
structure Wrapped where
  payload : RawMessage
  createdTime : Time
  expiresAt : Time
  deriving DecidableEq

/-- The encoding of the record: a payload is read back in its compact form. -/
structure WrappedJson where
  marshal : Wrapped → Option Bytes
  unmarshal : Bytes → Option Wrapped
  unmarshal_marshal : ∀ record blob, marshal record = some blob →
    unmarshal blob = some { record with payload := compact record.payload }

/-- What `Wrap` returns. -/
structure Info where
  token : Bytes
  ttl : Time
  creationTime : Time
  expiresAt : Time
  deriving DecidableEq

/-- What the store works with. -/
structure Store where
  sha256 : Hash Byte
  json : WrappedJson

/-- The duration a caller asked for; one that is not positive means the default. -/
def effectiveTTL (ttl : Time) : Time := if ttl ≤ 0 then defaultTTL else ttl

def generateToken : Act Bytes := do
  let b ← (Act.randRead tokenBytes).context "wrapping: generate token"
  return displayPrefix ++ hexEncode b.val

namespace Store

variable (st : Store)

def storeKey (token : Bytes) : Key := storePrefix ++ hexEncode (st.sha256.sum token)

def wrap (payload : RawMessage) (ttl : Time) : Act Info :=
  let ttl := effectiveTTL ttl
  if ttl > maxTTL then throw (.wrapping .invalidTTL)
  else do
    let token ← generateToken
    let now ← Act.now
    match st.json.marshal ⟨payload, now, now + ttl⟩ with
    | none => throw (.wrap "wrapping: marshal" .outside)
    | some blob => do
        (Act.put (st.storeKey token) blob).context "wrapping: persist"
        return ⟨token, ttl, now, now + ttl⟩

/-- What `Unwrap` does while it holds the lock. -/
def unwrap (token : Bytes) : Act RawMessage := do
  match ← (Act.get (st.storeKey token)).context "wrapping: lookup" with
  | none => throw (.wrapping .notFound)
  | some blob =>
    match st.json.unmarshal blob with
    | none => throw (.wrap "wrapping: unmarshal" .outside)
    | some record => do
        let now ← Act.now
        if now > record.expiresAt then do
          (Act.delete (st.storeKey token)).attempt
          throw (.wrapping .expired)
        else do
          (Act.delete (st.storeKey token)).context "wrapping: consume"
          return record.payload

end Store

/-! ### Calls of one process -/

inductive Request
  | wrap (payload : RawMessage) (ttl : Time)
  | unwrap (token : Bytes)

inductive Response
  | wrapped (r : Except Err Info)
  | unwrapped (r : Except Err RawMessage)
  deriving DecidableEq

/-- A program over storage and the lock. -/
abbrev LockedProg : Type → Type := Program (Locked Call) (Locked.Reply Reply)

def Store.call (st : Store) : Request → LockedProg Response
  | .wrap payload ttl => Locked.lift do return .wrapped (← (st.wrap payload ttl).run)
  | .unwrap token => Locked.guarded do return .unwrapped (← (st.unwrap token).run)

/-- Calls that are made at the same time, while nobody has the lock. -/
def Store.pool {ι : Type} (st : Store) (requests : ι → Request) (w : World) :
    Program.Pool (Locked Call) (Locked.Reply Reply) Response ι (World × Bool) :=
  ⟨fun i => st.call (requests i), (w, false)⟩

end UbixVault.Wrapping
