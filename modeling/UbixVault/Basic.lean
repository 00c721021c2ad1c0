/-
Bytes, texts and errors.

A Go string is a sequence of bytes, so keys, identifiers and texts are all lists
of bytes here; `str` writes a literal.  Error values are sentinels, possibly
under contexts that `fmt.Errorf` wrapped around them, and `Err.is` is what
`errors.Is` answers.
-/
import Mathlib

namespace UbixVault

abbrev Byte : Type := BitVec 8

abbrev Bytes : Type := List Byte

-- Instances that definitions use are named, so that all of them hold one and the same proof.

instance lawfulBEqByte : LawfulBEq Byte := inferInstance

instance lawfulBEqBytes : LawfulBEq Bytes := inferInstance

instance transString : IsTrans String (· ≤ ·) := inferInstance

instance antisymmString : @Std.Antisymm String (· ≤ ·) := inferInstance

instance totalString : @Std.Total String (· ≤ ·) := inferInstance

/-- The bytes of a string literal. -/
def str (s : String) : Bytes := s.toUTF8.data.toList.map UInt8.toBitVec

/-- Seven-bit text, which every encoding of strings keeps as it is. -/
def Ascii (s : Bytes) : Prop := ∀ b ∈ s, b < 0x80

instance (s : Bytes) : Decidable (Ascii s) :=
  decidable_of_iff (s.all (· < 0x80) = true) (by simp [Ascii])

/-- Points in time and durations, in nanoseconds; `0` is Go's zero `time.Time`. -/
abbrev Time : Type := Int

/-- Seconds, minutes and hours as durations. -/
def hour : Time := 3600 * 1000000000

/-! ### Hexadecimal text -/

/-- One lower-case hexadecimal digit. -/
def hexDigit (n : Nat) : Byte := if n < 10 then BitVec.ofNat 8 (48 + n) else BitVec.ofNat 8 (87 + n)

/-- `hex.EncodeToString`. -/
def hexEncode (b : Bytes) : Bytes :=
  b.flatMap fun x => [hexDigit (x.toNat / 16), hexDigit (x.toNat % 16)]

/-- The value of a hexadecimal digit in either case. -/
def fromHexDigit (c : Byte) : Option Nat :=
  let n := c.toNat
  if 48 ≤ n ∧ n ≤ 57 then some (n - 48)
  else if 97 ≤ n ∧ n ≤ 102 then some (n - 87)
  else if 65 ≤ n ∧ n ≤ 70 then some (n - 55)
  else none

/-- `hex.DecodeString`: pairs of digits, and nothing else. -/
def hexDecode : Bytes → Option Bytes
  | [] => some []
  | [_] => none
  | hi :: lo :: rest => do
      let a ← fromHexDigit hi
      let b ← fromHexDigit lo
      let tail ← hexDecode rest
      return BitVec.ofNat 8 (16 * a + b) :: tail

/-! ### Base64 text -/

/-- One digit of the standard alphabet. -/
def base64Digit (n : Nat) : Byte :=
  if n < 26 then BitVec.ofNat 8 (65 + n)
  else if n < 52 then BitVec.ofNat 8 (71 + n)
  else if n < 62 then BitVec.ofNat 8 (n - 4)
  else if n = 62 then 0x2b
  else 0x2f

def base64Pad : Byte := 0x3d

/-- `base64.StdEncoding.EncodeToString`: three bytes at a time, the last group padded. -/
def base64Encode : Bytes → Bytes
  | [] => []
  | [x] =>
    [base64Digit (x.toNat / 4), base64Digit (x.toNat % 4 * 16), base64Pad, base64Pad]
  | [x, y] =>
    [base64Digit (x.toNat / 4), base64Digit (x.toNat % 4 * 16 + y.toNat / 16),
      base64Digit (y.toNat % 16 * 4), base64Pad]
  | x :: y :: z :: rest =>
    base64Digit (x.toNat / 4) :: base64Digit (x.toNat % 4 * 16 + y.toNat / 16) ::
      base64Digit (y.toNat % 16 * 4 + z.toNat / 64) :: base64Digit (z.toNat % 64) ::
        base64Encode rest

/-- The value of a digit of the standard alphabet. -/
def fromBase64Digit (c : Byte) : Option Nat :=
  let n := c.toNat
  if 65 ≤ n ∧ n ≤ 90 then some (n - 65)
  else if 97 ≤ n ∧ n ≤ 122 then some (n - 71)
  else if 48 ≤ n ∧ n ≤ 57 then some (n + 4)
  else if n = 43 then some 62
  else if n = 47 then some 63
  else none

/-- Groups of four digits; only the last may be padded, and the bits left over are not looked at. -/
def base64Quanta : Bytes → Option Bytes
  | [] => some []
  | a :: b :: c :: d :: rest => do
      let p ← fromBase64Digit a
      let q ← fromBase64Digit b
      let x := BitVec.ofNat 8 (p * 4 + q / 16)
      if c = base64Pad ∧ d = base64Pad ∧ rest = [] then return [x]
      let r ← fromBase64Digit c
      let y := BitVec.ofNat 8 (q % 16 * 16 + r / 4)
      if d = base64Pad ∧ rest = [] then return [x, y]
      let t ← fromBase64Digit d
      let tail ← base64Quanta rest
      return x :: y :: BitVec.ofNat 8 (r % 4 * 64 + t) :: tail
  | _ => none

/-- `base64.StdEncoding.DecodeString`: line ends are skipped wherever they stand. -/
def base64Decode (s : Bytes) : Option Bytes :=
  base64Quanta (s.filter fun c => c != 0x0a && c != 0x0d)

/-! ### Decimal text -/

/-- One decimal digit. -/
def decimalDigit (n : Nat) : Byte := BitVec.ofNat 8 (48 + n)

/-- A number in decimal. -/
def decimal (n : Nat) : Bytes :=
  if n < 10 then [decimalDigit n] else decimal (n / 10) ++ [decimalDigit (n % 10)]

/-- `strconv.Itoa`. -/
def itoa : Int → Bytes
  | .ofNat n => decimal n
  | .negSucc n => 0x2d :: decimal (n + 1)

/-- The value of a decimal digit. -/
def fromDecimalDigit (c : Byte) : Option Nat :=
  if 48 ≤ c.toNat ∧ c.toNat ≤ 57 then some (c.toNat - 48) else none

/-- Digits only, and at least one. -/
def fromDecimal (s : Bytes) : Option Nat :=
  if s = [] then none else s.foldlM (fun n c => (fromDecimalDigit c).map (10 * n + ·)) 0

/-- `strconv.Atoi` for numbers of any size. -/
def atoi : Bytes → Option Int
  | [] => none
  | c :: s =>
    if c = 0x2b then (fromDecimal s).map Int.ofNat
    else if c = 0x2d then (fromDecimal s).map fun n => -Int.ofNat n
    else (fromDecimal (c :: s)).map Int.ofNat

/-! ### Errors -/

/-- What a step after another returned, with what the first one returned. -/
theorem bind_eq_ok {ε α β : Type} {x : Except ε α} {f : α → Except ε β} {b : β}
    (h : (x >>= f) = .ok b) : ∃ a, x = .ok a ∧ f a = .ok b := by
  cases x with
  | error e => exact nomatch h
  | ok a => exact ⟨a, rfl, h⟩

/-- The sentinels of package `shamir`. -/
inductive ShamirError
  | emptySecret | thresholdRange | partsRange | tooFewShares | shareLength | duplicateShares
  deriving DecidableEq, Repr

/-- The sentinels of package `storage`. -/
inductive StorageError
  | invalidKey | failed | fenced
  deriving DecidableEq, Repr

/-- The sentinels of package `barrier`. -/
inductive BarrierError
  | sealed | notInitialized | alreadyInitialized | invalidKey | reservedPath | malformed
  deriving DecidableEq, Repr

/-- The sentinels of package `token`. -/
inductive TokenError
  | notFound | expired
  deriving DecidableEq, Repr

/-- The sentinels of package `core`. -/
inductive CoreError
  | alreadyInitialized | notInitialized | invalidConfig | invalidShare | unsealFailed
  | autoUnsealNotConfigured | notAutoUnseal | autoUnsealShamir
  | rootGenNotStarted | rootGenNonce | rootGenSealed | rootGenNoRecovery
  | rekeyNotStarted | rekeyNonce | rekeySealed | rekeyNotShamir
  deriving DecidableEq, Repr

/-- The sentinels of package `policy`. -/
inductive PolicyError
  | policyNotFound | invalidName | unknownCapability | malformedPolicy
  deriving DecidableEq, Repr

/-- The sentinels of package `identity`. -/
inductive IdentityError
  | entityNotFound | aliasNotFound | groupNotFound | invalidName
  deriving DecidableEq, Repr

/-- The sentinels of package `raft`, without the one that wraps another. -/
inductive RaftError
  | unknownCommand | tokenInvalid | tokenExpired | tokenUsed
  deriving DecidableEq, Repr

/-- The sentinels of package `kv`. -/
inductive KvError
  | secretNotFound | versionNotFound | versionDeleted | versionDestroyed | invalidPath
  deriving DecidableEq, Repr

/-- The sentinels of package `wrapping`. -/
inductive WrappingError
  | notFound | expired | invalidTTL
  deriving DecidableEq, Repr

/-- The sentinels of package `cubbyhole`. -/
inductive CubbyholeError
  | secretNotFound | invalidPath
  deriving DecidableEq, Repr

/-- The sentinels of package `database`. -/
inductive DatabaseError
  | notConfigured | roleNotFound | leaseNotFound | invalidName
  deriving DecidableEq, Repr

/-- The sentinels of package `quota`. -/
inductive QuotaError
  | notFound | invalidName | invalidRate | invalidPath | invalidMax
  deriving DecidableEq, Repr

/-- The sentinels of package `ldapauth`. -/
inductive LdapError
  | denied | notConfigured | invalidName | invalidConfig | invalidCertificate
  | certificateWithInsecureTLS
  deriving DecidableEq, Repr

/-- An error value: a sentinel, a text of its own, or either under a context. -/
inductive Err
  | shamir (e : ShamirError)
  | storage (e : StorageError)
  | barrier (e : BarrierError)
  | token (e : TokenError)
  | core (e : CoreError)
  | policy (e : PolicyError)
  | identity (e : IdentityError)
  | raft (e : RaftError)
  | kv (e : KvError)
  | wrapping (e : WrappingError)
  | cubbyhole (e : CubbyholeError)
  | database (e : DatabaseError)
  | quota (e : QuotaError)
  | ldap (e : LdapError)
  /-- An error that came from outside: the backend, the random source, a seal, a callback. -/
  | outside
  /-- `aead.Open` refused the ciphertext. -/
  | authentication
  /-- `errors.New` or `fmt.Errorf` without a cause. -/
  | text (msg : String)
  /-- `fmt.Errorf("…: %w", cause)`. -/
  | wrap (context : String) (cause : Err)
  /-- `fmt.Errorf("… %q: %w", key, cause)`. -/
  | atKey (context : String) (key : Bytes) (cause : Err)
  /-- `fmt.Errorf("%w: …", cause)`. -/
  | detail (cause : Err) (note : String)
  /-- `fmt.Errorf("%w: %v", cause, note)`, with a note that is computed. -/
  | explain (cause : Err) (note : Bytes)
  /-- `fmt.Errorf("… %q", arg)` without a cause. -/
  | quoted (msg : String) (arg : Bytes)
  deriving DecidableEq, Repr

/-- `errors.Is`: the target stands somewhere along the chain of causes. -/
def Err.is : Err → Err → Bool
  | .wrap context cause, target => (Err.wrap context cause == target) || cause.is target
  | .atKey context key cause, target =>
    (Err.atKey context key cause == target) || cause.is target
  | .detail cause note, target => (Err.detail cause note == target) || cause.is target
  | .explain cause note, target => (Err.explain cause note == target) || cause.is target
  | e, target => e == target

namespace ShamirError

/-- The message of a sentinel. -/
def message : ShamirError → String
  | emptySecret => "shamir: secret must not be empty"
  | thresholdRange => "shamir: threshold must be >= 2 and <= parts"
  | partsRange => "shamir: parts must be >= 2 and <= 255"
  | tooFewShares => "shamir: need at least 2 shares to combine"
  | shareLength => "shamir: shares must be the same length and >= 2 bytes"
  | duplicateShares => "shamir: shares have duplicate or zero x-coordinates"

end ShamirError

namespace StorageError

/-- The message of a sentinel. -/
def message : StorageError → String
  | invalidKey => "storage: invalid key"
  | failed => "storage: backend failed"
  | fenced => "storage: write fenced: this replica does not hold the HA lock"

end StorageError

namespace BarrierError

/-- The message of a sentinel. -/
def message : BarrierError → String
  | sealed => "barrier: sealed"
  | notInitialized => "barrier: not initialized"
  | alreadyInitialized => "barrier: already initialized"
  | invalidKey => "barrier: invalid or incorrect key"
  | reservedPath => "barrier: reserved path"
  | malformed => "barrier: malformed encrypted entry"

end BarrierError

namespace TokenError

/-- The message of a sentinel. -/
def message : TokenError → String
  | notFound => "token: not found"
  | expired => "token: expired"

end TokenError

namespace CoreError

/-- The message of a sentinel. -/
def message : CoreError → String
  | alreadyInitialized => "core: already initialized"
  | notInitialized => "core: not initialized"
  | invalidConfig => "core: invalid share configuration"
  | invalidShare => "core: invalid unseal share"
  | unsealFailed => "core: unseal failed (shares did not reconstruct the master key)"
  | autoUnsealNotConfigured => "core: auto-unseal is not configured"
  | notAutoUnseal => "core: vault uses Shamir unseal, not auto-unseal"
  | autoUnsealShamir => "core: vault uses auto-unseal; manual unseal not applicable"
  | rootGenNotStarted => "core: no root-generation attempt in progress"
  | rootGenNonce => "core: nonce does not match the current attempt"
  | rootGenSealed => "core: unseal the vault before regenerating root"
  | rootGenNoRecovery =>
    "core: this auto-unseal vault has no recovery keys (initialized before recovery-key support)"
  | rekeyNotStarted => "core: no rekey attempt in progress"
  | rekeyNonce => "core: nonce does not match the current rekey attempt"
  | rekeySealed => "core: unseal the vault before rekeying"
  | rekeyNotShamir => "core: rekey applies only to Shamir-unseal vaults"

end CoreError

namespace PolicyError

/-- The message of a sentinel. -/
def message : PolicyError → String
  | policyNotFound => "policy: not found"
  | invalidName => "policy: invalid name"
  | unknownCapability => "policy: unknown capability"
  | malformedPolicy => "policy: malformed document"

end PolicyError

namespace IdentityError

/-- The message of a sentinel. -/
def message : IdentityError → String
  | entityNotFound => "identity: entity not found"
  | aliasNotFound => "identity: alias not found"
  | groupNotFound => "identity: group not found"
  | invalidName => "identity: invalid name"

end IdentityError

namespace RaftError

/-- The message of a sentinel. -/
def message : RaftError → String
  | unknownCommand => "raft: unknown command"
  | tokenInvalid => "raft: join token invalid"
  | tokenExpired => "raft: join token expired"
  | tokenUsed => "raft: join token already used"

end RaftError

namespace KvError

/-- The message of a sentinel. -/
def message : KvError → String
  | secretNotFound => "kv: secret not found"
  | versionNotFound => "kv: version not found"
  | versionDeleted => "kv: version is deleted"
  | versionDestroyed => "kv: version is destroyed"
  | invalidPath => "kv: invalid secret path"

end KvError

namespace WrappingError

/-- The message of a sentinel. -/
def message : WrappingError → String
  | notFound => "wrapping: token not found"
  | expired => "wrapping: token expired"
  | invalidTTL => "wrapping: ttl exceeds maximum"

end WrappingError

namespace CubbyholeError

/-- The message of a sentinel. -/
def message : CubbyholeError → String
  | secretNotFound => "cubbyhole: secret not found"
  | invalidPath => "cubbyhole: invalid path"

end CubbyholeError

namespace DatabaseError

/-- The message of a sentinel. -/
def message : DatabaseError → String
  | notConfigured => "database: engine not configured"
  | roleNotFound => "database: role not found"
  | leaseNotFound => "database: lease not found"
  | invalidName => "database: invalid name"

end DatabaseError

namespace QuotaError

/-- The message of a sentinel. -/
def message : QuotaError → String
  | notFound => "quota: not found"
  | invalidName => "quota: invalid name (must be a single path-safe segment)"
  | invalidRate => "quota: rate must be greater than 0"
  | invalidPath => "quota: invalid path prefix"
  | invalidMax => "quota: max_leases must be greater than 0"

end QuotaError

namespace LdapError

/-- The message of a sentinel. -/
def message : LdapError → String
  | denied => "ldapauth: authentication failed"
  | notConfigured => "ldapauth: not configured"
  | invalidName => "ldapauth: invalid group name"
  | invalidConfig => "ldapauth: config needs a url and user_dn"
  | invalidCertificate => "ldapauth: certificate must be a PEM bundle of one or more CA certificates"
  | certificateWithInsecureTLS =>
    "ldapauth: certificate has no effect with insecure_tls; drop insecure_tls to verify against it"

end LdapError

/-- A byte of a text that `%q` prints. -/
def quoteByte (b : Byte) : Bytes :=
  if b = 0x22 ∨ b = 0x5c then [0x5c, b]
  else if b = 0x07 then str "\\a"
  else if b = 0x08 then str "\\b"
  else if b = 0x09 then str "\\t"
  else if b = 0x0a then str "\\n"
  else if b = 0x0b then str "\\v"
  else if b = 0x0c then str "\\f"
  else if b = 0x0d then str "\\r"
  else if b < 0x20 ∨ b = 0x7f then str "\\x" ++ hexEncode [b]
  else [b]

/-- `%q` on a key: double quotes around the text, with the usual escapes. -/
def quote (key : Bytes) : Bytes := [0x22] ++ key.flatMap quoteByte ++ [0x22]

/-- `err.Error()`. -/
def Err.message : Err → Bytes
  | shamir e => str e.message
  | storage e => str e.message
  | barrier e => str e.message
  | token e => str e.message
  | core e => str e.message
  | policy e => str e.message
  | identity e => str e.message
  | raft e => str e.message
  | kv e => str e.message
  | wrapping e => str e.message
  | cubbyhole e => str e.message
  | database e => str e.message
  | quota e => str e.message
  | ldap e => str e.message
  | outside => str "unavailable"
  | authentication => str "cipher: message authentication failed"
  | text msg => str msg
  | quoted msg arg => str msg ++ str " " ++ quote arg
  | wrap context cause => str context ++ str ": " ++ cause.message
  | atKey context key cause => str context ++ str " " ++ quote key ++ str ": " ++ cause.message
  | detail cause note => cause.message ++ str ": " ++ str note
  | explain cause note => cause.message ++ str ": " ++ note

end UbixVault
