/-
Join tokens, and the commands that the backend proposes.

A token carries a random secret, of which only the digest is replicated.  Minting
and redeeming are commands; the keys of token records are out of reach for ordinary
writes.
-/
import UbixVault.Lib.RawBase64
import UbixVault.Raft.Replay

namespace UbixVault.Raft

/-- What token code uses: `base64.RawURLEncoding.Strict` and SHA-256, free of collisions. -/
structure TokenCrypto where
  base64 : Codec Byte Bytes fun _ => True
  sum256 : Bytes → Bytes
  length_sum256 : ∀ b, b.length = 32 → (sum256 b).length = 32
  sum256_inj : ∀ b b', b.length = 32 → b'.length = 32 → sum256 b = sum256 b' → b = b'

/-- The same with the decoder of the standard library spelled out. -/
def TokenCrypto.strict (T : TokenCrypto) : TokenCrypto :=
  { T with
    base64 := {
      marshal := Alphabet64.url.encode
      unmarshal := Alphabet64.url.decode true
      unmarshal_marshal := fun b _ => Alphabet64.decode_encode b } }

def tokenScheme : Bytes := str "ubxj."

def defaultJoinTokenTTL : Time := 15 * (60 * 1000000000)

def holderKey : Key := str "core/ha/raft-holder"

variable (T : TokenCrypto)

/-- The key of a token's record. -/
def tokenKey (token : Bytes) : Option Key :=
  if ¬ tokenScheme <+: token then none
  else
    match T.base64.unmarshal (token.drop tokenScheme.length) with
    | none => none
    | some secret =>
      if secret.length ≠ 32 then none else some (tokenPrefix ++ hexEncode (T.sum256 secret))

/-- The token with this secret. -/
def tokenOf (secret : Bytes) : Bytes := tokenScheme ++ T.base64.marshal secret

/-- When a token minted at `now` expires. -/
def expires (now ttl : Time) : Time :=
  int64 (now + if ttl ≤ 0 then defaultJoinTokenTTL else ttl)

/-- A call that proposes a command. -/
inductive Request
  | put (key : Key) (value : Bytes)
  | delete (key : Key)
  /-- `MintJoinToken`, with the secret that was drawn. -/
  | mintJoinToken (secret : Bytes) (now ttl : Time)
  | redeemJoinToken (token : Bytes) (now : Time)
  /-- `Lock.claim`. -/
  | claim (record : Bytes)
  /-- `Lock.Release`. -/
  | release

/-- The command that a call proposes, or why it proposes none. -/
def Request.command : Request → Except Err Command
  | put key value =>
    if ¬ checkKey key then .error (.storage .invalidKey)
    else if tokenPrefix <+: key then .error (.storage .invalidKey)
    else .ok { op := .put, key, value, now := 0 }
  | delete key =>
    if ¬ checkKey key then .error (.storage .invalidKey)
    else if tokenPrefix <+: key then .error (.storage .invalidKey)
    else .ok { op := .delete, key, value := [], now := 0 }
  | mintJoinToken secret now ttl =>
    .ok {
      op := .tokenMint
      -- The token was just made, so that it has a key.
      key := (tokenKey T (tokenOf T secret)).getD []
      value := encodeTokenRecord tokenFresh (expires now ttl)
      now := int64 now }
  | redeemJoinToken token now =>
    match tokenKey T token with
    | none => .error (.raft .tokenInvalid)
    | some key => .ok { op := .tokenBurn, key, value := [], now := int64 now }
  | claim record => .ok { op := .put, key := holderKey, value := record, now := 0 }
  | release => .ok { op := .delete, key := holderKey, value := [], now := 0 }

/--
Only the backend proposes commands, a secret is drawn once, and no snapshot comes from
another build.
-/
def Issued {ι : Type} (J : Json) (c : Cluster ι) : Event ι → Prop
  | .commit data => ∃ r cmd, Request.command T r = .ok cmd ∧ data = encode J.command cmd ∧
      ∀ secret now ttl, r = .mintJoinToken secret now ttl → secret.length = 32 ∧
        ∀ now' ttl' cmd', Request.command T (.mintJoinToken secret now' ttl') = .ok cmd' →
          encode J.command cmd' ∉ c.log
  | .foreign _ _ => False
  | _ => True

/-- A record that a burn can still redeem. -/
def Redeemable (kv : Store) (key : Key) : Prop :=
  ∃ expiry, kv.lookup key = some (encodeTokenRecord tokenFresh expiry)

/-- The entry with this index mints the token with this key. -/
def MintedAt {ι : Type} (J : Json) (c : Cluster ι) (index : Nat) (key : Key) (expiry : Time) : Prop :=
  0 < index ∧ ∃ data secret now ttl cmd, c.log[index - 1]? = some data ∧
    decodeCommand J.command data = .ok cmd ∧
    Request.command T (.mintJoinToken secret now ttl) = .ok cmd ∧ cmd.key = key ∧
    expiry = expires now ttl

/-- The reply tells a proposer that its burn succeeded. -/
def Redeemed {ι : Type} (J : Json) (c : Cluster ι) (r : Reply ι) (key : Key) (now : Time) : Prop :=
  r ∈ c.replies ∧ r.live = true ∧ r.result = .ok () ∧ ∃ data cmd, c.log[r.index - 1]? = some data ∧
    decodeCommand J.command data = .ok cmd ∧ cmd.op = .tokenBurn ∧ cmd.key = key ∧ cmd.now = now

end UbixVault.Raft
