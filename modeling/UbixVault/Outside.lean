/-
The outside of the vault: storage, randomness, time and the seal provider.

Every function of the vault that touches the outside is a program over the calls
below.  A reply that can fail is an `Except`, and a random reply carries in its
type what the source of randomness promises: that many bytes, an index below the
bound.

`answer` is a backend that keeps its promises: an operation fails without effect,
or does what a map does.  Which calls fail, and what random values, times and
wrapped keys are delivered, is the `Env`, indexed by the number of the call; a
statement for every `Env` is a statement for every outcome and every pattern of
failures.
-/
import UbixVault.Lib.Program
import UbixVault.Storage

namespace UbixVault

/-- One request to the outside. -/
inductive Call
  | get (key : Key)
  | put (key : Key) (value : Bytes)
  | delete (key : Key)
  | list (pfx : Key)
  /-- `rand.Read` into a buffer of `n` bytes. -/
  | randRead (n : Nat)
  /-- `rand.Int` below `bound`. -/
  | randInt (bound : Nat)
  | now
  /-- `Seal.Wrap` and `Seal.Unwrap` of the auto-unseal provider. -/
  | wrap (plaintext : Bytes)
  | unwrap (wrapped : Bytes)
  /-- Taking and giving back the HA lock. -/
  | acquireLock
  | releaseLock
  /-- The callback that destroys what a token owned. -/
  | cleanup (id : Bytes)
  deriving DecidableEq

/-- What a request is answered with. -/
@[reducible] def Reply : Call → Type
  | .get _ => Except Err (Option Bytes)
  | .put _ _ => Except Err Unit
  | .delete _ => Except Err Unit
  | .list _ => Except Err (List Key)
  | .randRead n => Except Err {b : Bytes // b.length = n}
  | .randInt bound => Except Err (Fin bound)
  | .now => Time
  | .wrap _ => Except Err Bytes
  | .unwrap _ => Except Err Bytes
  | .acquireLock => Except Err Unit
  | .releaseLock => Except Err Unit
  | .cleanup _ => Except Err Unit

/-- Programs over the outside. -/
abbrev Prog : Type → Type := Program Call Reply

/-- Programs over the outside that may fail. -/
abbrev Act : Type → Type := ExceptT Err Prog

abbrev Outside (σ : Type) : Type := Program.Handler Call Reply σ

namespace Act

def get (key : Key) : Act (Option Bytes) := ExceptT.mk (Program.perform (Call.get key))

def put (key : Key) (value : Bytes) : Act Unit := ExceptT.mk (Program.perform (Call.put key value))

def delete (key : Key) : Act Unit := ExceptT.mk (Program.perform (Call.delete key))

def list (pfx : Key) : Act (List Key) := ExceptT.mk (Program.perform (Call.list pfx))

def randRead (n : Nat) : Act {b : Bytes // b.length = n} :=
  ExceptT.mk (Program.perform (Call.randRead n))

def randInt (bound : Nat) : Act (Fin bound) := ExceptT.mk (Program.perform (Call.randInt bound))

def now : Act Time := ExceptT.lift (Program.perform Call.now)

def wrap (plaintext : Bytes) : Act Bytes := ExceptT.mk (Program.perform (Call.wrap plaintext))

def unwrap (wrapped : Bytes) : Act Bytes := ExceptT.mk (Program.perform (Call.unwrap wrapped))

def acquireLock : Act Unit := ExceptT.mk (Program.perform Call.acquireLock)

def releaseLock : Act Unit := ExceptT.mk (Program.perform Call.releaseLock)

def cleanup (id : Bytes) : Act Unit := ExceptT.mk (Program.perform (Call.cleanup id))

/-- A computed outcome, as a program that performs nothing. -/
def ofExcept {α : Type} (x : Except Err α) : Act α := ExceptT.mk (pure x)

/-- `fmt.Errorf("context: %w", err)` on the error of `x`. -/
def context {α : Type} (text : String) (x : Act α) : Act α := ExceptT.adapt (Err.wrap text) x

/-- `fmt.Errorf("context %q: %w", key, err)` on the error of `x`. -/
def contextAt {α : Type} (text : String) (key : Bytes) (x : Act α) : Act α :=
  ExceptT.adapt (Err.atKey text key) x

/-- Run `x` and go on whether it failed or not. -/
def attempt {α : Type} (x : Act α) : Act Unit :=
  ExceptT.mk do
    let _ ← x.run
    return .ok ()

/-- What a call found, or nothing if `errors.Is(err, missing)`. -/
def optional {α : Type} (x : Act α) (missing : Err) : Act (Option α) :=
  ExceptT.mk do
    match ← x.run with
    | .ok a => pure (.ok (some a))
    | .error e => if e.is missing then pure (.ok none) else pure (.error e)

end Act

/-! ### A backend that keeps its promises -/

/-- The auto-unseal provider: unwrapping reverses wrapping, whenever it was done. -/
structure Kms where
  wrapped : Nat → Bytes → Bytes
  unwrapped : Bytes → Option Bytes
  unwrapped_wrapped : ∀ n plaintext, unwrapped (wrapped n plaintext) = some plaintext

/-- Everything the outside decides, by the number of the call. -/
structure Env where
  fails : Nat → Call → Bool
  randomByte : Nat → Nat → Byte
  randomIndex : Nat → Nat
  clock : Nat → Time
  kms : Kms

/-- What is stored, and how many calls have been answered. -/
structure World where
  store : Store
  tick : Nat

/-- The next call, with the store as it is. -/
def World.next (w : World) : World := { w with tick := w.tick + 1 }

/-- The next call, with another store. -/
def World.write (w : World) (store : Store) : World := { store, tick := w.tick + 1 }

namespace Env

variable (env : Env)

/-- The bytes a random read at call `t` delivers. -/
def random (t n : Nat) : {b : Bytes // b.length = n} :=
  ⟨(List.range n).map (env.randomByte t), by simp⟩

/-- The reply of a call on `key` that may fail or find the key invalid. -/
def guarded {α : Type} (w : World) (call : Call) (valid : Bool)
    (reply : Except Err α × World) : Except Err α × World :=
  if env.fails w.tick call then (.error .outside, w.next)
  else if valid then reply
  else (.error (.storage .invalidKey), w.next)

/-- Answer one call. -/
def answer : Outside World := fun w call =>
  match call with
  | .get key => env.guarded w (.get key) (validKey key) (.ok (w.store.lookup key), w.next)
  | .put key value =>
    env.guarded w (.put key value) (validKey key) (.ok (), w.write (w.store.insert key value))
  | .delete key =>
    env.guarded w (.delete key) (validKey key) (.ok (), w.write (w.store.erase key))
  | .list pfx => env.guarded w (.list pfx) (validPrefix pfx) (.ok (w.store.list pfx), w.next)
  | .randRead n => env.guarded w (.randRead n) true (.ok (env.random w.tick n), w.next)
  | .randInt bound =>
    env.guarded w (.randInt bound) true
      (if h : 0 < bound then
        (.ok ⟨env.randomIndex w.tick % bound, Nat.mod_lt _ h⟩, w.next)
      else (.error .outside, w.next))
  | .now => (env.clock w.tick, w.next)
  | .wrap plaintext =>
    env.guarded w (.wrap plaintext) true (.ok (env.kms.wrapped w.tick plaintext), w.next)
  | .unwrap wrapped =>
    env.guarded w (.unwrap wrapped) true
      (match env.kms.unwrapped wrapped with
      | some plaintext => (.ok plaintext, w.next)
      | none => (.error .authentication, w.next))
  | .acquireLock => env.guarded w .acquireLock true (.ok (), w.next)
  | .releaseLock => env.guarded w .releaseLock true (.ok (), w.next)
  | .cleanup id => env.guarded w (.cleanup id) true (.ok (), w.next)

end Env

/-- Run a fallible program against an environment. -/
abbrev Act.exec {α : Type} (env : Env) (x : Act α) (w : World) : Except Err α × World :=
  Program.exec env.answer x w

end UbixVault
