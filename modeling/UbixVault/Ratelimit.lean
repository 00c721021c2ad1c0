/-
The rate limiter, as package `ratelimit` computes it.

Rates, amounts and times are exact numbers here.  A limiter keeps one bucket for each
client it has seen and has not forgotten again.
-/
import Mathlib.Data.Finmap
import Mathlib.Data.Rat.Defs
import UbixVault.Basic

namespace UbixVault.Ratelimit

structure Bucket where
  tokens : ℚ
  last : ℚ

structure Limiter where
  /-- Tokens added per second. -/
  rate : ℚ
  /-- The most a bucket holds. -/
  burst : ℚ
  buckets : AList fun _ : Bytes => Bucket

/-- `New`: nobody has been seen. -/
def Limiter.new (rate burst : ℚ) : Limiter := ⟨rate, burst, ∅⟩

namespace Limiter

variable (l : Limiter)

/-- The bucket of a client, filled up to now. -/
def refilled (now : ℚ) (key : Bytes) : Bucket :=
  match l.buckets.lookup key with
  | none => ⟨l.burst, now⟩
  | some b =>
    if now - b.last > 0 then ⟨min l.burst (b.tokens + (now - b.last) * l.rate), now⟩ else b

def allow (now : ℚ) (key : Bytes) : Bool × Limiter :=
  let b := l.refilled now key
  if 1 ≤ b.tokens then (true, { l with buckets := l.buckets.insert key ⟨b.tokens - 1, b.last⟩ })
  else (false, { l with buckets := l.buckets.insert key b })

/-- A bucket that a sweep forgets: idle for long enough, and full again. -/
def idle (now period : ℚ) (b : Bucket) : Bool :=
  decide (b.last < now - period) && decide (l.burst ≤ min l.burst (b.tokens + (now - b.last) * l.rate))

/-- One turn of the loop of `Sweep`. -/
def sweepOne (now period : ℚ) (swept : (AList fun _ : Bytes => Bucket) × Nat) (entry : (_ : Bytes) × Bucket) :
    (AList fun _ : Bytes => Bucket) × Nat :=
  if l.idle now period entry.2 then (swept.1.erase entry.1, swept.2 + 1) else swept

/-- `Sweep`: the number of buckets removed. -/
def sweep (now period : ℚ) : Nat × Limiter :=
  let swept := l.buckets.entries.foldl (l.sweepOne now period) (l.buckets, 0)
  (swept.2, { l with buckets := swept.1 })

end Limiter

/-! ### Runs -/

inductive Operation
  | allow (key : Bytes)
  | sweep (period : ℚ)

structure Event where
  time : ℚ
  operation : Operation

/-- What `Allow` decided. -/
structure Decision where
  time : ℚ
  key : Bytes
  allowed : Bool

/-- Calls one after another, with the decisions of those to `Allow`. -/
def Limiter.run : Limiter → List Event → List Decision
  | _, [] => []
  | l, ⟨time, .allow key⟩ :: rest => ⟨time, key, (l.allow time key).1⟩ :: run (l.allow time key).2 rest
  | l, ⟨time, .sweep period⟩ :: rest => run (l.sweep time period).2 rest

end UbixVault.Ratelimit
