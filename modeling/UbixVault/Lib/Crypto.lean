/-
Idealised cryptography and encodings.

What a protocol proof uses of a cipher, a hash or an encoding is a law, and each of
the structures below carries its own:

  * an `Aead` opens what it sealed, and opens it under no other key and with no
    other associated data;
  * a `Hash` has no two inputs with one digest;
  * a `Codec` reads back the well-formed values it wrote.

Byte strings are lists over an arbitrary alphabet `B`, of no fixed length, so the
laws are satisfiable: the `transparent` instances, which hide nothing, and the codecs
of wire formats satisfy them.  Secrecy is no part of any law here.
-/
import Mathlib

/-! ### Encodings -/

/-- An encoding of `α` over the alphabet `B`, faithful on the values in `wf`. -/
structure Codec (B α : Type) (wf : α → Prop) where
  marshal : α → List B
  unmarshal : List B → Option α
  unmarshal_marshal : ∀ a, wf a → unmarshal (marshal a) = some a

namespace Codec

variable {B α : Type} {wf : α → Prop}

/-- Two well-formed values with one encoding are one value. -/
theorem marshal_inj (c : Codec B α wf) {a a' : α} (ha : wf a) (ha' : wf a')
    (h : c.marshal a = c.marshal a') : a = a' := by
  have hread := c.unmarshal_marshal a ha
  rw [h, c.unmarshal_marshal a' ha'] at hread
  exact (Option.some.inj hread).symm

end Codec

/-! ### Authenticated encryption -/

/-- An authenticated cipher with associated data, ideal in the second law. -/
structure Aead (B : Type) where
  seals : (key nonce plaintext ad : List B) → List B
  opens : (key nonce ciphertext ad : List B) → Option (List B)
  /-- What was sealed opens. -/
  opens_seals : ∀ key nonce plaintext ad,
    opens key nonce (seals key nonce plaintext ad) ad = some plaintext
  /-- It opens under no other key and with no other associated data. -/
  opens_ideal : ∀ key key' nonce nonce' plaintext ad ad',
    (opens key nonce (seals key' nonce' plaintext ad') ad).isSome → key = key' ∧ ad = ad'

namespace Aead

variable {B : Type}

/-- Under the nonce it was sealed with, a ciphertext opens to its plaintext or not at all. -/
theorem opens_eq_some_iff (A : Aead B) (key key' nonce plaintext plaintext' ad ad' : List B) :
    A.opens key nonce (A.seals key' nonce plaintext ad') ad = some plaintext' ↔
      key = key' ∧ ad = ad' ∧ plaintext' = plaintext := by
  constructor
  · intro h
    obtain ⟨rfl, rfl⟩ := A.opens_ideal key key' nonce nonce plaintext ad ad' (by rw [h]; rfl)
    rw [A.opens_seals] at h
    exact ⟨rfl, rfl, (Option.some.inj h).symm⟩
  · rintro ⟨rfl, rfl, rfl⟩
    exact A.opens_seals _ _ _ _

/-- The cipher that writes down everything it was given. -/
def transparent [DecidableEq B] (c : Codec B (List B × List B × List B) fun _ => True) :
    Aead B where
  seals key _ plaintext ad := c.marshal (key, plaintext, ad)
  opens key _ ciphertext ad :=
    match c.unmarshal ciphertext with
    | some (key', plaintext, ad') => if key = key' ∧ ad = ad' then some plaintext else none
    | none => none
  opens_seals key nonce plaintext ad := by simp [c.unmarshal_marshal]
  opens_ideal key key' nonce nonce' plaintext ad ad' h := by
    simpa [c.unmarshal_marshal] using h

end Aead

/-! ### Hashing -/

/-- A collision-free hash with nonempty digests. -/
structure Hash (B : Type) where
  sum : List B → List B
  sum_ne_nil : ∀ l, sum l ≠ []
  sum_injective : Function.Injective sum

namespace Hash

variable {B : Type}

/-- The hash that only adds a letter. -/
def transparent (b : B) : Hash B where
  sum l := b :: l
  sum_ne_nil l := by simp
  sum_injective l l' h := by simpa using h

end Hash
