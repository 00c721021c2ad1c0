/-
Which strings address the record of a join token.

The decoder refuses bits that no byte uses, so a digit cannot be exchanged for another.
It skips line ends, though: with one added, a token is another string with the same
record.  Without line ends a record has one string, the one that was minted.
-/
import UbixVault.Proofs.Raft.JoinToken

namespace UbixVault.Raft

variable {T : TokenCrypto} {token token' : Bytes} {key : Key}

/-- Whatever token was minted with the record of this string, it was this string. -/
def Canonical (T : TokenCrypto) (token : Bytes) : Prop :=
  ∀ secret, secret.length = 32 → tokenKey T token = tokenKey T (tokenOf T secret) → token = tokenOf T secret

/-- No line end, as the decoder knows them. -/
def OneLine (token : Bytes) : Prop := ∀ c ∈ token, Alphabet64.lineEnd c = false

/-- What a string that is accepted holds. -/
theorem exists_secret (h : tokenKey T token = some key) :
    ∃ text secret, token = tokenScheme ++ text ∧ T.base64.unmarshal text = some secret ∧
      secret.length = 32 ∧ key = tokenPrefix ++ hexEncode (T.sum256 secret) := by
  unfold tokenKey at h
  split_ifs at h with hscheme
  obtain ⟨text, rfl⟩ := hscheme
  rw [List.drop_left] at h
  cases hdecode : T.base64.unmarshal text with
  | none => simp [hdecode] at h
  | some secret =>
    simp only [hdecode] at h
    split_ifs at h with hlength
    exact ⟨text, secret, rfl, hdecode, not_not.mp hlength, (Option.some.inj h).symm⟩

/-- The key tells the secret. -/
theorem secret_inj {secret secret' : Bytes} (h : secret.length = 32) (h' : secret'.length = 32)
    (heq : tokenPrefix ++ hexEncode (T.sum256 secret) = tokenPrefix ++ hexEncode (T.sum256 secret')) :
    secret = secret' :=
  T.sum256_inj _ _ h h' (hexEncode_injective (List.append_cancel_left heq))

theorem oneLine_tokenScheme : OneLine tokenScheme := by
  unfold OneLine
  decide +kernel

theorem oneLine_append {s s' : Bytes} : OneLine (s ++ s') ↔ OneLine s ∧ OneLine s' := List.forall_mem_append

/-- Of the strings with one record, those on one line are the one that was minted. -/
theorem eq_tokenOf_iff {secret : Bytes} (hsecret : secret.length = 32)
    (h : tokenKey T.strict token = tokenKey T.strict (tokenOf T.strict secret)) :
    token = tokenOf T.strict secret ↔ OneLine token := by
  rw [tokenKey_tokenOf hsecret] at h
  obtain ⟨text, secret', rfl, hdecode, hlength, hkey⟩ := exists_secret h
  obtain rfl := secret_inj hsecret hlength hkey
  rw [oneLine_append, and_iff_right oneLine_tokenScheme]
  unfold tokenOf
  rw [List.append_cancel_left_eq, eq_comm]
  exact Alphabet64.encode_eq_iff_of_decode hdecode

/--
**When a token is canonical.**  A string that addresses a record is the one that was minted
exactly if there is no line end in it, and two such strings have different records.
-/
theorem canonical_iff (T : TokenCrypto) :
    (∀ token, Canonical T.strict token ↔ (tokenKey T.strict token ≠ none → OneLine token)) ∧
    ∀ token token' key, OneLine token → OneLine token' → tokenKey T.strict token = some key →
      tokenKey T.strict token' = some key → token = token' := by
  constructor
  · intro token
    constructor
    · intro hcanonical haccepted
      obtain ⟨key, hkey⟩ := Option.ne_none_iff_exists'.mp haccepted
      obtain ⟨text, secret, -, -, hlength, rfl⟩ := exists_secret hkey
      have hsame : tokenKey T.strict token = tokenKey T.strict (tokenOf T.strict secret) := by
        rw [hkey, tokenKey_tokenOf hlength]
      exact (eq_tokenOf_iff hlength hsame).mp (hcanonical secret hlength hsame)
    · intro hplain secret hlength hsame
      refine (eq_tokenOf_iff hlength hsame).mpr (hplain ?_)
      rw [hsame, tokenKey_tokenOf hlength]
      exact Option.some_ne_none _
  · intro token token' key hplain hplain' h h'
    obtain ⟨text, secret, -, -, hlength, hkey⟩ := exists_secret h
    have hminted := tokenKey_tokenOf (T := T.strict) hlength
    rw [← hkey] at hminted
    rw [(eq_tokenOf_iff hlength (h.trans hminted.symm)).mpr hplain,
      (eq_tokenOf_iff hlength (h'.trans hminted.symm)).mpr hplain']

/-- A token of zeros, and the same with a line end. -/
theorem two_strings_for_one_record :
    ∃ T token token' key, tokenKey (TokenCrypto.strict T) token = some key ∧
      tokenKey T.strict token' = some key ∧ token ≠ token' := by
  refine ⟨.transparent, tokenScheme ++ List.replicate 43 0x41,
    tokenScheme ++ List.replicate 43 0x41 ++ [0x0a],
    tokenPrefix ++ hexEncode (List.replicate 32 0), ?_, ?_, ?_⟩
  · decide +kernel
  · decide +kernel
  · decide +kernel

end UbixVault.Raft
