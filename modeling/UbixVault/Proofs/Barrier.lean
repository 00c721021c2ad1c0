/-
What the barrier does to the store and to its key.

With the ideal cipher a blob opens under one key and at one path, so the keyring
determines the master key: `Wraps` names both.  Each function of the barrier has
one spec lemma.  On an error nothing has been stored, and when the arguments were
in order the reason is a call that failed.
-/
import UbixVault.Barrier
import UbixVault.Proofs.Outside
import UbixVault.Proofs.Storage

namespace UbixVault

open Program

variable {A : Aead Byte} {env : Env} {w : World}

theorem validKey_keyringPath : validKey keyringPath = true :=
  validKey_of_ascii (by decide +kernel) (by decide +kernel)

/-! ### Ciphers and blobs -/

theorem newAEAD_val (k : CipherKey) : newAEAD k.val = .ok k := dif_pos k.property

theorem newAEAD_eq_ok {key : Bytes} {k : CipherKey} : newAEAD key = .ok k ↔ key = k.val := by
  constructor
  · intro h
    unfold newAEAD at h
    split at h
    · cases h
      rfl
    · cases h
  · rintro rfl
    exact newAEAD_val k

theorem newAEAD_cases (key : Bytes) :
    (∃ k, newAEAD key = .ok k) ∨ newAEAD key = .error (.barrier .invalidKey) := by
  unfold newAEAD
  split
  · exact .inl ⟨_, rfl⟩
  · exact .inr rfl

theorem decrypt_blobOf {k k' : CipherKey} {nonce plaintext : Bytes} {path path' : Key}
    (hn : nonce.length = nonceSize) :
    decrypt A k' (blobOf A k nonce plaintext path) path' =
      match A.opens k'.val nonce (A.seals k.val nonce plaintext (aad path)) (aad path') with
      | some plaintext => .ok plaintext
      | none => .error .authentication := by
  have hlen : ¬ (nonce ++ A.seals k.val nonce plaintext (aad path)).length < nonceSize := by
    rw [List.length_append]
    omega
  unfold decrypt blobOf
  simp only [if_neg hlen, ne_eq, not_true_eq_false, if_false]
  rewrite [List.take_left' hn, List.drop_left' hn]
  rfl

/-- A blob opens under its key at its path, and nowhere else. -/
theorem decrypt_blobOf_eq_ok {k k' : CipherKey} {nonce plaintext plaintext' : Bytes}
    {path path' : Key} (hn : nonce.length = nonceSize) :
    decrypt A k' (blobOf A k nonce plaintext path) path' = .ok plaintext' ↔
      k' = k ∧ path' = path ∧ plaintext' = plaintext := by
  rw [decrypt_blobOf hn]
  have hiff := A.opens_eq_some_iff k'.val k.val nonce plaintext plaintext' (aad path') (aad path)
  have haad : aad path' = aad path ↔ path' = path := by simp [aad]
  rw [haad, Subtype.val_inj] at hiff
  rw [← hiff]
  cases A.opens k'.val nonce (A.seals k.val nonce plaintext (aad path)) (aad path') with
  | none => simp
  | some p => simp

theorem decrypt_blobOf_self {k : CipherKey} {nonce plaintext : Bytes} {path : Key}
    (hn : nonce.length = nonceSize) :
    decrypt A k (blobOf A k nonce plaintext path) path = .ok plaintext :=
  (decrypt_blobOf_eq_ok hn).mpr ⟨rfl, rfl, rfl⟩

/-! ### The keyring -/

/-- The key opens the stored keyring, and what it finds is `barrierKey`. -/
def OpensKeyring (A : Aead Byte) (store : Store) (key barrierKey : Bytes) : Prop :=
  ∃ k blob, key = k.val ∧ store.lookup keyringPath = some blob ∧
    decrypt A k blob keyringPath = .ok barrierKey

/-- The key opens the stored keyring. -/
def IsMasterKey (A : Aead Byte) (store : Store) (key : Bytes) : Prop :=
  ∃ barrierKey, OpensKeyring A store key barrierKey

/-- The stored keyring is the barrier key `B` under the master key `K`. -/
def Wraps (A : Aead Byte) (store : Store) (K B : CipherKey) : Prop :=
  ∃ nonce, nonce.length = nonceSize ∧
    store.lookup keyringPath = some (blobOf A K nonce B.val keyringPath)

section Opens

variable {store : Store} {k : CipherKey} {key blob : Bytes}

theorem opensKeyring_iff (hlookup : store.lookup keyringPath = some blob) {barrierKey : Bytes} :
    OpensKeyring A store k.val barrierKey ↔ decrypt A k blob keyringPath = .ok barrierKey := by
  constructor
  · rintro ⟨k', blob', hk, hsome, hdec⟩
    rw [Subtype.val_inj] at hk
    rw [hlookup, Option.some.injEq] at hsome
    rwa [hk, hsome]
  · intro hdec
    exact ⟨k, blob, rfl, hlookup, hdec⟩

theorem not_isMasterKey_of_lookup (hlookup : store.lookup keyringPath = none) :
    ¬ IsMasterKey A store key := by
  rintro ⟨-, k, blob, -, hsome, -⟩
  rw [hlookup] at hsome
  cases hsome

theorem not_isMasterKey_of_decrypt (hlookup : store.lookup keyringPath = some blob) {e : Err}
    (hdec : decrypt A k blob keyringPath = .error e) : ¬ IsMasterKey A store k.val := by
  rintro ⟨barrierKey, hopens⟩
  rw [opensKeyring_iff hlookup, hdec] at hopens
  cases hopens

theorem not_isMasterKey_of_newAEAD {e : Err} (hkey : newAEAD key = .error e) :
    ¬ IsMasterKey A store key := by
  rintro ⟨-, k, -, rfl, -, -⟩
  rw [newAEAD_val] at hkey
  cases hkey

end Opens

namespace Wraps

variable {store : Store} {K B : CipherKey}

theorem lookup_isSome (h : Wraps A store K B) : (store.lookup keyringPath).isSome := by
  obtain ⟨nonce, -, hlookup⟩ := h
  rw [hlookup]
  rfl

theorem opensKeyring_iff (h : Wraps A store K B) {key barrierKey : Bytes} :
    OpensKeyring A store key barrierKey ↔ key = K.val ∧ barrierKey = B.val := by
  obtain ⟨nonce, hn, hblob⟩ := h
  constructor
  · rintro ⟨k, blob, rfl, hlookup, hdec⟩
    rw [hblob, Option.some.injEq] at hlookup
    rw [← hlookup, decrypt_blobOf_eq_ok hn] at hdec
    exact ⟨congrArg Subtype.val hdec.1, hdec.2.2⟩
  · rintro ⟨rfl, rfl⟩
    exact ⟨K, _, rfl, hblob, decrypt_blobOf_self hn⟩

/-- The keyring determines the master key. -/
theorem isMasterKey_iff (h : Wraps A store K B) {key : Bytes} :
    IsMasterKey A store key ↔ key = K.val := by
  unfold IsMasterKey
  simp [h.opensKeyring_iff]

theorem of_insert {nonce : Bytes} (hn : nonce.length = nonceSize) :
    Wraps A (store.insert keyringPath (blobOf A K nonce B.val keyringPath)) K B :=
  ⟨nonce, hn, Finmap.lookup_insert _⟩

theorem congr (h : Wraps A store K B) {store' : Store}
    (hs : store'.lookup keyringPath = store.lookup keyringPath) : Wraps A store' K B := by
  obtain ⟨nonce, hn, hlookup⟩ := h
  exact ⟨nonce, hn, hs.trans hlookup⟩

/-- A write elsewhere leaves the keyring. -/
theorem insert_of_ne (h : Wraps A store K B) {key : Key} (hne : key ≠ keyringPath)
    (value : Bytes) : Wraps A (store.insert key value) K B :=
  h.congr (Finmap.lookup_insert_of_ne _ hne.symm)

end Wraps

/-! ### Specs -/

theorem encrypt_spec (k : CipherKey) (plaintext : Bytes) (path : Key) :
    Yields env.answer (encrypt A k plaintext path) w
      (fun blob w' => (∃ nonce, nonce.length = nonceSize ∧ blob = blobOf A k nonce plaintext path) ∧
        w'.store = w.store ∧ Passed env 1 w w')
      (fun _ w' => Broke env 1 w w') := by
  refine Yields.bind (Act.yields_context (Act.randRead_spec.mono ?_ fun _ _ h => h))
  rintro nonce w' ⟨-, hs, hp⟩
  exact ⟨⟨nonce.val, nonce.property, rfl⟩, hs, hp⟩

namespace Barrier

theorem initialized_spec :
    Yields env.answer initialized w
      (fun b w' => b = (w.store.lookup keyringPath).isSome ∧ w'.store = w.store ∧ Passed env 1 w w')
      (fun _ w' => Broke env 1 w w') := by
  refine Yields.bind (Act.yields_context ((Act.get_spec validKey_keyringPath).mono ?_
    fun _ _ h => h.mono (Nat.le_refl _)))
  rintro r w' ⟨rfl, hs, hp⟩
  exact ⟨rfl, hs, hp⟩

/-- On an empty keyring, `initializeKeyring` wraps a fresh barrier key, or nothing happens. -/
theorem initializeKeyring_spec (K : CipherKey) (hnone : w.store.lookup keyringPath = none) :
    Yields env.answer (initializeKeyring A K.val) w
      (fun _ w' => ∃ (B : CipherKey) (nonce : Bytes), nonce.length = nonceSize ∧
        w'.store = w.store.insert keyringPath (blobOf A K nonce B.val keyringPath) ∧
        Passed env 4 w w')
      (fun _ w' => Broke env 4 w w') := by
  refine Yields.bind ?_
  rw [newAEAD_val]
  refine Yields.bind (Act.yields_context ((Act.get_spec validKey_keyringPath).mono ?_
    fun _ _ h => h.mono (by omega)))
  rintro r w₁ ⟨rfl, hs₁, hp₁⟩
  rw [hnone]
  refine Yields.bind (Act.yields_context (Act.randRead_spec.mono ?_
    fun _ _ h => h.after hp₁ hs₁ (by omega)))
  rintro B w₂ ⟨-, hs₂, hp₂⟩
  have hs₂' : w₂.store = w.store := hs₂.trans hs₁
  have hp₂' := hp₁.trans hp₂
  refine Yields.bind (Act.yields_context ((encrypt_spec K B.val keyringPath).mono ?_
    fun _ _ h => h.after hp₂' hs₂' (by omega)))
  rintro blob w₃ ⟨⟨nonce, hn, rfl⟩, hs₃, hp₃⟩
  have hs₃' : w₃.store = w.store := hs₃.trans hs₂'
  have hp₃' := hp₂'.trans hp₃
  refine Act.yields_context ((Act.put_spec validKey_keyringPath).mono ?_ ?_)
  · rintro - w₄ ⟨hs₄, ht₄, hf₄⟩
    exact ⟨B, nonce, hn, by rw [hs₄, hs₃'], hp₃'.trans (Passed.one hf₄ ht₄)⟩
  · rintro - w₄ ⟨rfl, hf₄⟩
    exact (Broke.one hf₄).after hp₃' hs₃' (by omega)

/-- `verifyMasterKey` answers whether the key opens the keyring. -/
theorem verifyMasterKey_spec (key : Bytes) :
    Yields env.answer (verifyMasterKey A key) w
      (fun b w' => (b = true ↔ IsMasterKey A w.store key) ∧ w'.store = w.store ∧ Passed env 1 w w')
      (fun _ w' => Halted env 1 (IsMasterKey A w.store key) w w') := by
  refine Yields.bind ?_
  rcases newAEAD_cases key with ⟨k, hk⟩ | hk
  · rw [hk]
    obtain rfl := newAEAD_eq_ok.mp hk
    refine Yields.bind (Act.yields_context ((Act.get_spec validKey_keyringPath).mono ?_
      fun _ _ h => h.halted (by omega)))
    rintro r w₁ ⟨rfl, hs, hp⟩
    cases hlookup : w.store.lookup keyringPath with
    | none => exact Yields.throw (.of_not hs (not_isMasterKey_of_lookup hlookup))
    | some blob =>
      dsimp only
      cases hdec : decrypt A k blob keyringPath with
      | error e =>
        refine Yields.pure ⟨?_, hs, hp⟩
        simp [not_isMasterKey_of_decrypt hlookup hdec]
      | ok B =>
        refine Yields.pure ⟨?_, hs, hp⟩
        simpa using ⟨B, (opensKeyring_iff hlookup).mpr hdec⟩
  · rw [hk]
    exact Halted.of_not rfl (not_isMasterKey_of_newAEAD hk)

/-- `rekey` rewraps the same barrier key under the new master key, or nothing happens. -/
theorem rekey_spec (oldKey : Bytes) (K' : CipherKey) :
    Yields env.answer (rekey A oldKey K'.val) w
      (fun _ w' => ∃ barrierKey nonce, OpensKeyring A w.store oldKey barrierKey ∧
        nonce.length = nonceSize ∧
        w'.store = w.store.insert keyringPath (blobOf A K' nonce barrierKey keyringPath) ∧
        Passed env 3 w w')
      (fun _ w' => Halted env 3 (IsMasterKey A w.store oldKey) w w') := by
  refine Yields.bind ?_
  rcases newAEAD_cases oldKey with ⟨k, hk⟩ | hk
  · rw [hk]
    obtain rfl := newAEAD_eq_ok.mp hk
    refine Yields.bind ?_
    rw [newAEAD_val]
    refine Yields.bind (Act.yields_context ((Act.get_spec validKey_keyringPath).mono ?_
      fun _ _ h => h.halted (by omega)))
    rintro r w₁ ⟨rfl, hs₁, hp₁⟩
    cases hlookup : w.store.lookup keyringPath with
    | none =>
      exact Yields.throw (.of_not hs₁ (not_isMasterKey_of_lookup hlookup))
    | some blob =>
      dsimp only
      cases hdec : decrypt A k blob keyringPath with
      | error e =>
        exact Yields.throw (.of_not hs₁ (not_isMasterKey_of_decrypt hlookup hdec))
      | ok B =>
        refine Yields.bind (Act.yields_context ((encrypt_spec K' B keyringPath).mono ?_
          fun _ _ h => (h.after hp₁ hs₁ (Nat.le_refl _)).halted (by omega)))
        rintro blob' w₂ ⟨⟨nonce, hn, rfl⟩, hs₂, hp₂⟩
        have hs₂' : w₂.store = w.store := hs₂.trans hs₁
        have hp₂' := hp₁.trans hp₂
        refine Act.yields_context ((Act.put_spec validKey_keyringPath).mono ?_ ?_)
        · rintro - w₃ ⟨hs₃, ht₃, hf₃⟩
          exact ⟨B, nonce, (opensKeyring_iff hlookup).mpr hdec, hn, by rw [hs₃, hs₂'],
            hp₂'.trans (Passed.one hf₃ ht₃)⟩
        · rintro - w₃ ⟨rfl, hf₃⟩
          exact ((Broke.one hf₃).after hp₂' hs₂' (Nat.le_refl _)).halted (by omega)
  · rw [hk]
    exact Halted.of_not rfl (not_isMasterKey_of_newAEAD hk)

/--
Unsealing a sealed barrier takes the barrier key out of the keyring.  It fails
with an invalid-key error unless the keyring is missing or a call failed.
-/
theorem unseal_spec (b : Barrier) (hsealed : b.sealed = true) (key : Bytes) :
    Yields env.answer (Barrier.unseal A b key) w
      (fun b' w' => (∃ B : CipherKey, OpensKeyring A w.store key B.val ∧ b' = ⟨some B⟩) ∧
        w'.store = w.store ∧ Passed env 1 w w')
      (fun e w' =>
        Halted env 1 (∃ B : CipherKey, OpensKeyring A w.store key B.val) w w' Call.IsGet ∧
        (e.is (.barrier .invalidKey) = true ∨ w.store.lookup keyringPath = none ∨
          Faulted env 1 w Call.IsGet)) := by
  have hno : ¬ IsMasterKey A w.store key → ¬ ∃ B : CipherKey, OpensKeyring A w.store key B.val :=
    fun hm ⟨B, hB⟩ => hm ⟨B.val, hB⟩
  refine Yields.bind ?_
  rcases newAEAD_cases key with ⟨k, hk⟩ | hk
  · rw [hk]
    obtain rfl := newAEAD_eq_ok.mp hk
    show Yields _ (if b.sealed then _ else _) _ _ _
    rw [if_pos hsealed]
    refine Yields.bind (Act.yields_context ((Act.get_spec validKey_keyringPath).mono ?_
      fun _ _ h => ⟨h.haltedIn, .inr (.inr h.faulted)⟩))
    rintro r w₁ ⟨rfl, hs, hp⟩
    cases hlookup : w.store.lookup keyringPath with
    | none =>
      exact Yields.throw
        ⟨.of_not hs (hno (not_isMasterKey_of_lookup hlookup)), .inr (.inl rfl)⟩
    | some blob =>
      dsimp only
      cases hdec : decrypt A k blob keyringPath with
      | error e =>
        exact Yields.throw
          ⟨.of_not hs (hno (not_isMasterKey_of_decrypt hlookup hdec)), .inl (by decide)⟩
      | ok barrierKey =>
        dsimp only
        rcases newAEAD_cases barrierKey with ⟨B, hB⟩ | hB
        · obtain rfl := newAEAD_eq_ok.mp hB
          rw [hB]
          exact Yields.pure ⟨⟨B, (opensKeyring_iff hlookup).mpr hdec, rfl⟩, hs, hp⟩
        · rw [hB]
          refine ⟨.of_not hs ?_, .inl (by decide)⟩
          rintro ⟨B, hopens⟩
          rw [opensKeyring_iff hlookup, hdec, Except.ok.injEq] at hopens
          rw [hopens, newAEAD_val] at hB
          cases hB
  · rw [hk]
    exact ⟨.of_not rfl (hno (not_isMasterKey_of_newAEAD hk)), .inl (by decide)⟩

end Barrier

/-! ### Data -/

/-- A key that data may be stored at. -/
structure DataKey (key : Key) : Prop where
  valid : validKey key = true
  notReserved : ¬ reservedPrefix <+: key

theorem checkDataKey_eq_ok {key : Key} : checkDataKey key = .ok () ↔ DataKey key := by
  unfold checkDataKey
  by_cases hv : validKey key = true
  · rw [if_pos hv]
    by_cases hr : reservedPrefix.isPrefixOf key = true
    · rw [if_pos hr]
      constructor
      · intro h
        cases h
      · intro h
        exact absurd (List.isPrefixOf_iff_prefix.mp hr) h.notReserved
    · rw [if_neg hr]
      exact ⟨fun _ => ⟨hv, fun h => hr (List.isPrefixOf_iff_prefix.mpr h)⟩, fun _ => rfl⟩
  · rw [if_neg hv]
    constructor
    · intro h
      cases h
    · intro h
      exact absurd h.valid hv

theorem DataKey.ne_of_reserved {key path : Key} (h : DataKey key)
    (hpath : reservedPrefix <+: path) : key ≠ path := by
  rintro rfl
  exact h.notReserved hpath

theorem reserved_keyringPath : reservedPrefix <+: keyringPath := by decide_cbv

namespace Barrier

variable {b : Barrier}

/-- What the barrier finds at a key: a stored blob that opens, or nothing. -/
def Finds (A : Aead Byte) (k : CipherKey) (store : Store) (key : Key) : Option Bytes → Prop
  | none => store.lookup key = none
  | some value => ∃ blob, store.lookup key = some blob ∧ decrypt A k blob key = .ok value

theorem get_spec (key : Key) :
    Yields env.answer (get A b key) w
      (fun r w' => DataKey key ∧ (∃ k, b.aead = some k ∧ Finds A k w.store key r) ∧
        w'.store = w.store ∧ Passed env 1 w w')
      (fun _ w' => Halted env 1 (DataKey key ∧ ∃ k r, b.aead = some k ∧ Finds A k w.store key r)
        w w' Call.IsGet) := by
  refine Yields.bind (Act.yields_ofExcept ?_ ?_)
  · intro _ hcheck
    have hkey := checkDataKey_eq_ok.mp hcheck
    cases haead : b.aead with
    | none => exact Yields.throw (.of_not rfl (by rintro ⟨-, k, r, hk, -⟩; cases hk))
    | some k =>
      refine Yields.bind ((Act.get_spec hkey.valid).mono ?_ fun _ _ h => h.haltedIn)
      rintro r w₁ ⟨rfl, hs, hp⟩
      cases hlookup : w.store.lookup key with
      | none => exact Yields.pure ⟨hkey, ⟨k, rfl, hlookup⟩, hs, hp⟩
      | some blob =>
        dsimp only
        cases hdec : decrypt A k blob key with
        | ok value => exact Yields.pure ⟨hkey, ⟨k, rfl, blob, hlookup, hdec⟩, hs, hp⟩
        | error e =>
          refine Yields.throw (.of_not hs ?_)
          rintro ⟨-, k', r, hk', hfinds⟩
          cases hk'
          cases r with
          | none =>
            rw [Finds, hlookup] at hfinds
            cases hfinds
          | some value =>
            obtain ⟨blob', hlookup', hdec'⟩ := hfinds
            rw [hlookup, Option.some.injEq] at hlookup'
            rw [← hlookup', hdec] at hdec'
            cases hdec'
  · intro e hcheck
    refine Halted.of_not rfl ?_
    rintro ⟨hkey, -⟩
    rw [checkDataKey_eq_ok.mpr hkey] at hcheck
    cases hcheck

theorem put_spec (key : Key) (value : Bytes) :
    Yields env.answer (put A b key value) w
      (fun _ w' => DataKey key ∧ (∃ k nonce, b.aead = some k ∧ nonce.length = nonceSize ∧
        w'.store = w.store.insert key (blobOf A k nonce value key)) ∧ Passed env 2 w w')
      (fun _ w' => Halted env 2 (DataKey key ∧ b.sealed = false) w w') := by
  refine Yields.bind (Act.yields_ofExcept ?_ ?_)
  · intro _ hcheck
    have hkey := checkDataKey_eq_ok.mp hcheck
    cases haead : b.aead with
    | none => exact Yields.throw (.of_not rfl (by simp [Barrier.sealed, haead]))
    | some k =>
      refine Yields.bind (Act.yields_adapt ((encrypt_spec k value key).mono ?_
        fun _ _ h => h.halted (by omega)))
      rintro blob w₁ ⟨⟨nonce, hn, rfl⟩, hs₁, hp₁⟩
      refine (Act.put_spec hkey.valid).mono ?_ ?_
      · rintro - w₂ ⟨hs₂, ht₂, hf₂⟩
        exact ⟨hkey, ⟨k, nonce, rfl, hn, by rw [hs₂, hs₁]⟩, hp₁.trans (Passed.one hf₂ ht₂)⟩
      · rintro - w₂ ⟨rfl, hf₂⟩
        exact ((Broke.one hf₂).after hp₁ hs₁ (Nat.le_refl _)).halted (by omega)
  · intro e hcheck
    refine Halted.of_not rfl ?_
    rintro ⟨hkey, -⟩
    rw [checkDataKey_eq_ok.mpr hkey] at hcheck
    cases hcheck

theorem delete_spec (key : Key) :
    Yields env.answer (delete b key) w
      (fun _ w' => DataKey key ∧ b.sealed = false ∧ w'.store = w.store.erase key ∧
        Passed env 1 w w')
      (fun _ w' => Halted env 1 (DataKey key ∧ b.sealed = false) w w') := by
  refine Yields.bind (Act.yields_ofExcept ?_ ?_)
  · intro _ hcheck
    have hkey := checkDataKey_eq_ok.mp hcheck
    cases haead : b.aead with
    | none => exact Yields.throw (.of_not rfl (by simp [Barrier.sealed, haead]))
    | some k =>
      refine (Act.delete_spec hkey.valid).mono ?_ fun _ _ h => h.halted (Nat.le_refl _)
      rintro - w₁ ⟨hs, hp⟩
      exact ⟨hkey, by simp [Barrier.sealed, haead], hs, hp⟩
  · intro e hcheck
    refine Halted.of_not rfl ?_
    rintro ⟨hkey, -⟩
    rw [checkDataKey_eq_ok.mpr hkey] at hcheck
    cases hcheck

/-! ### Programs run over the barrier -/

section Through

variable {α β : Type}

theorem through_bind (x : Act α) (f : α → Act β) :
    through A b (x >>= f) = through A b x >>= fun a => through A b (f a) := by
  refine ExceptT.ext ?_
  show translate (serve A b) (x >>= f).run = _
  rw [ExceptT.run_bind, translate_bind, ExceptT.run_bind]
  refine congrArg _ (funext fun r => ?_)
  cases r <;> rfl

theorem through_context (text : String) (x : Act α) :
    through A b (x.context text) = (through A b x).context text := by
  refine ExceptT.ext ?_
  show translate (serve A b) (Except.mapError (Err.wrap text) <$> x.run)
    = Except.mapError (Err.wrap text) <$> translate (serve A b) x.run
  rw [← bind_pure_comp, translate_bind, ← bind_pure_comp]
  rfl

theorem through_put (key : Key) (value : Bytes) :
    through A b (Act.put key value) = put A b key value :=
  ExceptT.ext (translate_perform (serve A b) (.put key value))

theorem through_randRead (n : Nat) : through A b (Act.randRead n) = Act.randRead n :=
  ExceptT.ext (translate_perform (serve A b) (.randRead n))

theorem through_now : through A b Act.now = Act.now := rfl

end Through

end Barrier

end UbixVault
