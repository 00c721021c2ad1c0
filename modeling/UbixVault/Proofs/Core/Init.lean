/-
What initialization leaves behind, for every pattern of failures.

Initialization is a fixed sequence of calls, and the write of the keyring stands
in the middle of it.  `InitOutcome` has one case for an error before that write
(nothing happened), one for an error after it (the keyring is there, the
configuration is not), and one for each mode that succeeded.  Each case says which
calls passed, so that a failure can be told from its position.
-/
import UbixVault.Proofs.Core.Config
import UbixVault.Proofs.Token.Create

namespace UbixVault

open Program Shamir

variable {P : Platform} {env : Env} {w : World} {c : Core}

/-! ### The last phase in each mode -/

/-- The configuration written in Shamir mode. -/
def shamirConfig (shares threshold : Int) : SealConfig :=
  { type := some .shamir, shares, threshold, recoveryHash := [] }

theorem initShamir_spec (cfg : InitConfig) (K : CipherKey) (root : Token)
    (hcfg : validShares cfg.secretShares cfg.secretThreshold = true) :
    YieldsState env.answer (Core.initShamir P cfg K.val root) c w
      (fun res c' w' => c' = c.sealBarrier ∧ res.rootToken = root.id ∧ res.recoveryKeys = [] ∧
        SplitInto env w.tick K.val cfg.secretShares cfg.secretThreshold res.keys ∧
        w'.store = w.store.insert sealConfigPath
          (P.sealConfigJson.marshal (shamirConfig cfg.secretShares cfg.secretThreshold)) ∧
        Passed env (cfg.secretShares.toNat + 33) w w')
      (fun _ c' w' => c' = c.sealBarrier ∧ Broke env (cfg.secretShares.toNat + 33) w w') := by
  have hargs := splitArgs_of_validShares hcfg K.ne_nil
  have hlen : K.val.length = 32 := K.property
  refine YieldsState.modify_bind (YieldsState.bind (YieldsState.stateless
    (Act.yields_context ((split_spec hargs).mono ?_ ?_))))
  · rintro shares w₁ ⟨hsplit, hs₁, hp₁⟩
    rw [hlen] at hp₁
    refine YieldsState.bind (YieldsState.stateless ((writeSealConfig_spec _).mono ?_ ?_))
    · rintro - w₂ ⟨hs₂, ht₂, hf₂⟩
      refine YieldsState.pure ⟨rfl, rfl, rfl, hsplit, by rw [hs₂, hs₁]; rfl, ?_⟩
      exact hp₁.trans (Passed.one hf₂ ht₂)
    · rintro - w₂ ⟨rfl, hf₂⟩
      exact ⟨rfl, (Broke.one hf₂).after hp₁ hs₁ (by omega)⟩
  · rintro - w₁ hbroke
    exact ⟨rfl, hbroke.mono (by omega)⟩

/-- The configuration written in auto mode. -/
def autoConfig (P : Platform) (mode : AutoSeal) (shares threshold : Int) (recoveryKey : Bytes) :
    SealConfig :=
  { type := some (.autoUnseal mode), shares, threshold, recoveryHash := P.sha256.sum recoveryKey }

/-- An error in auto mode has at most stored the wrapped master key. -/
structure AutoBroke (env : Env) (n : Nat) (w w' : World) : Prop where
  store : w'.store = w.store ∨ ∃ wrapped, w'.store = w.store.insert wrappedMasterKeyPath wrapped
  faulted : Faulted env n w

theorem initAuto_spec (cfg : InitConfig) (mode : AutoSeal) (masterKey : Bytes) (root : Token)
    (hcfg : validShares cfg.secretShares cfg.secretThreshold = true) :
    YieldsState env.answer (Core.initAuto P cfg mode masterKey root) c w
      (fun res c' w' => c' = c ∧ res.rootToken = root.id ∧ res.keys = [] ∧
        ∃ recoveryKey : CipherKey, Dealt recoveryKey.val cfg.secretThreshold.toNat res.recoveryKeys ∧
          res.recoveryKeys.length = cfg.secretShares.toNat ∧
          w'.store = (w.store.insert wrappedMasterKeyPath
              (env.kms.wrapped w.tick masterKey)).insert sealConfigPath
            (P.sealConfigJson.marshal
              (autoConfig P mode cfg.secretShares cfg.secretThreshold recoveryKey.val)) ∧
          Passed env (cfg.secretShares.toNat + 36) w w')
      (fun _ c' w' => (c' = c.sealBarrier ∨ c' = c) ∧
        AutoBroke env (cfg.secretShares.toNat + 36) w w') := by
  refine YieldsState.bind (YieldsState.onError (Act.wrap_spec.mono ?_
    fun _ _ h => ⟨.inl rfl, .inl h.store, h.faulted.mono (by omega)⟩))
  rintro wrapped w₁ ⟨rfl, hs₁, hp₁⟩
  refine YieldsState.bind (YieldsState.onError (Act.yields_context
    ((Act.put_spec validKey_wrappedMasterKeyPath).mono ?_ ?_)))
  swap
  · rintro - w₂ ⟨rfl, hf₂⟩
    have hbroke := (Broke.one hf₂).after hp₁ hs₁ (Nat.le_refl _)
    exact ⟨.inl rfl, .inl hbroke.store, hbroke.faulted.mono (by omega)⟩
  rintro - w₂ ⟨hs₂, ht₂, hf₂⟩
  rw [hs₁] at hs₂
  have hp₂ := hp₁.trans (Passed.one hf₂ ht₂)
  -- From here on the wrapped key is stored, whatever happens.
  have herr : ∀ {n : Nat} {w₃ w' : World} {m : Nat}, w₃.store = w₂.store → Passed env n w w₃ →
      Broke env m w₃ w' → n + m ≤ cfg.secretShares.toNat + 36 →
      AutoBroke env (cfg.secretShares.toNat + 36) w w' := by
    intro n w₃ w' m hs hp hbroke hle
    exact ⟨.inr ⟨_, hbroke.store.trans (hs.trans hs₂)⟩, hbroke.faulted.after hp.tick hle⟩
  refine YieldsState.bind (YieldsState.onError (Act.yields_context (Act.randRead_spec.mono ?_
    fun _ _ h => ⟨.inl rfl, herr rfl hp₂ h (by omega)⟩)))
  rintro recoveryKey w₃ ⟨-, hs₃, hp₃⟩
  have hp₃' := hp₂.trans hp₃
  let rk : CipherKey := recoveryKey
  have hargs := splitArgs_of_validShares hcfg rk.ne_nil
  have hlen : rk.val.length = 32 := rk.property
  refine YieldsState.bind (YieldsState.onError (Act.yields_context ((split_spec hargs).mono ?_ ?_)))
  swap
  · rintro - w₄ hbroke
    rw [hlen] at hbroke
    exact ⟨.inl rfl, herr hs₃ hp₃' hbroke (by omega)⟩
  rintro shares w₄ ⟨hsplit, hs₄, hp₄⟩
  rw [hlen] at hp₄
  have hp₄' := hp₃'.trans hp₄
  refine YieldsState.bind (YieldsState.stateless ((writeSealConfig_spec _).mono ?_ ?_))
  · rintro - w₅ ⟨hs₅, ht₅, hf₅⟩
    have htwo := hargs.two_le_threshold
    refine YieldsState.pure ⟨rfl, rfl, rfl, rk, hsplit.dealt htwo, hsplit.length, ?_, ?_⟩
    · rw [hs₅, hs₄, hs₃, hs₂]
      rfl
    · have hp := hp₄'.trans (Passed.one hf₅ ht₅)
      rwa [show 1 + 1 + 1 + (cfg.secretShares.toNat + 32) + 1 = cfg.secretShares.toNat + 36 by
        omega] at hp
  · rintro - w₅ ⟨rfl, hf₅⟩
    exact ⟨.inr rfl, herr (hs₄.trans hs₃) hp₄' (Broke.one hf₅) (by omega)⟩

/-! ### What a successful initialization issued -/

/-- A Shamir vault: the keys are the shares of the master key that wraps the keyring. -/
structure Issued (P : Platform) (store : Store) (K B : CipherKey) (shares threshold : Int)
    (keys : List Share) : Prop where
  wraps : Wraps P.aead store K B
  config : storedConfig P store = some (shamirConfig shares threshold)
  valid : validShares shares threshold = true
  dealt : Dealt K.val threshold.toNat keys
  length : keys.length = shares.toNat

/-- An auto-unseal vault: the keys are the shares of the recovery key whose hash is stored. -/
structure Recoverable (P : Platform) (env : Env) (store : Store) (K B R : CipherKey)
    (mode : AutoSeal) (shares threshold : Int) (keys : List Share) : Prop where
  wraps : Wraps P.aead store K B
  config : storedConfig P store = some (autoConfig P mode shares threshold R.val)
  valid : validShares shares threshold = true
  dealt : Dealt R.val threshold.toNat keys
  length : keys.length = shares.toNat
  wrapped : ∃ t, store.lookup wrappedMasterKeyPath = some (env.kms.wrapped t K.val)

/-- What a successful initialization returned and stored, in either mode. -/
inductive Started (P : Platform) (env : Env) (cfg : InitConfig) (c : Core) (K B : CipherKey) :
    InitResult → Core → Store → Prop
  | shamir {res : InitResult} {store : Store} (mode : c.autoSeal = none)
      (noRecovery : res.recoveryKeys = [])
      (issued : Issued P store K B cfg.secretShares cfg.secretThreshold res.keys) :
      Started P env cfg c K B res c.sealBarrier store
  | auto {res : InitResult} {store : Store} {mode : AutoSeal} {R : CipherKey}
      (hmode : c.autoSeal = some mode) (noKeys : res.keys = [])
      (recoverable : Recoverable P env store K B R mode cfg.secretShares cfg.secretThreshold
        res.recoveryKeys) :
      Started P env cfg c K B res { c with barrier := ⟨some B⟩ } store

/--
An error after the keyring was written: the keyring is there, the configuration is
not.  Only in auto mode can the barrier be left unsealed.
-/
structure Stranded (P : Platform) (c : Core) (w : World) (K B : CipherKey) (c' : Core)
    (w' : World) : Prop where
  wraps : Wraps P.aead w'.store K B
  config : w'.store.lookup sealConfigPath = w.store.lookup sealConfigPath
  core : c' = c.sealBarrier ∨ c.autoSeal.isSome ∧ c' = { c with barrier := ⟨some B⟩ }

/-- How many calls follow the write of the keyring. -/
def callsAfterKeyring (autoSeal : Option AutoSeal) (shares : Int) : Nat :=
  if autoSeal.isSome then shares.toNat + 41 else shares.toNat + 38

theorem sealBarrier_of_sealed (h : c.barrier.sealed = true) : c.sealBarrier = c := by
  obtain ⟨autoSeal, ha, ⟨aead⟩, progress, rootAttempt, rekey⟩ := c
  cases aead with
  | none => rfl
  | some k => simp [Barrier.sealed] at h

theorem storeKey_ne_reserved {path : Key} (h : reservedPrefix <+: path) (id : Bytes) :
    P.tokens.storeKey id ≠ path := (P.tokens.dataKey_storeKey id).ne_of_reserved h

/-- The calls after the keyring is written; the third reads the clock and cannot fail. -/
theorem initUnsealed_spec (cfg : InitConfig) (K B : CipherKey)
    (hcfg : validShares cfg.secretShares cfg.secretThreshold = true)
    (hsealed : c.barrier.sealed = true) (hw : Wraps P.aead w.store K B) :
    YieldsState env.answer (Core.initUnsealed P cfg K.val) c w
      (fun res c' w' => Started P env cfg c K B res c' w'.store ∧
        ∀ i < callsAfterKeyring c.autoSeal cfg.secretShares, i ≠ 2 →
          ∃ call, env.fails (w.tick + i) call = false)
      (fun _ c' w' => Stranded P c w K B c' w' ∧
        Faulted env (callsAfterKeyring c.autoSeal cfg.secretShares) w) := by
  have hcalls : cfg.secretShares.toNat + 38 ≤ callsAfterKeyring c.autoSeal cfg.secretShares := by
    unfold callsAfterKeyring
    split <;> omega
  refine YieldsState.get_bind (YieldsState.bind (YieldsState.stateless
    (Act.yields_context ((Barrier.unseal_spec c.barrier hsealed K.val).mono ?_ ?_))))
  swap
  · rintro e w₁ ⟨hhalt, -⟩
    refine ⟨⟨hw.congr (by rw [hhalt.store]), by rw [hhalt.store],
      .inl (sealBarrier_of_sealed hsealed).symm⟩, ?_⟩
    exact (hhalt.faulted ⟨B, hw.opensKeyring_iff.mpr ⟨rfl, rfl⟩⟩).mono (by omega)
  rintro b w₁ ⟨⟨B', hopens, rfl⟩, hs₁, hp₁⟩
  obtain rfl : B' = B := Subtype.ext (hw.opensKeyring_iff.mp hopens).2
  refine YieldsState.set_bind (YieldsState.bind (YieldsState.onError
    (Act.yields_context (createRoot_spec.mono ?_ ?_))))
  swap
  · rintro e w₂ hhalt
    have hs : w₂.store = w.store := hhalt.store.trans hs₁
    refine ⟨⟨hw.congr (by rw [hs]), by rw [hs], .inl rfl⟩, ?_⟩
    exact (hhalt.faulted rfl).after hp₁.tick (by omega)
  rintro root w₂ ⟨k, nonce, -, hk, hn, hs₂, hp₂⟩
  obtain rfl : B' = k := Option.some.inj hk
  rw [hs₁] at hs₂
  have hw₂ : Wraps P.aead w₂.store K B' := by
    rw [hs₂]
    exact hw.insert_of_ne (storeKey_ne_reserved reserved_keyringPath _) _
  have hcfg₂ : w₂.store.lookup sealConfigPath = w.store.lookup sealConfigPath := by
    rw [hs₂]
    exact Finmap.lookup_insert_of_ne _ (storeKey_ne_reserved reserved_sealConfigPath _).symm
  -- The five calls so far, as seen from the start.
  have ht₂ : w₂.tick = w.tick + 5 := by rw [hp₂.tick, hp₁.tick]
  have hquiet₂ : ∀ i < 5, i ≠ 2 → ∃ call, env.fails (w.tick + i) call = false := by
    intro i hi hne
    have hid := hp₂.id
    have hnonce := hp₂.nonce
    have hwrite := hp₂.write
    rw [hp₁.tick] at hid hnonce hwrite
    interval_cases i
    · exact hp₁.quiet 0 Nat.one_pos
    · exact hid
    · exact absurd rfl hne
    · exact hnonce
    · exact hwrite
  have hquiet : ∀ {n : Nat} {w' : World}, Passed env n w₂ w' → ∀ i < n + 5, i ≠ 2 →
      ∃ call, env.fails (w.tick + i) call = false := by
    intro n w' hp i hi hne
    by_cases hlt : i < 5
    · exact hquiet₂ i hlt hne
    · have h := hp.quiet (i - 5) (by omega)
      rwa [ht₂, show w.tick + 5 + (i - 5) = w.tick + i by omega] at h
  generalize hc₂ : ({ c with barrier := ⟨some B'⟩ } : Core) = c₂
  have hseal : c₂.sealBarrier = c.sealBarrier := by rw [← hc₂]; rfl
  cases hauto : c.autoSeal with
  | none =>
    have hn : callsAfterKeyring none cfg.secretShares = cfg.secretShares.toNat + 38 := rfl
    rw [hn]
    refine (initShamir_spec cfg K root hcfg).mono ?_ ?_
    · rintro res c₃ w₃ ⟨hc₃, -, hrec, hsplit, hs₃, hp₃⟩
      rw [hc₃, hseal]
      have htwo := (splitArgs_of_validShares hcfg K.ne_nil).two_le_threshold
      refine ⟨.shamir hauto hrec ⟨?_, ?_, hcfg, hsplit.dealt htwo, hsplit.length⟩,
        hquiet hp₃⟩
      · rw [hs₃]
        exact hw₂.insert_of_ne sealConfigPath_ne_keyringPath _
      · rw [hs₃]
        exact storedConfig_insert _ _
    · rintro e c₃ w₃ ⟨hc₃, hbroke⟩
      refine ⟨⟨hw₂.congr (by rw [hbroke.store]), by rw [hbroke.store, hcfg₂],
        .inl (hc₃.trans hseal)⟩, ?_⟩
      exact hbroke.faulted.after ht₂ (by omega)
  | some mode =>
    have hn : callsAfterKeyring (some mode) cfg.secretShares = cfg.secretShares.toNat + 41 := rfl
    rw [hn]
    refine (initAuto_spec cfg mode K.val root hcfg).mono ?_ ?_
    · rintro res c₃ w₃ ⟨hc₃, -, hkeys, R, hdealt, hlen, hs₃, hp₃⟩
      rw [hc₃, ← hc₂]
      refine ⟨.auto hauto hkeys (R := R) ⟨?_, ?_, hcfg, hdealt, hlen, w₂.tick, ?_⟩, hquiet hp₃⟩
      · rw [hs₃]
        exact (hw₂.insert_of_ne wrappedMasterKeyPath_ne_keyringPath _).insert_of_ne
          sealConfigPath_ne_keyringPath _
      · rw [hs₃]
        exact storedConfig_insert _ _
      · rw [hs₃, Finmap.lookup_insert_of_ne _ wrappedMasterKeyPath_ne_sealConfigPath,
          Finmap.lookup_insert]
    · rintro e c₃ w₃ ⟨hc₃, hbroke⟩
      have hlookup : w₃.store.lookup keyringPath = w₂.store.lookup keyringPath ∧
          w₃.store.lookup sealConfigPath = w₂.store.lookup sealConfigPath := by
        rcases hbroke.store with hs | ⟨wrapped, hs⟩
        · rw [hs]
          exact ⟨rfl, rfl⟩
        · rw [hs]
          exact ⟨Finmap.lookup_insert_of_ne _ wrappedMasterKeyPath_ne_keyringPath.symm,
            Finmap.lookup_insert_of_ne _ wrappedMasterKeyPath_ne_sealConfigPath.symm⟩
      refine ⟨⟨hw₂.congr hlookup.1, hlookup.2.trans hcfg₂, ?_⟩, ?_⟩
      · rcases hc₃ with hc₃ | hc₃
        · exact .inl (hc₃.trans hseal)
        · exact .inr ⟨by rw [hauto]; rfl, hc₃.trans hc₂.symm⟩
      · exact hbroke.faulted.after ht₂ (by omega)

/-! ### The whole call -/

/-- The key was drawn between two worlds. -/
def Drawn (env : Env) (w w' : World) (K : CipherKey) : Prop :=
  ∃ t, w.tick ≤ t ∧ t < w'.tick ∧ K = env.random t masterKeySize

/--
How an initialization ends, when the keyring is written by call number `k`
(counting from one).  An error in the first `k` calls leaves everything as it was;
an error after them leaves the keyring behind.
-/
inductive InitOutcome (P : Platform) (env : Env) (k : Nat) (cfg : InitConfig) (c : Core)
    (w : World) : Except Err InitResult → Core → World → Prop
  | refused {e : Err} {w' : World}
      (halted : Halted env k (w.store.lookup keyringPath = none) w w') :
      InitOutcome P env k cfg c w (.error e) c w'
  | stranded {e : Err} {c' : Core} {w' : World} {K B : CipherKey}
      (fresh : w.store.lookup keyringPath = none) (left : Stranded P c w K B c' w')
      (quiet : ∀ i < k, ∃ call, env.fails (w.tick + i) call = false)
      (faulted : Faulted env (k + callsAfterKeyring c.autoSeal cfg.secretShares) w) :
      InitOutcome P env k cfg c w (.error e) c' w'
  | started {res : InitResult} {c' : Core} {w' : World} {K B : CipherKey}
      (fresh : w.store.lookup keyringPath = none)
      (started : Started P env cfg c K B res c' w'.store)
      (quiet : ∀ i < k + callsAfterKeyring c.autoSeal cfg.secretShares, i ≠ k + 2 →
        ∃ call, env.fails (w.tick + i) call = false) (drawn : Drawn env w w' K) :
      InitOutcome P env k cfg c w (.ok res) c' w'

/-- The outcome is the same when `n` more calls passed before. -/
theorem InitOutcome.after {n k : Nat} {cfg : InitConfig} {w₁ : World} {r : Except Err InitResult}
    {c' : Core} {w' : World} (h : InitOutcome P env k cfg c w₁ r c' w') (hp : Passed env n w w₁)
    (hs : w₁.store = w.store) : InitOutcome P env (n + k) cfg c w r c' w' := by
  have hquiet : ∀ {m : Nat} {p : Nat → Prop}, (∀ i < m, p i → ∃ call,
      env.fails (w₁.tick + i) call = false) → ∀ i < n + m, (∀ j, i = n + j → p j) →
      ∃ call, env.fails (w.tick + i) call = false := by
    intro m p h₁ i hi hpi
    by_cases hlt : i < n
    · exact hp.quiet i hlt
    · have hget := h₁ (i - n) (by omega) (hpi _ (by omega))
      rwa [hp.tick, show w.tick + n + (i - n) = w.tick + i by omega] at hget
  cases h with
  | refused halted => exact .refused (halted.after hp.tick hs (Nat.le_refl _) (by rw [hs]; exact id))
  | stranded fresh left quiet faulted =>
    refine .stranded (by rw [← hs]; exact fresh)
      ⟨left.wraps, by rw [left.config, hs], left.core⟩ ?_
      (faulted.after hp.tick (by omega))
    intro i hi
    exact hquiet (p := fun _ => True) (fun j hj _ => quiet j hj) i hi fun _ _ => trivial
  | started fresh started quiet drawn =>
    obtain ⟨t, hle, hlt, hK⟩ := drawn
    rw [hp.tick] at hle
    refine .started (by rw [← hs]; exact fresh) started ?_ ⟨t, Nat.le_of_add_right_le hle, hlt, hK⟩
    intro i hi hne
    rw [Nat.add_assoc] at hi
    exact hquiet quiet i hi fun j hj => by omega

/-- Of the world that is left, the store matters, and that it is no earlier one. -/
theorem InitOutcome.congr_world {k : Nat} {cfg : InitConfig} {r : Except Err InitResult}
    {c' : Core} {w' w'' : World} (h : InitOutcome P env k cfg c w r c' w')
    (hs : w''.store = w'.store) (ht : w'.tick ≤ w''.tick) :
    InitOutcome P env k cfg c w r c' w'' := by
  cases h with
  | refused halted => exact .refused ⟨hs.trans halted.store, halted.faulted⟩
  | stranded fresh left quiet faulted =>
    exact .stranded fresh ⟨left.wraps.congr (by rw [hs]), by rw [hs, left.config], left.core⟩
      quiet faulted
  | started fresh started quiet drawn =>
    obtain ⟨t, hle, hlt, hK⟩ := drawn
    exact .started fresh (by rw [hs]; exact started) quiet ⟨t, hle, lt_of_lt_of_le hlt ht, hK⟩

/-- The keyring is written by the sixth call made under the lock. -/
theorem initLocked_spec (cfg : InitConfig)
    (hcfg : validShares cfg.secretShares cfg.secretThreshold = true)
    (hsealed : w.store.lookup keyringPath = none → c.barrier.sealed = true) :
    YieldsState env.answer (Core.initLocked P cfg) c w
      (fun res c' w' => InitOutcome P env 6 cfg c w (.ok res) c' w')
      (fun e c' w' => InitOutcome P env 6 cfg c w (.error e) c' w') := by
  refine YieldsState.bind (YieldsState.stateless (Barrier.initialized_spec.mono ?_
    fun _ _ h => .refused (h.halted (by omega))))
  rintro initialized w₁ ⟨rfl, hs₁, hp₁⟩
  cases hlookup : w.store.lookup keyringPath with
  | some blob =>
    refine YieldsState.throw (.refused (.of_not hs₁ ?_))
    rw [hlookup]
    exact Option.some_ne_none _
  | none =>
    refine YieldsState.bind (YieldsState.stateless (Act.yields_context (Act.randRead_spec.mono ?_
      fun _ _ h => .refused ((h.after hp₁ hs₁ (Nat.le_refl _)).halted (by omega)))))
    rintro K w₂ ⟨hK, hs₂, hp₂⟩
    rw [hp₁.tick] at hK
    have hs₂' : w₂.store = w.store := hs₂.trans hs₁
    have hp₂' := hp₁.trans hp₂
    refine YieldsState.bind (YieldsState.stateless (Act.yields_context
      ((Barrier.initializeKeyring_spec K (by rw [hs₂', hlookup])).mono ?_
        fun _ _ h => .refused ((h.after hp₂' hs₂' (Nat.le_refl _)).halted (by omega)))))
    rintro - w₃ ⟨B, nonce, hn, hs₃, hp₃⟩
    have hp₃' := hp₂'.trans hp₃
    have hw₃ : Wraps P.aead w₃.store K B := by
      rw [hs₃]
      exact Wraps.of_insert hn
    have hcfg₃ : w₃.store.lookup sealConfigPath = w.store.lookup sealConfigPath := by
      rw [hs₃, hs₂']
      exact Finmap.lookup_insert_of_ne _ sealConfigPath_ne_keyringPath
    refine (Env.later (initUnsealed_spec cfg K B hcfg (hsealed hlookup) hw₃)).mono ?_ ?_
    · rintro res c' w' ⟨hlater, hstarted, hquiet⟩
      rw [hp₃'.tick] at hlater
      refine .started hlookup hstarted ?_ ⟨_, Nat.le_add_right _ _, by omega, hK⟩
      intro i hi hne
      by_cases hlt : i < 6
      · exact hp₃'.quiet i hlt
      · have h := hquiet (i - 6) (by omega) (by omega)
        rwa [hp₃'.tick, show w.tick + (1 + 1 + 4) + (i - 6) = w.tick + i by omega] at h
    · rintro e c' w' ⟨hleft, hfault⟩
      exact .stranded hlookup ⟨hleft.wraps, hleft.config.trans hcfg₃, hleft.core⟩ hp₃'.quiet
        (hfault.after hp₃'.tick (by omega))

/-- How many calls there are up to the write of the keyring, that write included. -/
def callsToKeyring (ha : Bool) : Nat := if ha then 8 else 6

theorem releaseLock_store (w : World) : (Core.releaseLock.run env.answer w).2.store = w.store := by
  show (env.answer w .releaseLock).2.store = w.store
  unfold Env.answer Env.guarded
  dsimp only
  split
  · rfl
  · rfl

/-- **Every way an initialization can end.** -/
theorem initializeVault_spec (cfg : InitConfig)
    (hsealed : w.store.lookup keyringPath = none → c.barrier.sealed = true) :
    YieldsState env.answer (Core.initializeVault P cfg) c w
      (fun res c' w' =>
        validShares (c.initConfig cfg).secretShares (c.initConfig cfg).secretThreshold = true ∧
        InitOutcome P env (callsToKeyring c.ha) (c.initConfig cfg) c w (.ok res) c' w')
      (fun e c' w' =>
        (validShares (c.initConfig cfg).secretShares (c.initConfig cfg).secretThreshold = true →
          InitOutcome P env (callsToKeyring c.ha) (c.initConfig cfg) c w (.error e) c' w') ∧
        (validShares (c.initConfig cfg).secretShares (c.initConfig cfg).secretThreshold = false →
          c' = c ∧ w' = w)) := by
  refine YieldsState.get_bind ?_
  dsimp only
  by_cases hcfg : validShares (c.initConfig cfg).secretShares (c.initConfig cfg).secretThreshold = true
  swap
  · rw [if_neg hcfg]
    exact YieldsState.throw ⟨fun h => absurd h hcfg, fun _ => ⟨rfl, rfl⟩⟩
  rw [if_pos hcfg]
  suffices hmain : YieldsState env.answer _ c w
      (fun res c' w' => InitOutcome P env (callsToKeyring c.ha) (c.initConfig cfg) c w (.ok res) c' w')
      (fun e c' w' =>
        InitOutcome P env (callsToKeyring c.ha) (c.initConfig cfg) c w (.error e) c' w') by
    refine hmain.mono (fun _ _ _ h => ⟨hcfg, h⟩) fun _ _ _ h => ⟨fun _ => h, fun hno => ?_⟩
    rw [hcfg] at hno
    cases hno
  by_cases hha : c.ha = true
  swap
  · rw [if_neg hha]
    have hk : callsToKeyring c.ha = 6 := by simp [callsToKeyring, hha]
    rw [hk]
    exact initLocked_spec _ hcfg hsealed
  rw [if_pos hha]
  have hk : callsToKeyring c.ha = 2 + 6 := by simp [callsToKeyring, hha]
  rw [hk]
  refine YieldsState.bind (YieldsState.stateless (Barrier.initialized_spec.mono ?_
    fun _ _ h => .refused (h.halted (by omega))))
  rintro initialized w₁ ⟨rfl, hs₁, hp₁⟩
  cases hlookup : w.store.lookup keyringPath with
  | some blob =>
    refine YieldsState.throw (.refused (.of_not hs₁ ?_))
    rw [hlookup]
    exact Option.some_ne_none _
  | none =>
    refine YieldsState.bind (YieldsState.stateless (Act.yields_context (Act.acquireLock_spec.mono ?_
      fun _ _ h => .refused ((h.after hp₁ hs₁ (Nat.le_refl _)).halted (by omega)))))
    rintro - w₂ ⟨hs₂, hp₂⟩
    have hs₂' : w₂.store = w.store := hs₂.trans hs₁
    have hp₂' := hp₁.trans hp₂
    refine YieldsState.ensuring ((initLocked_spec _ hcfg (by rw [hs₂']; exact hsealed)).mono ?_ ?_)
    · rintro res c' w' hout
      exact (hout.after hp₂' hs₂').congr_world (releaseLock_store w') (Env.tick_le_run _ w')
    · rintro e c' w' hout
      exact (hout.after hp₂' hs₂').congr_world (releaseLock_store w') (Env.tick_le_run _ w')

/-- Where no keyring is and no call fails, initialization succeeds. -/
theorem InitOutcome.started_of_works {k : Nat} {cfg : InitConfig} {r : Except Err InitResult}
    {c' : Core} {w' : World} (h : InitOutcome P env k cfg c w r c' w') (hworks : env.Works)
    (hfresh : w.store.lookup keyringPath = none) :
    ∃ res K B, r = .ok res ∧ Started P env cfg c K B res c' w'.store := by
  cases h with
  | refused halted => exact absurd (halted.faulted hfresh) hworks.not_faulted
  | stranded fresh left quiet faulted => exact absurd faulted hworks.not_faulted
  | started fresh started quiet => exact ⟨_, _, _, rfl, started⟩

end UbixVault
