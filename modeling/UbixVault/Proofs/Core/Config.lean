/-
The stored seal configuration.

`storedConfig` is what reading the configuration gives: the currently stored
threshold and seal type.  Reading never changes anything, and writing is one call
that either takes effect or does not.
-/
import UbixVault.Core
import UbixVault.Proofs.Barrier
import UbixVault.Proofs.Shamir.Split

namespace UbixVault

open Program

variable {P : Platform} {env : Env} {w : World}

/-- A configuration as it is read: a missing type means Shamir. -/
def SealConfig.read (cfg : SealConfig) : SealConfig := { cfg with type := some cfg.kind }

/-- The configuration in the store. -/
def storedConfig (P : Platform) (store : Store) : Option SealConfig :=
  ((store.lookup sealConfigPath).bind P.sealConfigJson.unmarshal).map SealConfig.read

theorem validKey_sealConfigPath : validKey sealConfigPath = true :=
  validKey_of_ascii (by decide +kernel) (by decide +kernel)

theorem validKey_wrappedMasterKeyPath : validKey wrappedMasterKeyPath = true :=
  validKey_of_ascii (by decide +kernel) (by decide +kernel)

theorem sealConfigPath_ne_keyringPath : sealConfigPath ≠ keyringPath := by decide_cbv

theorem wrappedMasterKeyPath_ne_keyringPath : wrappedMasterKeyPath ≠ keyringPath := by
  decide_cbv

theorem wrappedMasterKeyPath_ne_sealConfigPath : wrappedMasterKeyPath ≠ sealConfigPath := by
  decide_cbv

theorem reserved_sealConfigPath : reservedPrefix <+: sealConfigPath := by decide_cbv

theorem storedConfig_congr {store store' : Store}
    (h : store'.lookup sealConfigPath = store.lookup sealConfigPath) :
    storedConfig P store' = storedConfig P store := by
  unfold storedConfig
  rw [h]

/-- What was written is read. -/
theorem storedConfig_insert (store : Store) (cfg : SealConfig) :
    storedConfig P (store.insert sealConfigPath (P.sealConfigJson.marshal cfg)) = some cfg.read := by
  unfold storedConfig
  rw [Finmap.lookup_insert]
  simp only [Option.bind_some]
  rw [P.sealConfigJson.unmarshal_marshal cfg trivial]
  rfl

theorem storedConfig_insert_of_ne {store : Store} {key : Key} (hne : key ≠ sealConfigPath)
    (value : Bytes) : storedConfig P (store.insert key value) = storedConfig P store :=
  storedConfig_congr (Finmap.lookup_insert_of_ne _ hne.symm)

theorem readSealConfig_spec :
    Yields env.answer (readSealConfig P) w
      (fun cfg w' => storedConfig P w.store = some cfg ∧ w'.store = w.store ∧ Passed env 1 w w')
      (fun _ w' => Halted env 1 ((storedConfig P w.store).isSome) w w' Call.IsGet) := by
  refine Yields.bind (Act.yields_context ((Act.get_spec validKey_sealConfigPath).mono ?_
    fun _ _ h => h.haltedIn))
  rintro r w₁ ⟨rfl, hs, hp⟩
  cases hlookup : w.store.lookup sealConfigPath with
  | none => exact Yields.throw (.of_not hs (by simp [storedConfig, hlookup]))
  | some data =>
    dsimp only
    cases hread : P.sealConfigJson.unmarshal data with
    | none => exact Yields.throw (.of_not hs (by simp [storedConfig, hlookup, hread]))
    | some cfg =>
      refine Yields.pure ⟨?_, hs, hp⟩
      simp only [storedConfig, hlookup, Option.bind_some, hread, Option.map_some]
      rfl

theorem writeSealConfig_spec (cfg : SealConfig) :
    Yields env.answer (writeSealConfig P cfg) w
      (fun _ w' => w'.store = w.store.insert sealConfigPath (P.sealConfigJson.marshal cfg) ∧
        w'.tick = w.tick + 1 ∧
        env.fails w.tick (.put sealConfigPath (P.sealConfigJson.marshal cfg)) = false)
      (fun _ w' => w' = w.next ∧
        env.fails w.tick (.put sealConfigPath (P.sealConfigJson.marshal cfg)) = true) :=
  Act.yields_context (Act.put_spec validKey_sealConfigPath)

/-! ### Share configurations -/

theorem validShares_iff {shares threshold : Int} :
    validShares shares threshold = true ↔
      2 ≤ shares ∧ shares ≤ 255 ∧ 2 ≤ threshold ∧ threshold ≤ shares := by
  simp [validShares, and_assoc]

theorem splitArgs_of_validShares {shares threshold : Int} (h : validShares shares threshold = true)
    {secret : Bytes} (hsecret : secret ≠ []) : Shamir.SplitArgs secret shares threshold := by
  obtain ⟨h1, h2, h3, h4⟩ := validShares_iff.mp h
  exact ⟨hsecret, h1, h2, h3, h4⟩

theorem CipherKey.ne_nil (K : CipherKey) : K.val ≠ [] := by
  intro h
  have := K.property
  rw [h] at this
  exact absurd this (by decide)

/-! ### Gathering shares -/

theorem mem_gather {progress : List Shamir.Share} {share x : Shamir.Share} :
    x ∈ gather progress share ↔ x ∈ progress ∨ x = share := by
  unfold gather
  split
  · rename_i hmem
    constructor
    · exact .inl
    · rintro (h | rfl)
      · exact h
      · exact hmem
  · simp

theorem nodup_gather {progress : List Shamir.Share} (h : progress.Nodup) (share : Shamir.Share) :
    (gather progress share).Nodup := by
  unfold gather
  split
  · exact h
  · rename_i hmem
    exact List.nodup_append.mpr ⟨h, List.nodup_singleton _, by
      rintro a ha b hb rfl
      rw [List.mem_singleton.mp hb] at ha
      exact hmem ha⟩

theorem length_gather_le (progress : List Shamir.Share) (share : Shamir.Share) :
    (gather progress share).length ≤ progress.length + 1 := by
  unfold gather
  split
  · omega
  · simp

theorem gather_ne_nil (progress : List Shamir.Share) (share : Shamir.Share) :
    gather progress share ≠ [] := by
  intro h
  have hmem : share ∈ gather progress share := mem_gather.mpr (.inr rfl)
  rw [h] at hmem
  exact absurd hmem List.not_mem_nil

end UbixVault
