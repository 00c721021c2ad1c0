/-
Where tokens are stored, and the root token the core creates.

A token's key is the hexadecimal hash of its value below a fixed prefix, so it is
a data key of the barrier, and two tokens share a key only when they share a
value.  The core creates its root token over the barrier: one record, encrypted
under the barrier key, or nothing.
-/
import UbixVault.Core
import UbixVault.Proofs.Barrier
import UbixVault.Proofs.Basic

namespace UbixVault

open Program

namespace TokenStore

variable (st : TokenStore)

theorem hashID_injective : Function.Injective st.hashID :=
  hexEncode_injective.comp st.sha256.sum_injective

theorem storeKey_injective : Function.Injective st.storeKey := by
  intro id id' h
  exact st.hashID_injective (List.append_cancel_left h)

theorem hashID_ne_nil (id : Bytes) : st.hashID id ≠ [] := hexEncode_ne_nil (st.sha256.sum_ne_nil id)

theorem slash_notMem_hashID (id : Bytes) : slash ∉ st.hashID id := slash_notMem_hexEncode _

theorem ascii_hashID (id : Bytes) : Ascii (st.hashID id) := ascii_hexEncode _

private theorem storePrefix_eq : storePrefix = str "sys/token" ++ [slash] := by decide_cbv

theorem validKey_storeKey (id : Bytes) : validKey (st.storeKey id) = true := by
  have hbase : validKey (str "sys/token") = true :=
    validKey_of_ascii (by decide +kernel) (by decide +kernel)
  have h := validKey_append_hexEncode hbase (st.sha256.sum_ne_nil id)
  unfold storeKey hashID
  rwa [storePrefix_eq, List.append_assoc]

theorem dataKey_storeKey (id : Bytes) : DataKey (st.storeKey id) := by
  refine ⟨st.validKey_storeKey id, ?_⟩
  intro h
  -- The two prefixes differ in their first letter.
  have hshort : storePrefix.take 5 <+: st.storeKey id :=
    (List.take_prefix 5 storePrefix).trans (List.prefix_append _ _)
  have heq := List.prefix_of_prefix_length_le h hshort (by decide_cbv)
  exact absurd heq (by decide_cbv)

end TokenStore

variable {P : Platform} {env : Env} {w : World} {b : Barrier}

theorem generateID_spec :
    Yields env.answer generateID w
      (fun id w' => id = displayPrefix ++ hexEncode (env.random w.tick idBytes).val ∧
        w'.store = w.store ∧ Passed env 1 w w')
      (fun _ w' => Broke env 1 w w') := by
  refine Yields.bind (Act.yields_context (Act.randRead_spec.mono ?_ fun _ _ h => h))
  rintro v w' ⟨rfl, hs, hp⟩
  exact ⟨rfl, hs, hp⟩

/-- The calls of `createRoot` over a barrier: all but the clock can fail. -/
structure RootPassed (env : Env) (w w' : World) : Prop where
  tick : w'.tick = w.tick + 4
  id : ∃ call, env.fails w.tick call = false
  nonce : ∃ call, env.fails (w.tick + 2) call = false
  write : ∃ call, env.fails (w.tick + 3) call = false

/-- The root token is one record under the barrier key, or nothing is stored. -/
theorem createRoot_spec :
    Yields env.answer (b.through P.aead P.tokens.createRoot) w
      (fun t w' => ∃ k nonce, t.isRoot = true ∧ b.aead = some k ∧ nonce.length = nonceSize ∧
        w'.store = w.store.insert (P.tokens.storeKey t.id)
          (blobOf P.aead k nonce (P.tokenJson.marshal t) (P.tokens.storeKey t.id)) ∧
        RootPassed env w w')
      (fun _ w' => Halted env 4 (b.sealed = false) w w') := by
  unfold TokenStore.createRoot TokenStore.createWithEntity TokenStore.createWithEntityBounded
  rw [Barrier.through_bind]
  unfold generateID
  rw [Barrier.through_bind, Barrier.through_context, Barrier.through_randRead]
  refine Yields.bind (Yields.bind (Act.yields_context (Act.randRead_spec.mono ?_
    fun _ _ h => h.halted (by omega))))
  rintro v w₁ ⟨rfl, hs₁, hp₁⟩
  refine Yields.pure ?_
  rw [Barrier.through_bind, Barrier.through_now]
  refine Yields.bind (Act.now_spec.mono ?_ fun _ _ h => h.elim)
  rintro now w₂ ⟨rfl, rfl⟩
  unfold TokenStore.save
  rw [Barrier.through_bind, Barrier.through_context, Barrier.through_put]
  refine Yields.bind (Act.yields_context ((Barrier.put_spec _ _).mono ?_ ?_))
  · rintro - w₃ ⟨-, ⟨k, nonce, hk, hn, hs₃⟩, hp₃⟩
    refine Yields.pure ⟨k, nonce, by simp [Token.isRoot], hk, hn, ?_, ?_, ?_, ?_, ?_⟩
    · rw [hs₃, World.next_store, hs₁]
      rfl
    · rw [hp₃.tick, World.next_tick, hp₁.tick]
    · exact hp₁.quiet 0 Nat.one_pos
    · have h := hp₃.quiet 0 (by omega)
      rwa [World.next_tick, hp₁.tick] at h
    · have h := hp₃.quiet 1 (by omega)
      rwa [World.next_tick, hp₁.tick] at h
  · rintro - w₃ hhalt
    have ht : w₁.next.tick = w.tick + 2 := by rw [World.next_tick, hp₁.tick]
    refine hhalt.after ht hs₁ (by omega) fun hopen => ⟨?_, hopen⟩
    exact P.tokens.dataKey_storeKey _

end UbixVault
