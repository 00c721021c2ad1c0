/-
The keys a token store writes.

A token has one record and, when it is a child, one entry in the index of its
parent.  The two kinds of keys never meet, a key names its tokens, and listing the
index of a token gives back exactly its children.
-/
import UbixVault.Proofs.Token.Create

namespace UbixVault

namespace TokenStore

variable (st : TokenStore)

/-- The entry of child `c` in the index of `p`. -/
def indexKey (p c : Bytes) : Key := childKey (st.hashID p) (st.hashID c)

/-- Where the index of `p` is listed. -/
def indexPrefix (p : Bytes) : Key := childPrefix ++ st.hashID p ++ [slash]

private theorem childPrefix_eq : childPrefix = str "sys/token-child" ++ [slash] := by decide_cbv

private theorem validKey_childPrefix (p : Bytes) :
    validKey (childPrefix ++ st.hashID p) = true := by
  have hbase : validKey (str "sys/token-child") = true :=
    validKey_of_ascii (by decide +kernel) (by decide +kernel)
  have h := validKey_append_hexEncode hbase (st.sha256.sum_ne_nil p)
  rw [childPrefix_eq, List.append_assoc]
  exact h

theorem validPrefix_indexPrefix (p : Bytes) : validPrefix (st.indexPrefix p) = true := by
  unfold validPrefix indexPrefix
  rw [List.getLast?_concat, List.dropLast_concat, st.validKey_childPrefix p]
  simp

theorem validKey_indexKey (p c : Bytes) : validKey (st.indexKey p c) = true := by
  have h := validKey_append_hexEncode (st.validKey_childPrefix p) (st.sha256.sum_ne_nil c)
  unfold indexKey childKey hashID at *
  rw [List.append_assoc]
  exact h

variable {st}

/-- The last segment of an index key is its child. -/
theorem childKey_inj {p p' c c' : Bytes} (hc : slash ∉ c) (hc' : slash ∉ c')
    (h : childKey p c = childKey p' c') : p = p' ∧ c = c' := by
  unfold childKey at h
  rw [List.append_assoc, List.append_assoc, List.append_assoc, List.append_assoc] at h
  exact append_slash_inj hc hc' (List.append_cancel_left h)

theorem indexKey_inj {p p' c c' : Bytes} (h : st.indexKey p c = st.indexKey p' c') :
    p = p' ∧ c = c' := by
  obtain ⟨hp, hc⟩ := childKey_inj (st.slash_notMem_hashID c) (st.slash_notMem_hashID c') h
  exact ⟨st.hashID_injective hp, st.hashID_injective hc⟩

/-- No key lies below both prefixes. -/
theorem not_both {key : Key} (h : childPrefix <+: key) : ¬ storePrefix <+: key := by
  intro h'
  have heq := List.prefix_of_prefix_length_le h' h (by decide_cbv)
  exact absurd heq (by decide_cbv)

theorem childPrefix_childKey (p c : Bytes) : childPrefix <+: childKey p c := by
  unfold childKey
  rw [List.append_assoc, List.append_assoc]
  exact List.prefix_append _ _

theorem storePrefix_storeKey (id : Bytes) : storePrefix <+: st.storeKey id :=
  List.prefix_append _ _

theorem childKey_ne_storeKey (p c id : Bytes) : childKey p c ≠ st.storeKey id := by
  intro h
  exact not_both (childPrefix_childKey p c) (h ▸ st.storePrefix_storeKey id)

theorem indexKey_ne_storeKey (p c id : Bytes) : st.indexKey p c ≠ st.storeKey id :=
  childKey_ne_storeKey _ _ _

/-- Every key below the index prefix is an entry for two tokens. -/
def Indexed (st : TokenStore) (store : Store) : Prop :=
  ∀ key ∈ store, childPrefix <+: key → ∃ p c, key = st.indexKey p c

/-- Listing the index of a token gives the hashes of its children. -/
theorem mem_list_indexPrefix {store : Store} (hindexed : st.Indexed store) {p : Bytes}
    {name : Key} : name ∈ store.list (st.indexPrefix p) ↔
      ∃ c, name = st.hashID c ∧ st.indexKey p c ∈ store := by
  rw [Store.mem_list]
  constructor
  · rintro ⟨key, hkey, hname⟩
    have hpfx : st.indexPrefix p <+: key := by
      unfold childUnder at hname
      split at hname
      · assumption
      · cases hname
    have hchild : childPrefix <+: key := by
      refine List.IsPrefix.trans ?_ hpfx
      unfold indexPrefix
      rw [List.append_assoc]
      exact List.prefix_append _ _
    obtain ⟨p', c, rfl⟩ := hindexed key hkey hchild
    -- The key continues with another hash, or with this one and the child.
    obtain ⟨rest, hrest⟩ := hpfx
    have hp : st.hashID p' = st.hashID p := by
      unfold indexPrefix indexKey childKey at hrest
      rw [List.append_assoc, List.append_assoc, List.append_assoc, List.append_assoc] at hrest
      have h := List.append_cancel_left hrest
      have htake := congrArg (List.takeWhile (· ≠ slash)) h
      have hwhole : ∀ id l, List.takeWhile (fun b => decide (b ≠ slash))
          (st.hashID id ++ (slash :: l)) = st.hashID id := by
        intro id l
        rw [List.takeWhile_append_of_pos]
        · simp
        · intro b hb
          have : b ≠ slash := fun h => st.slash_notMem_hashID id (h ▸ hb)
          simpa using this
      simp only [List.singleton_append] at htake
      rw [hwhole, hwhole] at htake
      exact htake.symm
    refine ⟨c, ?_, ?_⟩
    · have hkey' : st.indexKey p' c = st.indexPrefix p ++ st.hashID c := by
        unfold indexKey indexPrefix childKey
        rw [hp]
      rw [hkey', childUnder_append (st.hashID_ne_nil c) (st.slash_notMem_hashID c)] at hname
      exact (Option.some.inj hname).symm
    · rw [st.hashID_injective hp] at hkey
      exact hkey
  · rintro ⟨c, rfl, hkey⟩
    exact ⟨_, hkey, childUnder_append (st.hashID_ne_nil c) (st.slash_notMem_hashID c)⟩

end TokenStore

end UbixVault
