/-
The index of a token store is the relation between its records.

However tokens are created, renewed and revoked, every record is that of its own token,
and there is an entry for a parent and a child exactly if the child has a record that
names the parent.  A record and its entry go together, so a revocation keeps this too,
wherever it stops.
-/
import UbixVault.Proofs.Token.Ceiling

namespace UbixVault

open Program

namespace TokenStore

variable {st : TokenStore} {store store' : Store} {t t' : Token}

/-! ### Records and entries -/

/-- A token names no parent, or a parent by its hash. -/
def Descends (st : TokenStore) (t : Token) : Prop := t.parentHash = [] ∨ ∃ p, t.parentHash = st.hashID p

/-- Below the two prefixes there are records of their tokens and entries, and nothing else. -/
structure Laid (st : TokenStore) (store : Store) : Prop where
  records : ∀ id blob, store.lookup (st.storeKey id) = some blob →
    ∃ t : Token, blob = st.json.marshal t ∧ t.WF ∧ t.id = id ∧ id ≠ [] ∧ st.Descends t
  named : ∀ key ∈ store, storePrefix <+: key → ∃ id, key = st.storeKey id
  indexed : st.Indexed store

namespace Laid

theorem congr (h : st.Laid store) (hs : SameTokens store store') : st.Laid store' where
  records id blob hblob := h.records id blob (by rw [← hs _ (tokenKey_storeKey id), hblob])
  named key hkey hpfx := h.named key ((hs.mem_iff (.inl hpfx)).mp hkey) hpfx
  indexed key hkey hpfx := h.indexed key ((hs.mem_iff (.inr hpfx)).mp hkey) hpfx

theorem insert_record (h : st.Laid store) (hwf : t.WF) (hne : t.id ≠ []) (hdescends : st.Descends t) :
    st.Laid (store.insert (st.storeKey t.id) (st.json.marshal t)) where
  records id blob hblob := by
    by_cases hid : id = t.id
    · rw [hid, Finmap.lookup_insert, Option.some.injEq] at hblob
      exact ⟨t, hblob.symm, hwf, hid.symm, hid ▸ hne, hdescends⟩
    · rw [Finmap.lookup_insert_of_ne _ fun heq => hid (st.storeKey_injective heq)] at hblob
      exact h.records id blob hblob
  named key hkey hpfx := by
    rcases Finmap.mem_insert.mp hkey with rfl | hkey
    · exact ⟨t.id, rfl⟩
    · exact h.named key hkey hpfx
  indexed key hkey hpfx := by
    rcases Finmap.mem_insert.mp hkey with rfl | hkey
    · exact absurd (st.storePrefix_storeKey t.id) (not_both hpfx)
    · exact h.indexed key hkey hpfx

theorem insert_index (h : st.Laid store) (p c v : Bytes) : st.Laid (store.insert (st.indexKey p c) v) where
  records id blob hblob := by
    rw [sameRecords_index p c v id] at hblob
    exact h.records id blob hblob
  named key hkey hpfx := by
    rcases Finmap.mem_insert.mp hkey with rfl | hkey
    · exact absurd hpfx (not_both (childPrefix_childKey _ _))
    · exact h.named key hkey hpfx
  indexed key hkey hpfx := by
    rcases Finmap.mem_insert.mp hkey with rfl | hkey
    · exact ⟨p, c, rfl⟩
    · exact h.indexed key hkey hpfx

/-- Whatever is deleted, the rest stays in order. -/
theorem erase (h : st.Laid store) (key : Key) : st.Laid (store.erase key) where
  records id blob hblob := by
    by_cases hkey : st.storeKey id = key
    · rw [hkey, Finmap.lookup_erase] at hblob
      cases hblob
    · rw [Finmap.lookup_erase_ne hkey] at hblob
      exact h.records id blob hblob
  named key' hkey' := h.named key' (Finmap.mem_erase.mp hkey').2
  indexed key' hkey' := h.indexed key' (Finmap.mem_erase.mp hkey').2

end Laid

/-- Besides, there is an entry exactly for every record that names a parent. -/
structure Woven (st : TokenStore) (store : Store) : Prop extends st.Laid store where
  index : ∀ p c, st.indexKey p c ∈ store ↔ ∃ t, st.Stored store t ∧ t.id = c ∧ t.parentHash = st.hashID p

theorem Stored.mem (h : st.Stored store t) : st.storeKey t.id ∈ store := by
  rw [← Finmap.lookup_isSome, h.record]
  rfl

namespace Woven

theorem empty : st.Woven ∅ where
  records id blob h := by
    rw [Finmap.lookup_empty] at h
    cases h
  named key hkey := absurd hkey Finmap.notMem_empty
  indexed key hkey := absurd hkey Finmap.notMem_empty
  index p c := by
    refine ⟨fun h => absurd h Finmap.notMem_empty, ?_⟩
    rintro ⟨t, hstored, -⟩
    exact absurd hstored.mem Finmap.notMem_empty

theorem exists_stored (h : st.Woven store) {id : Bytes} (hid : st.storeKey id ∈ store) :
    ∃ t, st.Stored store t ∧ t.id = id ∧ id ≠ [] ∧ st.Descends t := by
  obtain ⟨blob, hblob⟩ := Finmap.mem_iff.mp hid
  obtain ⟨t, rfl, hwf, rfl, hne, hdescends⟩ := h.records id blob hblob
  exact ⟨t, ⟨hwf, hblob⟩, rfl, hne, hdescends⟩

/-- The record of an entry names the parent. -/
theorem parent_of_entry (h : st.Woven store) {p c : Bytes} (hentry : st.indexKey p c ∈ store)
    (ht : st.Stored store t) (hid : t.id = c) : t.parentHash = st.hashID p := by
  obtain ⟨t', ht', hid', hparent⟩ := (h.index p c).mp hentry
  rw [ht.unique ht' (hid.trans hid'.symm)]
  exact hparent

theorem congr (h : st.Woven store) (hs : SameTokens store store') : st.Woven store' where
  toLaid := h.toLaid.congr hs
  index p c := by
    rw [hs.mem_iff (tokenKey_indexKey p c), h.index p c]
    exact exists_congr fun t => and_congr_left fun _ => (stored_congr (sameRecords_of_same hs)).symm

/-- A new token that names no parent. -/
theorem insert_orphan (h : st.Woven store) (hwf : t.WF) (hne : t.id ≠ []) (hfresh : st.storeKey t.id ∉ store)
    (horphan : t.parentHash = []) : st.Woven (store.insert (st.storeKey t.id) (st.json.marshal t)) where
  toLaid := h.toLaid.insert_record hwf hne (.inl horphan)
  index p c := by
    rw [Forest.mem_insert_record, h.index p c]
    refine exists_congr fun x => ?_
    rw [stored_insert hwf]
    constructor
    · rintro ⟨hx, rfl, hparent⟩
      exact ⟨.inr ⟨hx, hx.ne_of_fresh hfresh⟩, rfl, hparent⟩
    · rintro ⟨rfl | ⟨hx, -⟩, rfl, hparent⟩
      · rw [horphan] at hparent
        exact absurd hparent.symm (st.hashID_ne_nil p)
      · exact ⟨hx, rfl, hparent⟩

/-- A new child with its entry. -/
theorem insert_child (h : st.Woven store) (hwf : t.WF) (hne : t.id ≠ []) (hfresh : st.storeKey t.id ∉ store)
    {p : Bytes} (hparent : t.parentHash = st.hashID p) (v : Bytes) :
    st.Woven ((store.insert (st.storeKey t.id) (st.json.marshal t)).insert (st.indexKey p t.id) v) where
  toLaid := (h.toLaid.insert_record hwf hne (.inr ⟨p, hparent⟩)).insert_index p t.id v
  index p' c := by
    rw [Finmap.mem_insert, Forest.mem_insert_record, h.index p' c]
    simp only [stored_congr (sameRecords_index p t.id v), stored_insert hwf]
    constructor
    · rintro (heq | ⟨x, hx, rfl, hparent'⟩)
      · obtain ⟨rfl, rfl⟩ := indexKey_inj heq
        exact ⟨t, .inl rfl, rfl, hparent⟩
      · exact ⟨x, .inr ⟨hx, hx.ne_of_fresh hfresh⟩, rfl, hparent'⟩
    · rintro ⟨x, rfl | ⟨hx, -⟩, rfl, hparent'⟩
      · rw [hparent] at hparent'
        exact .inl (by rw [st.hashID_injective hparent'])
      · exact .inr ⟨x, hx, rfl, hparent'⟩

/-- A record that is written again with the same parent. -/
theorem replace (h : st.Woven store) (ht : st.Stored store t) (hdescends : st.Descends t) (hwf : t'.WF)
    (hne : t'.id ≠ []) (hid : t'.id = t.id) (hparent : t'.parentHash = t.parentHash) :
    st.Woven (store.insert (st.storeKey t'.id) (st.json.marshal t')) where
  toLaid := h.toLaid.insert_record hwf hne (by rwa [Descends, hparent])
  index p c := by
    rw [Forest.mem_insert_record, h.index p c]
    simp only [stored_insert hwf]
    constructor
    · rintro ⟨x, hx, rfl, hp⟩
      by_cases hxid : x.id = t'.id
      · have hxt := hx.unique ht (hxid.trans hid)
        subst hxt
        exact ⟨t', .inl rfl, hid, hparent.trans hp⟩
      · exact ⟨x, .inr ⟨hx, hxid⟩, rfl, hp⟩
    · rintro ⟨x, rfl | ⟨hx, -⟩, rfl, hp⟩
      · exact ⟨t, ht, hid.symm, hparent.symm.trans hp⟩
      · exact ⟨x, hx, rfl, hp⟩

/-- Where there is no record there is no entry. -/
theorem no_entry (h : st.Woven store) {p c : Bytes} (hc : st.storeKey c ∉ store) :
    st.indexKey p c ∉ store := by
  intro hentry
  obtain ⟨t, ht, rfl, -⟩ := (h.index p c).mp hentry
  exact hc ht.mem

/-- Deleting the entry of a token that has no record changes nothing. -/
theorem erase_entry (h : st.Woven store) {p c : Bytes} (hc : st.storeKey c ∉ store) :
    store.erase (st.indexKey p c) = store := by
  refine Finmap.ext_lookup fun key => ?_
  by_cases hkey : key = st.indexKey p c
  · rw [hkey, Finmap.lookup_erase, Finmap.lookup_eq_none.mpr (h.no_entry hc)]
  · rw [Finmap.lookup_erase_ne hkey]

/-- Listing the records gives hashes. -/
theorem mem_list_records (h : st.Woven store) {name : Key} (hname : name ∈ store.list storePrefix) :
    ∃ id, name = st.hashID id := by
  obtain ⟨key, hkey, hunder⟩ := Store.mem_list.mp hname
  have hpfx : storePrefix <+: key := by
    unfold childUnder at hunder
    split at hunder
    · assumption
    · cases hunder
  obtain ⟨id, rfl⟩ := h.named key hkey hpfx
  unfold storeKey at hunder
  rw [childUnder_append (st.hashID_ne_nil id) (st.slash_notMem_hashID id), Option.some.injEq] at hunder
  exact ⟨id, hunder.symm⟩

end Woven

/-- The store without a record and its entry. -/
def without (st : TokenStore) (store : Store) (t : Token) : Store :=
  if t.parentHash ≠ [] then (store.erase (st.storeKey t.id)).erase (childKey t.parentHash (st.hashID t.id))
  else store.erase (st.storeKey t.id)

theorem lookup_without (store : Store) (t : Token) {key : Key} (hrecord : key ≠ st.storeKey t.id)
    (hentry : key ≠ childKey t.parentHash (st.hashID t.id)) :
    (st.without store t).lookup key = store.lookup key := by
  unfold without
  split_ifs
  · rw [Finmap.lookup_erase_ne hentry, Finmap.lookup_erase_ne hrecord]
  · rw [Finmap.lookup_erase_ne hrecord]

theorem lookup_without_self (store : Store) (t : Token) :
    (st.without store t).lookup (st.storeKey t.id) = none := by
  unfold without
  split_ifs
  · rw [Finmap.lookup_erase_ne (childKey_ne_storeKey _ _ _).symm, Finmap.lookup_erase]
  · rw [Finmap.lookup_erase]

theorem lookup_record_without {store : Store} {t : Token} {id : Bytes} (hne : id ≠ t.id) :
    (st.without store t).lookup (st.storeKey id) = store.lookup (st.storeKey id) :=
  lookup_without store t (fun heq => hne (st.storeKey_injective heq)) (childKey_ne_storeKey _ _ _).symm

theorem mem_without {store : Store} {t : Token} {id : Bytes} :
    st.storeKey id ∈ st.without store t ↔ id ≠ t.id ∧ st.storeKey id ∈ store := by
  by_cases hid : id = t.id
  · subst hid
    rw [← Finmap.lookup_isSome, lookup_without_self]
    simp
  · rw [← Finmap.lookup_isSome, lookup_record_without hid, Finmap.lookup_isSome]
    simp [hid]

theorem stored_without {x : Token} : st.Stored (st.without store t) x ↔ st.Stored store x ∧ x.id ≠ t.id := by
  constructor
  · intro hx
    have hne : x.id ≠ t.id := by
      intro heq
      have hrecord := hx.record
      rw [heq, lookup_without_self] at hrecord
      cases hrecord
    exact ⟨⟨hx.wf, by rw [← lookup_record_without hne, hx.record]⟩, hne⟩
  · intro ⟨hx, hne⟩
    exact ⟨hx.wf, by rw [lookup_record_without hne, hx.record]⟩

/-- A record and its entry can go together. -/
theorem Woven.remove (h : st.Woven store) (ht : st.Stored store t) : st.Woven (st.without store t) where
  toLaid := by
    unfold without
    split_ifs
    · exact (h.toLaid.erase _).erase _
    · exact h.toLaid.erase _
  index p c := by
    by_cases hc : c = t.id
    · subst hc
      refine ⟨fun hentry => ?_, ?_⟩
      · exfalso
        have hmem : st.indexKey p t.id ∈ store := by
          unfold without at hentry
          split_ifs at hentry
          · exact (Finmap.mem_erase.mp (Finmap.mem_erase.mp hentry).2).2
          · exact (Finmap.mem_erase.mp hentry).2
        have hparent := h.parent_of_entry hmem ht rfl
        have hne : t.parentHash ≠ [] := hparent ▸ st.hashID_ne_nil p
        unfold without at hentry
        rw [if_pos hne] at hentry
        refine (Finmap.mem_erase.mp hentry).1 ?_
        unfold indexKey
        rw [hparent]
      · rintro ⟨x, hx, hid, -⟩
        exact absurd hid (stored_without.mp hx).2
    · have hkey : st.indexKey p c ≠ childKey t.parentHash (st.hashID t.id) := fun heq =>
        hc (st.hashID_injective (childKey_inj (st.slash_notMem_hashID c) (st.slash_notMem_hashID t.id) heq).2)
      have hmem : st.indexKey p c ∈ st.without store t ↔ st.indexKey p c ∈ store := by
        rw [← Finmap.lookup_isSome, lookup_without store t (indexKey_ne_storeKey p c t.id) hkey,
          Finmap.lookup_isSome]
      rw [hmem, h.index p c]
      refine exists_congr fun x => ?_
      rw [stored_without]
      constructor
      · rintro ⟨hx, rfl, hparent⟩
        exact ⟨⟨hx, hc⟩, rfl, hparent⟩
      · rintro ⟨⟨hx, -⟩, rfl, hparent⟩
        exact ⟨hx, rfl, hparent⟩

/-! ### Counting records -/

/-- The keys of the records. -/
def recordKeys (store : Store) : Finset Key := store.keys.filter fun key => storePrefix <+: key

theorem mem_recordKeys {key : Key} : key ∈ recordKeys store ↔ key ∈ store ∧ storePrefix <+: key := by
  unfold recordKeys
  rw [Finset.mem_filter, Finmap.mem_keys]

theorem recordKeys_without (ht : st.Stored store t) :
    recordKeys store = insert (st.storeKey t.id) (recordKeys (st.without store t)) := by
  ext key
  rw [Finset.mem_insert, mem_recordKeys, mem_recordKeys]
  by_cases hkey : key = st.storeKey t.id
  · subst hkey
    exact iff_of_true ⟨ht.mem, st.storePrefix_storeKey _⟩ (.inl rfl)
  · constructor
    · intro ⟨hmem, hpfx⟩
      have hentry : key ≠ childKey t.parentHash (st.hashID t.id) := fun heq =>
        not_both (childPrefix_childKey _ _) (heq ▸ hpfx)
      refine .inr ⟨?_, hpfx⟩
      rwa [← Finmap.lookup_isSome, lookup_without store t hkey hentry, Finmap.lookup_isSome]
    · intro h
      obtain ⟨hmem, hpfx⟩ := h.resolve_left hkey
      have hentry : key ≠ childKey t.parentHash (st.hashID t.id) := fun heq =>
        not_both (childPrefix_childKey _ _) (heq ▸ hpfx)
      rw [← Finmap.lookup_isSome, lookup_without store t hkey hentry, Finmap.lookup_isSome] at hmem
      exact ⟨hmem, hpfx⟩

theorem card_recordKeys_without (ht : st.Stored store t) :
    (recordKeys store).card = (recordKeys (st.without store t)).card + 1 := by
  rw [recordKeys_without ht, Finset.card_insert_of_notMem]
  intro hmem
  have hin := (mem_recordKeys.mp hmem).1
  rw [← Finmap.lookup_isSome, lookup_without_self] at hin
  cases hin

end TokenStore

/-! ### Token calls -/

/-- Nothing fails, and random values are not in use. -/
structure TokenAction.Fresh (a : TokenAction) (s : TokenState) : Prop where
  works : a.env.Works
  unused : ∀ n, s.tokens.storeKey (displayPrefix ++ hexEncode (a.env.random n idBytes).val) ∉ s.world.store

namespace TokenStore.Woven

variable {st : TokenStore} {store : Store} {aliaser : Option Aliaser} {s : TokenState} {a : TokenAction}

/-- Settings do not change where tokens are stored. -/
theorem configure (h : st.Woven store) (call : TokenCall) : (call.configure st).Woven store := by
  cases call with
  | setMaxTTL d =>
    refine ⟨⟨h.records, h.named, h.indexed⟩, fun p c => (h.index p c).trans (exists_congr fun t => ?_)⟩
    exact and_congr_left fun _ => ⟨fun ht => ⟨ht.wf, ht.record⟩, fun ht => ⟨ht.wf, ht.record⟩⟩
  | _ => exact h

theorem step (hapart : ∀ a ∈ aliaser, a.Apart) (hfresh : a.Fresh s) (h : s.tokens.Woven s.world.store) :
    s.tokens.Woven (s.step aliaser a).after.world.store := by
  have houtcome := TokenState.step_outcome (s := s) (a := a) hapart
  have hbefore : (s.step aliaser a).before = s := rfl
  have haction : (s.step aliaser a).action = a := rfl
  generalize s.step aliaser a = e at houtcome hbefore haction ⊢
  subst hbefore haction
  cases houtcome with
  | kept same => exact h.congr same
  | issued t expiresAt bound result issues =>
    obtain ⟨n, hid⟩ := issues.minted.id
    refine Woven.congr ?_ issues.stored
    exact h.insert_orphan (issues.minted.wf (by intro x hx; cases hx)) issues.minted.named
      (hid ▸ hfresh.unused n) issues.minted.parent
  | bore parent t policies ttl n call result minted stored =>
    obtain ⟨n, hid⟩ := minted.id
    rw [stored]
    exact h.insert_child (minted.wf (ascii_hashID _ _)) minted.named (hid ▸ hfresh.unused n) minted.parent _
  | stray parent t policies ttl n err call result fault => exact absurd fault hfresh.works.not_faults
  | renewed id blob t t' record read expiring renews result stored =>
    obtain ⟨t₀, rfl, hwf, rfl, hne, hdescends⟩ := h.records id blob record
    rw [e.before.tokens.json.unmarshal_marshal t₀ hwf, Option.some.injEq] at read
    subst read
    obtain ⟨expiresAt, rfl⟩ := renews.eq
    rw [stored]
    have hwf' : Token.WF { t₀ with expiresAt, maxExpiresAt := e.before.tokens.maxExpiry t₀ } :=
      ⟨hwf.id, hwf.parentHash⟩
    exact h.replace ⟨hwf, record⟩ hdescends hwf' hne rfl rfl

end TokenStore.Woven

end UbixVault
