/-
The stores that token calls make.

However tokens are created and renewed, every record is that of its own token, the
index holds nothing but entries, and the token of an entry has a record.  Which
entries there are is read off the history: one for each child that was created.
-/
import UbixVault.Proofs.Token.Calls

namespace UbixVault

open Program

namespace TokenStore

/-- Every record is that of its token, and every index entry is that of a token with a record. -/
structure Forest (st : TokenStore) (store : Store) : Prop where
  records : ∀ id blob, store.lookup (st.storeKey id) = some blob →
    ∃ t : Token, blob = st.json.marshal t ∧ t.WF ∧ t.id = id ∧ id ≠ []
  indexed : st.Indexed store
  known : ∀ p c, st.indexKey p c ∈ store → st.storeKey c ∈ store

namespace Forest

variable {st : TokenStore} {store store' : Store}

theorem empty : st.Forest ∅ where
  records id blob h := by
    rw [Finmap.lookup_empty] at h
    cases h
  indexed key hkey := absurd hkey Finmap.notMem_empty
  known p c hkey := absurd hkey Finmap.notMem_empty

theorem congr (h : st.Forest store) (hs : SameTokens store store') : st.Forest store' where
  records id blob hblob := h.records id blob (by rw [← hs _ (tokenKey_storeKey id), hblob])
  indexed key hkey hpfx := h.indexed key ((hs.mem_iff (.inr hpfx)).mp hkey) hpfx
  known p c hkey := (hs.mem_iff (tokenKey_storeKey c)).mpr
    (h.known p c ((hs.mem_iff (tokenKey_indexKey p c)).mp hkey))

theorem mem_insert_record {id : Bytes} {value : Bytes} {p c : Bytes} :
    st.indexKey p c ∈ store.insert (st.storeKey id) value ↔ st.indexKey p c ∈ store := by
  rw [Finmap.mem_insert, or_iff_right (indexKey_ne_storeKey p c id)]

theorem insert_record (h : st.Forest store) {t : Token} (hwf : t.WF) (hne : t.id ≠ []) :
    st.Forest (store.insert (st.storeKey t.id) (st.json.marshal t)) where
  records id blob hblob := by
    by_cases hid : id = t.id
    · rw [hid, Finmap.lookup_insert, Option.some.injEq] at hblob
      exact ⟨t, hblob.symm, hwf, hid.symm, hid ▸ hne⟩
    · rw [Finmap.lookup_insert_of_ne _ fun h => hid (st.storeKey_injective h)] at hblob
      exact h.records id blob hblob
  indexed key hkey hpfx := by
    rcases Finmap.mem_insert.mp hkey with rfl | hkey
    · exact absurd (st.storePrefix_storeKey t.id) (not_both hpfx)
    · exact h.indexed key hkey hpfx
  known p c hkey := Finmap.mem_insert.mpr (.inr (h.known p c (mem_insert_record.mp hkey)))

theorem insert_index (h : st.Forest store) {p c v : Bytes} (hc : st.storeKey c ∈ store) :
    st.Forest (store.insert (st.indexKey p c) v) where
  records id blob hblob := by
    rw [Finmap.lookup_insert_of_ne _ (indexKey_ne_storeKey p c id).symm] at hblob
    exact h.records id blob hblob
  indexed key hkey hpfx := by
    rcases Finmap.mem_insert.mp hkey with rfl | hkey
    · exact ⟨p, c, rfl⟩
    · exact h.indexed key hkey hpfx
  known p' c' hkey := by
    refine Finmap.mem_insert.mpr (.inr ?_)
    rcases Finmap.mem_insert.mp hkey with heq | hkey
    · rw [(indexKey_inj heq).2]
      exact hc
    · exact h.known p' c' hkey

/-- A record that is read is the one its token wrote. -/
theorem read (h : st.Forest store) {id blob : Bytes} {t : Token}
    (hblob : store.lookup (st.storeKey id) = some blob) (hread : st.json.unmarshal blob = some t) :
    t.WF ∧ t.id = id ∧ id ≠ [] := by
  obtain ⟨t', rfl, hwf, hid, hne⟩ := h.records id blob hblob
  rw [st.json.unmarshal_marshal t' hwf, Option.some.injEq] at hread
  exact hread ▸ ⟨hwf, hid, hne⟩

end Forest

end TokenStore

/-- The history made `c` a child of `p`. -/
def Bears (es : List TokenEvent) (p c : Bytes) : Prop :=
  ∃ e ∈ es, ∃ parent t, e.Bore parent t ∧ parent.id = p ∧ t.id = c

theorem bears_append {es : List TokenEvent} {e : TokenEvent} {p c : Bytes} :
    Bears (es ++ [e]) p c ↔
      Bears es p c ∨ ∃ parent t, e.Bore parent t ∧ parent.id = p ∧ t.id = c := by
  constructor
  · rintro ⟨e', he', h⟩
    rcases List.mem_append.mp he' with he' | he'
    · exact .inl ⟨e', he', h⟩
    · rw [List.mem_singleton.mp he'] at h
      exact .inr h
  · rintro (⟨e', he', h⟩ | h)
    · exact ⟨e', List.mem_append_left _ he', h⟩
    · exact ⟨e, List.mem_append_right _ (List.mem_singleton_self e), h⟩

theorem bears_append_of_childless {es : List TokenEvent} {e : TokenEvent}
    (h : ∀ parent t, ¬ e.Bore parent t) {p c : Bytes} : Bears (es ++ [e]) p c ↔ Bears es p c := by
  rw [bears_append, or_iff_left]
  rintro ⟨parent, t, hbore, -⟩
  exact h parent t hbore

/-- The store is a forest, and its entries are the children of the history. -/
structure Grown (es : List TokenEvent) (s : TokenState) : Prop where
  forest : s.tokens.Forest s.world.store
  children : ∀ p c, s.tokens.indexKey p c ∈ s.world.store ↔ Bears es p c

namespace Grown

variable {aliaser : Option Aliaser} {es : List TokenEvent} {s : TokenState} {a : TokenAction}

/-- Settings do not change where tokens are stored. -/
theorem configure {w : World} (h : Grown es ⟨s.tokens, w⟩) (call : TokenCall) :
    Grown es ⟨call.configure s.tokens, w⟩ := by
  cases call with
  | setMaxTTL d => exact ⟨⟨h.forest.records, h.forest.indexed, h.forest.known⟩, h.children⟩
  | _ => exact h

theorem step (hapart : ∀ a ∈ aliaser, a.Apart) (hworks : a.env.Works) (h : Grown es s) :
    Grown (es ++ [s.step aliaser a]) (s.step aliaser a).after := by
  have houtcome := TokenState.step_outcome (s := s) (a := a) hapart
  refine configure (s := s) (w := (s.step aliaser a).after.world) ?_ a.call
  have hbefore : (s.step aliaser a).before = s := rfl
  have haction : (s.step aliaser a).action = a := rfl
  generalize s.step aliaser a = e at houtcome hbefore haction ⊢
  subst hbefore haction
  cases houtcome with
  | kept same childless =>
    refine ⟨h.forest.congr same, fun p c => ?_⟩
    rw [same.mem_iff (TokenStore.tokenKey_indexKey p c), bears_append_of_childless childless]
    exact h.children p c
  | issued t expiresAt bound result issues limit childless =>
    have hwf := issues.minted.wf (by intro x hx; cases hx)
    refine ⟨(h.forest.insert_record hwf issues.minted.named).congr issues.stored, fun p c => ?_⟩
    rw [issues.stored.mem_iff (TokenStore.tokenKey_indexKey p c),
      TokenStore.Forest.mem_insert_record, bears_append_of_childless childless]
    exact h.children p c
  | bore parent t policies ttl n call result minted stored =>
    have hwf := minted.wf (TokenStore.ascii_hashID _ _)
    have hrecord := h.forest.insert_record hwf minted.named
    have hindex := hrecord.insert_index (p := parent.id) (v := str "1")
      (Finmap.mem_insert.mpr (.inl rfl))
    refine ⟨stored ▸ hindex, fun p c => ?_⟩
    dsimp only
    rw [stored, Finmap.mem_insert, TokenStore.Forest.mem_insert_record, h.children, bears_append, or_comm]
    refine or_congr_right ⟨fun heq => ?_, ?_⟩
    · obtain ⟨rfl, rfl⟩ := TokenStore.indexKey_inj heq
      exact ⟨parent, t, ⟨⟨policies, ttl, call⟩, result⟩, rfl, rfl⟩
    · rintro ⟨parent', t', ⟨⟨policies', ttl', call'⟩, result'⟩, rfl, rfl⟩
      rw [call] at call'
      rw [result] at result'
      cases call'
      cases result'
      rfl
  | stray parent t policies ttl n err call result fault =>
    exact absurd fault hworks.not_faults
  | renewed id blob t t' record read expiring renews result stored childless =>
    obtain ⟨hwf, rfl, hne⟩ := h.forest.read record read
    obtain ⟨expiresAt, rfl⟩ := renews.eq
    have hwf' : Token.WF { t with maxExpiresAt := e.before.tokens.maxExpiry t, expiresAt } :=
      ⟨hwf.id, hwf.parentHash⟩
    have hrecord := h.forest.insert_record hwf' hne
    refine ⟨stored ▸ hrecord, fun p c => ?_⟩
    dsimp only
    rw [stored, TokenStore.Forest.mem_insert_record, bears_append_of_childless childless]
    exact h.children p c

/-- Every run from an empty store grows a forest. -/
theorem run (hapart : ∀ a ∈ aliaser, a.Apart) (st : TokenStore) (tick : Nat)
    {actions : List TokenAction} (hworks : ∀ a ∈ actions, a.env.Works) :
    Grown (TokenState.events aliaser ⟨st, ⟨∅, tick⟩⟩ actions)
      (TokenState.after aliaser ⟨st, ⟨∅, tick⟩⟩ actions) := by
  refine Run.holds_of_forall (A := fun a => a.env.Works) ?_ ?_ hworks
  · refine ⟨.empty, fun p c => ⟨fun hkey => absurd hkey Finmap.notMem_empty, ?_⟩⟩
    rintro ⟨e, he, -⟩
    cases he
  · exact fun es s a hworks h => step hapart hworks h

end Grown

end UbixVault
