/-
How long a token may live.

Every expiring token is stored with a ceiling, the latest time renewal may reach.
A ceiling is fixed when the token is created: a renewal writes the record again with
the ceiling it had, whatever the system maximum is by then.  A child is clamped to
its parent's ceiling, so ceilings never rise along a chain of children.

Zero is the code's mark for "no time".  All of this rests on no computed time being
that mark, and so on a clock that reads no time before it.
-/
import UbixVault.Proofs.Token.Cascade

namespace UbixVault

open Program

namespace TokenStore

variable {st : TokenStore} {store store' : Store} {t t' : Token}

/-! ### Records and their ceilings -/

/-- The store holds the record of `t`. -/
structure Stored (st : TokenStore) (store : Store) (t : Token) : Prop where
  wf : t.WF
  record : store.lookup (st.storeKey t.id) = some (st.json.marshal t)

/-- A token has one record. -/
theorem Stored.unique (h : st.Stored store t) (h' : st.Stored store t') (hid : t.id = t'.id) :
    t = t' := by
  have hrecord := h.record
  rw [hid, h'.record, Option.some.injEq] at hrecord
  exact (st.json.marshal_inj h'.wf h.wf hrecord).symm

/-- `t` is the token `t'` at another time: with the same ceiling, and expiring when that is. -/
structure Same (t t' : Token) : Prop where
  id : t.id = t'.id
  ceiling : t.maxExpiresAt = t'.maxExpiresAt
  expiring : t.expiresAt = 0 ↔ t'.expiresAt = 0
  parent : t.parentHash = t'.parentHash

/-- What the store holds of `t` now. -/
def Current (st : TokenStore) (store : Store) (t : Token) : Prop :=
  ∃ t', st.Stored store t' ∧ Same t' t

/-- Expiring, and not past a ceiling that it has. -/
structure Bounded (t : Token) : Prop where
  positive : 0 < t.maxExpiresAt
  expires : t.expiresAt ≤ t.maxExpiresAt

/-- Every record is readable and has its ceiling, and no child has a higher one than its parent. -/
structure Ceiled (st : TokenStore) (store : Store) : Prop where
  records : ∀ id blob, store.lookup (st.storeKey id) = some blob →
    ∃ t : Token, blob = st.json.marshal t ∧ t.WF ∧ t.id = id ∧ id ≠ []
  bounded : ∀ t, st.Stored store t → t.expiresAt ≠ 0 → Bounded t
  children : ∀ p t, st.Stored store p → st.Stored store t → t.parentHash = st.hashID p.id →
    p.expiresAt ≠ 0 → t.expiresAt ≠ 0 ∧ t.maxExpiresAt ≤ p.maxExpiresAt

/-- The two stores hold the same records. -/
def SameRecords (st : TokenStore) (store store' : Store) : Prop :=
  ∀ id, store'.lookup (st.storeKey id) = store.lookup (st.storeKey id)

theorem sameRecords_of_same (hs : SameTokens store store') : st.SameRecords store store' :=
  fun id => hs _ (tokenKey_storeKey id)

theorem sameRecords_index (p c v : Bytes) : st.SameRecords store (store.insert (st.indexKey p c) v) :=
  fun id => Finmap.lookup_insert_of_ne _ (indexKey_ne_storeKey p c id).symm

/-- A record that is written and taken back. -/
theorem sameRecords_erase {id : Bytes} {value : Bytes} (hfresh : st.storeKey id ∉ store) :
    st.SameRecords store ((store.insert (st.storeKey id) value).erase (st.storeKey id)) := by
  intro id'
  by_cases hid : id' = id
  · rw [hid, Finmap.lookup_erase, Finmap.lookup_eq_none.mpr hfresh]
  · have hne : st.storeKey id' ≠ st.storeKey id := fun h => hid (st.storeKey_injective h)
    rw [Finmap.lookup_erase_ne hne, Finmap.lookup_insert_of_ne _ hne]

theorem stored_congr (hs : st.SameRecords store store') :
    st.Stored store' t ↔ st.Stored store t := by
  constructor
  · exact fun h => ⟨h.wf, by rw [← hs t.id, h.record]⟩
  · exact fun h => ⟨h.wf, by rw [hs t.id, h.record]⟩

theorem Ceiled.congr (h : st.Ceiled store) (hs : st.SameRecords store store') :
    st.Ceiled store' where
  records id blob hblob := h.records id blob (by rw [← hs id, hblob])
  bounded t ht := h.bounded t ((stored_congr hs).mp ht)
  children p t hp ht := h.children p t ((stored_congr hs).mp hp) ((stored_congr hs).mp ht)

theorem Ceiled.empty (hempty : ∀ id, st.storeKey id ∉ store) : st.Ceiled store := by
  have hnone : ∀ t, ¬ st.Stored store t := by
    intro t ht
    refine hempty t.id ?_
    rw [← Finmap.lookup_isSome, ht.record]
    rfl
  constructor
  case records =>
    intro id blob hblob
    refine absurd ?_ (hempty id)
    rw [← Finmap.lookup_isSome, hblob]
    rfl
  case bounded => exact fun t ht => absurd ht (hnone t)
  case children => exact fun p t hp => absurd hp (hnone p)

/-- What is read is what is stored. -/
theorem Ceiled.stored_of_holds (h : st.Ceiled store) (hholds : st.Holds store t) :
    st.Stored store t := by
  obtain ⟨id, blob, hblob, hread⟩ := hholds
  obtain ⟨t', rfl, hwf, hid, -⟩ := h.records id blob hblob
  rw [st.json.unmarshal_marshal t' hwf, Option.some.injEq] at hread
  subst hread
  exact ⟨hwf, by rw [hid, hblob]⟩

theorem Stored.named (hstored : st.Stored store t) (h : st.Ceiled store) : t.id ≠ [] := by
  obtain ⟨t', hmarshal, hwf, hid, hne⟩ := h.records t.id _ hstored.record
  exact hne

/-- One more record, or one that is written again. -/
theorem stored_insert (hwf : t.WF) {x : Token} :
    st.Stored (store.insert (st.storeKey t.id) (st.json.marshal t)) x ↔
      x = t ∨ st.Stored store x ∧ x.id ≠ t.id := by
  constructor
  · intro hx
    by_cases hid : x.id = t.id
    · refine .inl (st.json.marshal_inj hx.wf hwf ?_)
      have hrecord := hx.record
      rw [hid, Finmap.lookup_insert, Option.some.injEq] at hrecord
      exact hrecord.symm
    · refine .inr ⟨⟨hx.wf, ?_⟩, hid⟩
      rw [← Finmap.lookup_insert_of_ne store fun heq => hid (st.storeKey_injective heq), hx.record]
  · rintro (rfl | ⟨hx, hid⟩)
    · exact ⟨hwf, Finmap.lookup_insert _⟩
    · refine ⟨hx.wf, ?_⟩
      rw [Finmap.lookup_insert_of_ne _ fun heq => hid (st.storeKey_injective heq), hx.record]

theorem Stored.ne_of_fresh {x : Token} (hx : st.Stored store x)
    (hfresh : st.storeKey t.id ∉ store) : x.id ≠ t.id := by
  intro heq
  refine hfresh ?_
  rw [← heq, ← Finmap.lookup_isSome, hx.record]
  rfl

theorem records_insert (h : st.Ceiled store) (hwf : t.WF) (hne : t.id ≠ []) (id blob : Bytes)
    (hblob : (store.insert (st.storeKey t.id) (st.json.marshal t)).lookup (st.storeKey id)
      = some blob) :
    ∃ t' : Token, blob = st.json.marshal t' ∧ t'.WF ∧ t'.id = id ∧ id ≠ [] := by
  by_cases hid : id = t.id
  · rw [hid, Finmap.lookup_insert, Option.some.injEq] at hblob
    exact ⟨t, hblob.symm, hwf, hid.symm, hid ▸ hne⟩
  · rw [Finmap.lookup_insert_of_ne _ fun heq => hid (st.storeKey_injective heq)] at hblob
    exact h.records id blob hblob

/-- No record is that of `id`, and none names it as its parent. -/
def Unused (st : TokenStore) (store : Store) (id : Bytes) : Prop :=
  st.storeKey id ∉ store ∧ ∀ t, st.Stored store t → t.parentHash ≠ st.hashID id

/-- Which values are in use is not a matter of the system maximum. -/
theorem Unused.settings {m : Time} {id : Bytes} (h : Unused { st with maxTTL := m } store id) :
    st.Unused store id := ⟨h.1, fun t ht => h.2 t ⟨ht.wf, ht.record⟩⟩

/-- A new token with its ceiling, and clamped to that of its parent if it has one. -/
theorem Ceiled.insert (h : st.Ceiled store) (hwf : t.WF) (hne : t.id ≠ [])
    (hunused : st.Unused store t.id) (hbounded : t.expiresAt ≠ 0 → Bounded t)
    (hclamped : ∀ p, st.Stored store p → t.parentHash = st.hashID p.id → p.expiresAt ≠ 0 →
      t.expiresAt ≠ 0 ∧ t.maxExpiresAt ≤ p.maxExpiresAt)
    (hself : t.parentHash ≠ st.hashID t.id) :
    st.Ceiled (store.insert (st.storeKey t.id) (st.json.marshal t)) := by
  have hstored : ∀ {x}, st.Stored (store.insert (st.storeKey t.id) (st.json.marshal t)) x →
      x = t ∨ st.Stored store x := fun hx => ((stored_insert hwf).mp hx).imp_right And.left
  constructor
  case records => exact records_insert h hwf hne
  case bounded =>
    intro x hx
    rcases hstored hx with rfl | hx
    · exact hbounded
    · exact h.bounded x hx
  case children =>
    intro p x hp hx heq hexpiring
    rcases hstored hx with rfl | hx'
    · rcases hstored hp with rfl | hp'
      · exact absurd heq hself
      · exact hclamped p hp' heq hexpiring
    · rcases hstored hp with rfl | hp'
      · exact absurd heq (hunused.2 x hx')
      · exact h.children p x hp' hx' heq hexpiring

/-- Every token of the first store is in the second, as the same token. -/
def Keeps (st : TokenStore) (store store' : Store) : Prop :=
  ∀ t, st.Stored store t → st.Current store' t

theorem Same.refl (t : Token) : Same t t := ⟨rfl, rfl, Iff.rfl, rfl⟩

theorem Same.trans {t'' : Token} (h : Same t t') (h' : Same t' t'') : Same t t'' :=
  ⟨h.id.trans h'.id, h.ceiling.trans h'.ceiling, h.expiring.trans h'.expiring,
    h.parent.trans h'.parent⟩

theorem Keeps.current (h : st.Keeps store store') (ht : st.Current store t) :
    st.Current store' t := by
  obtain ⟨x, hx, hsame⟩ := ht
  obtain ⟨y, hy, hyx⟩ := h x hx
  exact ⟨y, hy, hyx.trans hsame⟩

theorem Keeps.of_same (hs : st.SameRecords store store') : st.Keeps store store' :=
  fun t ht => ⟨t, (stored_congr hs).mpr ht, .refl t⟩

theorem Keeps.insert (hwf : t.WF) (hfresh : st.storeKey t.id ∉ store) :
    st.Keeps store (store.insert (st.storeKey t.id) (st.json.marshal t)) :=
  fun x hx => ⟨x, (stored_insert hwf).mpr (.inr ⟨hx, hx.ne_of_fresh hfresh⟩), .refl x⟩

theorem Keeps.renew (hwf : t'.WF) (ht : st.Stored store t) (hsame : Same t' t) :
    st.Keeps store (store.insert (st.storeKey t'.id) (st.json.marshal t')) := by
  intro x hx
  by_cases hid : x.id = t'.id
  · rw [hx.unique ht (hid.trans hsame.id)]
    exact ⟨t', (stored_insert hwf).mpr (.inl rfl), hsame⟩
  · exact ⟨x, (stored_insert hwf).mpr (.inr ⟨hx, hid⟩), .refl x⟩

/-- A record that is written again, with the ceiling it had. -/
theorem Ceiled.renew (h : st.Ceiled store) (hwf : t'.WF) (ht : st.Stored store t)
    (hsame : Same t' t) (hbounded : t'.expiresAt ≠ 0 → Bounded t') :
    st.Ceiled (store.insert (st.storeKey t'.id) (st.json.marshal t')) := by
  have hstored : ∀ {x}, st.Stored (store.insert (st.storeKey t'.id) (st.json.marshal t')) x →
      ∃ y, st.Stored store y ∧ Same x y := by
    intro x hx
    rcases (stored_insert hwf).mp hx with rfl | ⟨hx', -⟩
    · exact ⟨t, ht, hsame⟩
    · exact ⟨x, hx', .refl x⟩
  constructor
  case records => exact records_insert h hwf (hsame.id ▸ ht.named h)
  case bounded =>
    intro x hx
    rcases (stored_insert hwf).mp hx with rfl | ⟨hx', -⟩
    · exact hbounded
    · exact h.bounded x hx'
  case children =>
    intro p x hp hx heq hexpiring
    obtain ⟨q, hq, hpq⟩ := hstored hp
    obtain ⟨y, hy, hxy⟩ := hstored hx
    rw [hxy.parent, hpq.id] at heq
    have hchild := h.children q y hq hy heq fun hzero => hexpiring (hpq.expiring.mpr hzero)
    rw [hxy.ceiling, hpq.ceiling]
    exact ⟨fun hzero => hchild.1 (hxy.expiring.mp hzero), hchild.2⟩

/-! ### What creation and renewal store -/

variable {env : Env} {expiresAt bound : Time} {parentHash : Bytes}

theorem Minted.never (h : st.Minted env 0 bound parentHash t) : t.expiresAt = 0 := by
  rw [h.expires]
  simp [clamp]

/-- Clamping two times of which the second is the later one. -/
private theorem clamp_times {e b c t m : Int} (he : 0 < e) (hb : 0 ≤ b)
    (ht : t = if e ≠ 0 ∧ b ≠ 0 ∧ e > b then b else e)
    (hm : m = if e ≠ 0 ∧ b ≠ 0 ∧ (if e > c then e else c) > b then b else if e > c then e else c) :
    t ≠ 0 ∧ 0 < m ∧ t ≤ m ∧ (b ≠ 0 → m ≤ b) := by
  split_ifs at ht hm <;> omega

/-- A token that is to expire does so at its ceiling or before, and both keep to the bound. -/
theorem Minted.times (h : st.Minted env expiresAt bound parentHash t) (hexpires : 0 < expiresAt)
    (hbound : 0 ≤ bound) :
    t.expiresAt ≠ 0 ∧ Bounded t ∧ (bound ≠ 0 → t.maxExpiresAt ≤ bound) := by
  have hc := h.ceiling
  unfold ceilingAt at hc
  rw [if_neg hexpires.ne'] at hc
  obtain ⟨hexpiring, hpos, hle, hclamped⟩ := clamp_times hexpires hbound h.expires hc
  exact ⟨hexpiring, ⟨hpos, hle⟩, hclamped⟩

theorem clock_add_pos (hclock : ∀ n, 0 ≤ env.clock n) {n : Nat} {ttl : Time} (httl : 0 < ttl) :
    0 < env.clock n + ttl := add_pos_of_nonneg_of_pos (hclock n) httl

theorem Due.pos (hdue : Due env expiresAt) (hclock : ∀ n, 0 ≤ env.clock n)
    (hne : expiresAt ≠ 0) : 0 < expiresAt := by
  rcases hdue with hzero | ⟨n, ttl, httl, rfl⟩
  · exact absurd hzero hne
  · exact clock_add_pos hclock httl

theorem Due.nonneg (hdue : Due env bound) (hclock : ∀ n, 0 ≤ env.clock n) : 0 ≤ bound := by
  by_cases hzero : bound = 0
  · exact hzero.ge
  · exact (hdue.pos hclock hzero).le

theorem maxExpiry_eq (hpos : 0 < t.maxExpiresAt) (hexpiring : t.expiresAt ≠ 0) :
    st.maxExpiry t = t.maxExpiresAt := by
  unfold maxExpiry
  rw [if_neg hexpiring, if_pos hpos.ne']

theorem Renewed.same (h : st.Renewed env t t') (hclock : ∀ n, 0 ≤ env.clock n)
    (hbounded : Bounded t) (hexpiring : t.expiresAt ≠ 0) : Same t' t ∧ Bounded t' := by
  have hpositive := hbounded.positive
  have hceiling : st.maxExpiry t = t.maxExpiresAt := maxExpiry_eq hpositive hexpiring
  have hexpires := h.expires
  have hdue : 0 < t'.expiresAt := by
    rcases h.due with heq | ⟨n, ttl, httl, heq⟩
    · rw [heq, hceiling]
      exact hpositive
    · rw [heq]
      exact clock_add_pos hclock httl
  obtain ⟨expiresAt, rfl⟩ := h.eq
  rw [hceiling] at hexpires
  refine ⟨⟨rfl, hceiling, ⟨fun hz => absurd hz hdue.ne', fun hz => absurd hz hexpiring⟩, rfl⟩, ?_, ?_⟩
  · rw [hceiling]
    exact hpositive
  · dsimp only
    rw [hceiling]
    exact hexpires

/-- A new child of a token that is current. -/
theorem Ceiled.insert_child (h : st.Ceiled store) {m : Time} {parent : Token}
    (hcurrent : st.Current store parent) (hclock : ∀ n, 0 ≤ env.clock n) {n : Nat} {ttl : Time}
    (httl : 0 < ttl) (hminted : Minted { st with maxTTL := m } env (env.clock n + ttl)
      (maxExpiry { st with maxTTL := m } parent) (st.hashID parent.id) t)
    (hunused : st.Unused store t.id) :
    st.Ceiled (store.insert (st.storeKey t.id) (st.json.marshal t)) := by
  obtain ⟨p, hp, hsame⟩ := hcurrent
  have hpos : 0 < env.clock n + ttl := clock_add_pos hclock httl
  have hbound : p.expiresAt ≠ 0 → maxExpiry { st with maxTTL := m } parent = p.maxExpiresAt := by
    intro hexpiring
    have hceiling := (h.bounded p hp hexpiring).positive
    rw [hsame.ceiling] at hceiling ⊢
    exact maxExpiry_eq hceiling fun hz => hexpiring (hsame.expiring.mpr hz)
  have hnonneg : 0 ≤ maxExpiry { st with maxTTL := m } parent := by
    by_cases hexpiring : p.expiresAt = 0
    · unfold maxExpiry
      rw [if_pos (hsame.expiring.mp hexpiring)]
    · rw [hbound hexpiring]
      exact (h.bounded p hp hexpiring).positive.le
  obtain ⟨hexpiring, hbounded, hclamped⟩ := hminted.times hpos hnonneg
  refine h.insert (hminted.wf (st.ascii_hashID _)) hminted.named hunused (fun _ => hbounded) ?_ ?_
  · intro q hq heq hq'
    have hid : q.id = p.id := by
      rw [hsame.id]
      exact st.hashID_injective (heq.symm.trans hminted.parent)
    rw [hq.unique hp hid] at hq' ⊢
    rw [← hbound hq']
    refine ⟨hexpiring, hclamped ?_⟩
    rw [hbound hq']
    exact (h.bounded p hp hq').positive.ne'
  · intro heq
    have hid : p.id = t.id := by
      rw [hsame.id]
      exact st.hashID_injective (hminted.parent.symm.trans heq)
    exact hp.ne_of_fresh hunused.1 hid

end TokenStore

/-! ### Runs -/

/-- The random values of a call are not yet in use, and a parent was returned by an earlier call. -/
structure TokenEvent.Fair (earlier : List TokenEvent) (e : TokenEvent) : Prop where
  fresh : ∀ n, e.before.tokens.Unused e.before.world.store
    (displayPrefix ++ hexEncode (e.action.env.random n idBytes).val)
  parent : ∀ parent policies ttl, e.action.call = .createChild parent policies ttl →
    ∃ e' ∈ earlier, e'.result = .ok (some parent)

/-- Besides, the clock reads no time before zero. -/
structure TokenEvent.Proper (earlier : List TokenEvent) (e : TokenEvent) : Prop
    extends e.Fair earlier where
  clock : ∀ n, 0 ≤ e.action.env.clock n

/-- What a run from a store of `st` leaves. -/
structure Lived (st : TokenStore) (es : List TokenEvent) (s : TokenState) : Prop where
  settings : ∃ m, s.tokens = { st with maxTTL := m }
  ceiled : st.Ceiled s.world.store
  returned : ∀ e ∈ es, ∀ t, e.result = .ok (some t) → st.Current s.world.store t
  seen : ∀ e ∈ es, st.Keeps e.before.world.store s.world.store
  logins : ∀ e ∈ es, ∀ maxTTL t, e.Login maxTTL → 0 < maxTTL → e.result = .ok (some t) →
    t.maxExpiresAt ≤ e.action.env.clock e.before.world.tick + maxTTL

namespace Lived

variable {st : TokenStore} {aliaser : Option Aliaser} {es : List TokenEvent} {s : TokenState}
  {e : TokenEvent}

/-- One more event, once it is known what it stored and returned. -/
theorem append (h : Lived st es e.before) {m : Time} (hsettings : e.after.tokens = { st with maxTTL := m })
    (hceiled : st.Ceiled e.after.world.store)
    (hkeeps : st.Keeps e.before.world.store e.after.world.store)
    (hreturned : ∀ t, e.result = .ok (some t) → st.Current e.after.world.store t)
    (hlogin : ∀ maxTTL t, e.Login maxTTL → 0 < maxTTL → e.result = .ok (some t) →
      t.maxExpiresAt ≤ e.action.env.clock e.before.world.tick + maxTTL) :
    Lived st (es ++ [e]) e.after where
  settings := ⟨m, hsettings⟩
  ceiled := hceiled
  returned e' he' t ht := by
    rcases List.mem_append.mp he' with he' | he'
    · exact hkeeps.current (h.returned e' he' t ht)
    · rw [List.mem_singleton.mp he'] at ht
      exact hreturned t ht
  seen e' he' := by
    rcases List.mem_append.mp he' with he' | he'
    · exact fun t ht => hkeeps.current (h.seen e' he' t ht)
    · rw [List.mem_singleton.mp he']
      exact hkeeps
  logins e' he' := by
    rcases List.mem_append.mp he' with he' | he'
    · exact h.logins e' he'
    · rw [List.mem_singleton.mp he']
      exact hlogin

theorem configure_eq (st : TokenStore) (m : Time) (call : TokenCall) :
    ∃ m', call.configure { st with maxTTL := m } = { st with maxTTL := m' } := by
  cases call with
  | setMaxTTL d => exact ⟨_, rfl⟩
  | _ => exact ⟨m, rfl⟩

theorem step {a : TokenAction} (hapart : ∀ a ∈ aliaser, a.Apart) (h : Lived st es s)
    (hproper : (s.step aliaser a).Proper es) :
    Lived st (es ++ [s.step aliaser a]) (s.step aliaser a).after := by
  have houtcome := TokenState.step_outcome (s := s) (a := a) hapart
  have hbefore : (s.step aliaser a).before = s := rfl
  obtain ⟨m, hm⟩ := h.settings
  obtain ⟨m', hm'⟩ := configure_eq st m a.call
  have hafter : (s.step aliaser a).after.tokens = { st with maxTTL := m' } := by
    rw [← hm', ← hm]
    rfl
  generalize s.step aliaser a = e at houtcome hbefore hafter hproper ⊢
  subst hbefore
  have hid : ∀ {expiresAt bound : Time} {parentHash : Bytes} {t : Token},
      e.before.tokens.Minted e.action.env expiresAt bound parentHash t →
        st.Unused e.before.world.store t.id := by
    intro expiresAt bound parentHash t hminted
    obtain ⟨n, hid⟩ := hminted.id
    have hunused := hproper.fresh n
    rw [hm] at hunused
    rw [hid]
    exact hunused.settings
  cases houtcome with
  | kept same childless read =>
    rw [hm] at read
    have hrecords : st.SameRecords _ _ := TokenStore.sameRecords_of_same same
    refine h.append hafter (h.ceiled.congr hrecords) (.of_same hrecords) ?_ ?_
    · intro t ht
      exact TokenStore.Keeps.of_same hrecords t (h.ceiled.stored_of_holds (read t ht).1)
    · exact fun maxTTL t hlogin _ ht => absurd hlogin ((read t ht).2 maxTTL)
  | issued t expiresAt bound result issues limit childless login =>
    have hwf := issues.minted.wf (by intro x hx; cases hx)
    have hunused := hid issues.minted
    have hsame := issues.stored
    rw [hm] at hsame
    have hstored : st.SameRecords _ _ := TokenStore.sameRecords_of_same hsame
    have hexpires : t.expiresAt ≠ 0 → 0 < expiresAt := by
      intro hexpiring
      refine issues.due.pos hproper.clock ?_
      rintro rfl
      exact hexpiring issues.minted.never
    have hnew : st.Stored (e.before.world.store.insert (st.storeKey t.id) (st.json.marshal t)) t :=
      (TokenStore.stored_insert hwf).mpr (.inl rfl)
    have horphan : ∀ id, t.parentHash ≠ st.hashID id :=
      fun id heq => st.hashID_ne_nil id (heq.symm.trans issues.minted.parent)
    refine h.append hafter ((h.ceiled.insert hwf issues.minted.named hunused ?_
      (fun p _ heq => absurd heq (horphan p.id)) (horphan t.id)).congr hstored) ?_ ?_ ?_
    · exact fun hexpiring => (issues.minted.times (hexpires hexpiring)
        (limit.nonneg hproper.clock)).2.1
    · intro x hx
      exact (TokenStore.Keeps.of_same hstored).current (TokenStore.Keeps.insert hwf hunused.1 x hx)
    · intro x hx
      rw [result] at hx
      cases hx
      exact TokenStore.Keeps.of_same hstored t hnew
    · intro maxTTL x hlogin hmax hx
      rw [result] at hx
      cases hx
      obtain ⟨⟨n, ttl, httl, rfl⟩, rfl⟩ := login maxTTL hlogin hmax
      have hpos : 0 < e.action.env.clock e.before.world.tick + maxTTL :=
        TokenStore.clock_add_pos hproper.clock hmax
      exact (issues.minted.times (TokenStore.clock_add_pos hproper.clock httl)
        hpos.le).2.2 hpos.ne'
  | bore parent t policies ttl n call result minted stored =>
    obtain ⟨e', he', hreturned⟩ := hproper.parent parent policies ttl call
    have hunused := hid minted
    have hwf := minted.wf (TokenStore.ascii_hashID _ _)
    rw [hm] at minted stored
    have hceiled := h.ceiled.insert_child (h.returned e' he' parent hreturned) hproper.clock
      (TokenStore.ttl_pos ttl) minted hunused
    have hindex : st.SameRecords
        (e.before.world.store.insert (st.storeKey t.id) (st.json.marshal t))
        e.after.world.store := by
      rw [stored]
      exact TokenStore.sameRecords_index _ _ _
    refine h.append hafter (hceiled.congr hindex) ?_ ?_ ?_
    · intro x hx
      exact (TokenStore.Keeps.of_same hindex).current (TokenStore.Keeps.insert hwf hunused.1 x hx)
    · intro x hx
      rw [result] at hx
      cases hx
      exact TokenStore.Keeps.of_same hindex t ((TokenStore.stored_insert hwf).mpr (.inl rfl))
    · rintro maxTTL x ⟨_, _, _, _, _, hlogin⟩
      rw [call] at hlogin
      cases hlogin
  | stray parent t policies ttl n err call result fault minted stored =>
    obtain ⟨e', he', hreturned⟩ := hproper.parent parent policies ttl call
    have hunused := hid minted
    have hwf := minted.wf (TokenStore.ascii_hashID _ _)
    rw [hm] at minted stored
    have hceiled := h.ceiled.insert_child (h.returned e' he' parent hreturned) hproper.clock
      (TokenStore.ttl_pos ttl) minted hunused
    have hnone : ∀ x : Token, e.result ≠ .ok (some x) := by
      intro x hx
      rw [result] at hx
      cases hx
    rcases stored with stored | stored
    · refine h.append hafter (stored ▸ hceiled) (stored ▸ .insert hwf hunused.1) ?_ ?_
      · exact fun x hx => absurd hx (hnone x)
      · exact fun _ x _ _ hx => absurd hx (hnone x)
    · have herased : st.SameRecords e.before.world.store e.after.world.store := by
        rw [stored]
        exact TokenStore.sameRecords_erase hunused.1
      refine h.append hafter (h.ceiled.congr herased) (.of_same herased) ?_ ?_
      · exact fun x hx => absurd hx (hnone x)
      · exact fun _ x _ _ hx => absurd hx (hnone x)
  | renewed id blob t t' record read expiring renews result stored childless noLogin =>
    rw [hm] at record read renews stored
    have ht := h.ceiled.stored_of_holds ⟨id, blob, record, read⟩
    obtain ⟨hsame, hbounded⟩ := renews.same hproper.clock (h.ceiled.bounded t ht expiring) expiring
    have hwf : t'.WF := by
      obtain ⟨expiresAt, rfl⟩ := renews.eq
      exact ⟨ht.wf.id, ht.wf.parentHash⟩
    have hstored : e.after.world.store
        = e.before.world.store.insert (st.storeKey t'.id) (st.json.marshal t') := by
      rw [stored, hsame.id]
      rfl
    refine h.append hafter ?_ ?_ ?_ fun maxTTL _ hlogin => absurd hlogin (noLogin maxTTL)
    · rw [hstored]
      exact h.ceiled.renew hwf ht hsame fun _ => hbounded
    · rw [hstored]
      exact .renew hwf ht hsame
    · intro x hx
      rw [result] at hx
      cases hx
      rw [hstored]
      exact ⟨t', (TokenStore.stored_insert hwf).mpr (.inl rfl), .refl t'⟩

/-- Every proper run keeps to its ceilings. -/
theorem run (hapart : ∀ a ∈ aliaser, a.Apart) {w : World} (hstart : st.Ceiled w.store)
    {actions : List TokenAction}
    (hproper : Run.Throughout TokenEvent.Proper (TokenState.events aliaser ⟨st, w⟩ actions)) :
    Lived st (TokenState.events aliaser ⟨st, w⟩ actions)
      (TokenState.after aliaser ⟨st, w⟩ actions) := by
  refine (Run.holds_throughout (S := fun _ _ => True) (I := Lived st) ?_ ?_ actions hproper).1
  · exact ⟨⟨st.maxTTL, rfl⟩, hstart, fun _ h => absurd h List.not_mem_nil,
      fun _ h => absurd h List.not_mem_nil, fun _ h => absurd h List.not_mem_nil⟩
  · exact fun es s a h hproper => ⟨step hapart h hproper, trivial⟩

end Lived

/-- `t` is a child of `p`, and both are stored. -/
def TokenStore.ParentOf (st : TokenStore) (store : Store) (p t : Token) : Prop :=
  st.Stored store p ∧ st.Stored store t ∧ t.parentHash = st.hashID p.id

/-- No ceiling rises along a chain of children that starts with an expiring token. -/
theorem TokenStore.Ceiled.ancestor {st : TokenStore} {store : Store} (h : st.Ceiled store)
    {p t : Token} (hancestor : Relation.TransGen (st.ParentOf store) p t) (hp : p.expiresAt ≠ 0) :
    t.expiresAt ≠ 0 ∧ t.maxExpiresAt ≤ p.maxExpiresAt := by
  induction hancestor with
  | single hchild =>
    obtain ⟨hstored, hstored', heq⟩ := hchild
    exact h.children _ _ hstored hstored' heq hp
  | tail _ hchild ih =>
    obtain ⟨hstored, hstored', heq⟩ := hchild
    obtain ⟨hexpiring, hle⟩ := h.children _ _ hstored hstored' heq ih.1
    exact ⟨hexpiring, hle.trans ih.2⟩

/--
**Lifetime ceilings**: in every run from a store whose records have their ceilings, with
a clock that reads no time before zero, an expiring token never expires after its
ceiling; no record of it is ever stored with another ceiling; no descendant has a
higher one; and that of a login is at most its role's maximum after the login.
-/
theorem lifetime_ceilings (st : TokenStore) (aliaser : Option Aliaser)
    (hapart : ∀ a ∈ aliaser, a.Apart) (w : World) (hstart : st.Ceiled w.store)
    (actions : List TokenAction)
    (hproper : Run.Throughout TokenEvent.Proper (TokenState.events aliaser ⟨st, w⟩ actions)) :
    let es := TokenState.events aliaser ⟨st, w⟩ actions
    let store := (TokenState.after aliaser ⟨st, w⟩ actions).world.store
    (∀ t, st.Stored store t → t.expiresAt ≠ 0 → t.expiresAt ≤ t.maxExpiresAt) ∧
    (∀ e ∈ es, ∀ t, st.Stored e.before.world.store t →
      ∃ t', st.Stored store t' ∧ t'.id = t.id ∧ t'.maxExpiresAt = t.maxExpiresAt) ∧
    (∀ p t, Relation.TransGen (st.ParentOf store) p t → p.expiresAt ≠ 0 →
      t.maxExpiresAt ≤ p.maxExpiresAt) ∧
    (∀ e ∈ es, ∀ maxTTL t, e.Login maxTTL → 0 < maxTTL → e.result = .ok (some t) →
      t.maxExpiresAt ≤ e.action.env.clock e.before.world.tick + maxTTL ∧
      ∃ t', st.Stored store t' ∧ t'.id = t.id ∧ t'.maxExpiresAt = t.maxExpiresAt) := by
  intro es store
  have hlived : Lived st es _ := Lived.run hapart hstart hproper
  refine ⟨fun t ht hexpiring => (hlived.ceiled.bounded t ht hexpiring).expires, ?_, ?_, ?_⟩
  · intro e he t ht
    obtain ⟨t', ht', hsame⟩ := hlived.seen e he t ht
    exact ⟨t', ht', hsame.id, hsame.ceiling⟩
  · exact fun p t hancestor hp => (hlived.ceiled.ancestor hancestor hp).2
  · intro e he maxTTL t hlogin hmax hresult
    obtain ⟨t', ht', hsame⟩ := hlived.returned e he t hresult
    exact ⟨hlived.logins e he maxTTL t hlogin hmax hresult, t', ht', hsame.id, hsame.ceiling⟩

/-! ### A token that is created and renewed -/

/-- An outside without failures, with one random byte and one time. -/
def Env.steady (i : Nat) (now : Time) : Env :=
  { Env.constant (BitVec.ofNat 8 i) with clock := fun _ => now }

/-- A token is created, the system maximum is set and the token is renewed, all at one time. -/
def renewalRun (now ttl m : Time) : List TokenAction :=
  [⟨.steady 0 now, .createWithTTL [] ttl⟩, ⟨.steady 1 now, .setMaxTTL m⟩,
    ⟨.steady 1 now, .renew (constantID 0) 0⟩]

/-- Whether a value is in use can be told from the records there are. -/
theorem TokenStore.unused_of {st : TokenStore} {store : Store} {id : Bytes}
    (hkey : st.storeKey id ∉ store)
    (hparents : ∀ key ∈ store.keys.inOrder, ∀ t ∈ (store.lookup key).bind st.json.unmarshal,
      t.parentHash ≠ st.hashID id) : st.Unused store id := by
  refine ⟨hkey, fun t ht => hparents (st.storeKey t.id) ?_ t ?_⟩
  · exact Finmap.mem_inOrder_of_lookup ht.record
  · rw [ht.record]
    exact st.json.unmarshal_marshal t ht.wf

/-- The random value of an event that draws the same one at every call is not in use. -/
def TokenEvent.Draws (e : TokenEvent) : Prop :=
  let id := displayPrefix ++ hexEncode (e.action.env.random 0 idBytes).val
  e.before.tokens.storeKey id ∉ e.before.world.store ∧
    ∀ key ∈ e.before.world.store.keys.inOrder,
      ∀ t ∈ (e.before.world.store.lookup key).bind e.before.tokens.json.unmarshal,
        t.parentHash ≠ e.before.tokens.hashID id

instance decidableDraws (e : TokenEvent) : Decidable e.Draws :=
  inferInstanceAs (Decidable (_ ∧ ∀ key ∈ e.before.world.store.keys.inOrder, _))

/-- That run is fair, and all its calls read one time. -/
theorem fair_renewalRun {st : TokenStore} {now ttl m : Time}
    (hdraws : ∀ e ∈ TokenState.events none ⟨st, ⟨∅, 0⟩⟩ (renewalRun now ttl m), e.Draws) :
    Run.Throughout (fun earlier e => e.Fair earlier ∧ ∀ n, e.action.env.clock n = now)
      (TokenState.events none ⟨st, ⟨∅, 0⟩⟩ (renewalRun now ttl m)) := by
  intro earlier e later heq
  have hmem : e ∈ TokenState.events none ⟨st, ⟨∅, 0⟩⟩ (renewalRun now ttl m) := by
    rw [heq]
    exact List.mem_append_right _ List.mem_cons_self
  have hunused := hdraws e hmem
  simp only [TokenState.events, renewalRun, Run.history, List.mem_cons, List.not_mem_nil,
    or_false] at hmem
  rcases hmem with rfl | rfl | rfl <;>
    refine ⟨⟨fun _ => TokenStore.unused_of hunused.1 hunused.2, fun _ _ _ h => ?_⟩, fun _ => rfl⟩ <;>
    cases h

/-- Before time zero a ceiling can be mistaken for none, and is then computed again. -/
theorem ceiling_moves_before_zero :
    ∃ (st : TokenStore) (actions : List TokenAction),
      let es := TokenState.events none ⟨st, ⟨∅, 0⟩⟩ actions
      let store := (TokenState.after none ⟨st, ⟨∅, 0⟩⟩ actions).world.store
      Run.Throughout TokenEvent.Fair es ∧
        ∃ e ∈ es, ∃ t t', st.Stored e.before.world.store t ∧ st.Stored store t' ∧
          t'.id = t.id ∧ t'.maxExpiresAt ≠ t.maxExpiresAt := by
  let now : Time := -defaultMaxTTL
  refine ⟨Platform.transparent.tokens, renewalRun now 1 (2 * defaultMaxTTL),
    fun earlier e later h => (fair_renewalRun (by decide +kernel) earlier e later h).1, _,
    List.mem_cons_of_mem _ (List.mem_cons_of_mem _ List.mem_cons_self),
    ⟨constantID 0, [], "", now, now + 1, 0, []⟩,
    ⟨constantID 0, [], "", now, 0, defaultMaxTTL, []⟩, ⟨⟨?_, ?_⟩, ?_⟩, ⟨⟨?_, ?_⟩, ?_⟩, rfl, ?_⟩
  all_goals decide +kernel

/-- A token that lives for one unit of time, renewed under a maximum of two. -/
theorem lifetime_ceilings_renewed :
    ∃ (st : TokenStore) (e : TokenEvent) (t t' : Token),
      let actions := renewalRun 0 1 2
      let store := (TokenState.after none ⟨st, ⟨∅, 0⟩⟩ actions).world.store
      e ∈ TokenState.events none ⟨st, ⟨∅, 0⟩⟩ actions ∧ st.Stored e.before.world.store t ∧
        st.Stored store t' ∧ t'.id = t.id ∧ t'.maxExpiresAt = t.maxExpiresAt ∧
        (t'.expiresAt ≠ 0 → t'.expiresAt ≤ t'.maxExpiresAt) := by
  let st : TokenStore := Platform.transparent.tokens
  have hproper : Run.Throughout TokenEvent.Proper
      (TokenState.events none ⟨st, ⟨∅, 0⟩⟩ (renewalRun 0 1 2)) := by
    intro earlier e later heq
    obtain ⟨hfair, hclock⟩ := fair_renewalRun (by decide +kernel) earlier e later heq
    exact ⟨hfair, fun n => le_of_eq (hclock n).symm⟩
  obtain ⟨hexpires, hceiling, -⟩ := lifetime_ceilings st none (fun _ h => nomatch h) ⟨∅, 0⟩
    (.empty fun _ => Finmap.notMem_empty) (renewalRun 0 1 2) hproper
  obtain ⟨e, he, t, ht⟩ : ∃ e ∈ TokenState.events none ⟨st, ⟨∅, 0⟩⟩ (renewalRun 0 1 2),
      ∃ t, st.Stored e.before.world.store t :=
    ⟨_, List.mem_cons_of_mem _ (List.mem_cons_of_mem _ List.mem_cons_self),
      ⟨constantID 0, [], "", 0, 1, defaultMaxTTL, []⟩,
      ⟨⟨by decide +kernel, by decide +kernel⟩, by decide +kernel⟩⟩
  obtain ⟨t', ht', hid, hmax⟩ := hceiling e he t ht
  exact ⟨st, e, t, t', he, ht, ht', hid, hmax, hexpires t' ht'⟩

end UbixVault
