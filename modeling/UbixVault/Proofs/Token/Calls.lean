/-
What each call on tokens leaves behind.

Creating writes one record, and for a child one index entry; renewing writes the
record again; reading writes nothing.  An identity engine may be asked in between,
and all that is known of it is that it keeps away from the keys of tokens, so
stores are compared on those keys only.
-/
import UbixVault.Proofs.Token.Index
import UbixVault.TokenMachine

namespace UbixVault

open Program

variable {policies : List String} {mountType name : String} {groups : List String}

/-! ### Stores that agree on tokens -/

/-- A key under which the token store writes. -/
def TokenKey (key : Key) : Prop := storePrefix <+: key ∨ childPrefix <+: key

/-- The two stores hold the same under every key of the token store. -/
def SameTokens (store store' : Store) : Prop :=
  ∀ key, TokenKey key → store'.lookup key = store.lookup key

/-- The identity engine writes under no key of the token store. -/
def Aliaser.Apart (resolveAlias : Aliaser) : Prop :=
  ∀ mountType name groups env w,
    SameTokens w.store ((resolveAlias mountType name groups).exec env w).2.store

namespace SameTokens

variable {store store₁ store' : Store}

theorem refl (store : Store) : SameTokens store store := fun _ _ => rfl

theorem of_eq (h : store' = store) : SameTokens store store' := h ▸ refl store

theorem trans (h : SameTokens store store₁) (h' : SameTokens store₁ store') :
    SameTokens store store' := fun key hkey => (h' key hkey).trans (h key hkey)

theorem insert (h : SameTokens store store') (key : Key) (value : Bytes) :
    SameTokens (store.insert key value) (store'.insert key value) := by
  intro key' hkey'
  by_cases heq : key' = key
  · rw [heq, Finmap.lookup_insert, Finmap.lookup_insert]
  · rw [Finmap.lookup_insert_of_ne _ heq, Finmap.lookup_insert_of_ne _ heq, h key' hkey']

theorem mem_iff (h : SameTokens store store') {key : Key} (hkey : TokenKey key) :
    key ∈ store' ↔ key ∈ store := by
  rw [← Finmap.lookup_isSome, ← Finmap.lookup_isSome, h key hkey]

end SameTokens

theorem ascii_generated (b : Bytes) : Ascii (displayPrefix ++ hexEncode b) := by
  intro x hx
  rcases List.mem_append.mp hx with h | h
  · exact (show Ascii displayPrefix by decide +kernel) x h
  · exact ascii_hexEncode b x h

theorem generated_ne_nil (b : Bytes) : displayPrefix ++ hexEncode b ≠ [] :=
  List.append_ne_nil_of_left_ne_nil (by decide_cbv) _

namespace TokenStore

variable {st : TokenStore} {env : Env} {w : World} {aliaser : Option Aliaser}

theorem tokenKey_storeKey (id : Bytes) : TokenKey (st.storeKey id) := .inl (storePrefix_storeKey id)

theorem tokenKey_indexKey (p c : Bytes) : TokenKey (st.indexKey p c) :=
  .inr (childPrefix_childKey _ _)

/-! ### Creating -/

/-- What creation makes of the expiry and the bound it is given. -/
structure Minted (st : TokenStore) (env : Env) (expiresAt bound : Time) (parentHash : Bytes)
    (t : Token) : Prop where
  id : ∃ n, t.id = displayPrefix ++ hexEncode (env.random n idBytes).val
  parent : t.parentHash = parentHash
  created : ∃ n, t.createdTime = env.clock n
  expires : t.expiresAt = clamp expiresAt bound expiresAt
  ceiling : t.maxExpiresAt = clamp expiresAt bound (st.ceilingAt expiresAt t.createdTime)

namespace Minted

variable {expiresAt bound : Time} {parentHash : Bytes} {t : Token}

theorem wf (h : st.Minted env expiresAt bound parentHash t) (hparent : Ascii parentHash) :
    t.WF := by
  obtain ⟨n, hid⟩ := h.id
  exact ⟨hid ▸ ascii_generated _, h.parent ▸ hparent⟩

theorem named (h : st.Minted env expiresAt bound parentHash t) : t.id ≠ [] := by
  obtain ⟨n, hid⟩ := h.id
  exact hid ▸ generated_ne_nil _

end Minted

theorem createWithEntityBounded_spec {expiresAt bound : Time}
    {entityID : String} {parentHash : Bytes} :
    Yields env.answer (st.createWithEntityBounded policies expiresAt entityID bound parentHash) w
      (fun t w' => st.Minted env expiresAt bound parentHash t ∧
        w'.store = w.store.insert (st.storeKey t.id) (st.json.marshal t))
      (fun _ w' => w'.store = w.store ∧ env.Faults) := by
  refine Yields.bind (generateID_spec.mono ?_ fun _ _ h => ⟨h.store, h.faulted.faults⟩)
  rintro id w₁ ⟨rfl, hs₁, -⟩
  refine Yields.bind (Act.now_spec.mono ?_ fun _ _ h => h.elim)
  rintro now w₂ ⟨rfl, rfl⟩
  refine Yields.bind (Act.yields_context ((Act.put_spec (st.validKey_storeKey _)).mono ?_ ?_))
  · rintro - w₃ ⟨hs₃, -, -⟩
    refine Yields.pure ⟨⟨⟨_, rfl⟩, rfl, ⟨_, rfl⟩, rfl, rfl⟩, ?_⟩
    rw [hs₃, World.next_store, hs₁]
  · rintro - w₃ ⟨rfl, hfault⟩
    exact ⟨hs₁, _, _, hfault⟩

/-- Never, or some time after the clock was read. -/
def Due (env : Env) (expiresAt : Time) : Prop :=
  expiresAt = 0 ∨ ∃ n ttl, 0 < ttl ∧ expiresAt = env.clock n + ttl

/-- One more record. -/
structure Issues (st : TokenStore) (env : Env) (expiresAt bound : Time) (store store' : Store)
    (t : Token) : Prop where
  minted : st.Minted env expiresAt bound [] t
  due : Due env expiresAt
  stored : SameTokens (store.insert (st.storeKey t.id) (st.json.marshal t)) store'

theorem createWithEntity_spec {expiresAt : Time} {entityID : String}
    (hdue : Due env expiresAt) {store : Store} (hs : SameTokens store w.store) :
    Yields env.answer (st.createWithEntity policies expiresAt entityID) w
      (fun t w' => st.Issues env expiresAt 0 store w'.store t)
      (fun _ w' => SameTokens store w'.store) := by
  refine createWithEntityBounded_spec.mono ?_ fun _ _ h => hs.trans (.of_eq h.1)
  rintro t w' ⟨hminted, hstore⟩
  exact ⟨hminted, hdue, (hs.insert _ _).trans (.of_eq hstore)⟩

theorem defaultTTL_pos : 0 < defaultTTL := by decide

theorem create_spec :
    Yields env.answer (st.create policies) w
      (fun t w' => ∃ expiresAt, st.Issues env expiresAt 0 w.store w'.store t)
      (fun _ w' => SameTokens w.store w'.store) := by
  refine Yields.bind (Act.now_spec.mono ?_ fun _ _ h => h.elim)
  rintro now w₁ ⟨rfl, rfl⟩
  exact (createWithEntity_spec (.inr ⟨_, _, defaultTTL_pos, rfl⟩) (.of_eq (World.next_store w))).mono
    (fun t w' h => ⟨_, h⟩) fun _ _ h => h

theorem createWithTTL_spec {ttl : Time} :
    Yields env.answer (st.createWithTTL policies ttl) w
      (fun t w' => ∃ expiresAt, st.Issues env expiresAt 0 w.store w'.store t)
      (fun _ w' => SameTokens w.store w'.store) := by
  unfold createWithTTL
  split_ifs with httl
  · refine Yields.bind (Act.now_spec.mono ?_ fun _ _ h => h.elim)
    rintro now w₁ ⟨rfl, rfl⟩
    exact (createWithEntity_spec (.inr ⟨_, _, httl, rfl⟩) (.of_eq (World.next_store w))).mono
      (fun t w' h => ⟨_, h⟩) fun _ _ h => h
  · exact (createWithEntity_spec (.inl rfl) (.refl _)).mono (fun t w' h => ⟨_, h⟩) fun _ _ h => h

theorem resolveEntity_spec (hapart : ∀ a ∈ aliaser, a.Apart) :
    Yields env.answer (resolveEntity aliaser mountType name groups) w
      (fun _ w' => SameTokens w.store w'.store) (fun _ w' => SameTokens w.store w'.store) := by
  unfold resolveEntity
  cases aliaser with
  | none => exact Yields.pure (.refl _)
  | some resolveAlias =>
    dsimp only
    split_ifs
    · exact Yields.pure (.refl _)
    · refine Act.yields_context ?_
      have h := hapart resolveAlias rfl mountType name groups env w
      unfold Yields
      unfold Act.exec at h
      rcases hrun : Program.exec env.answer (resolveAlias mountType name groups) w with ⟨r, w'⟩
      rw [hrun] at h
      cases r with
      | ok a => exact h
      | error e => exact h

theorem createAlias_spec (hapart : ∀ a ∈ aliaser, a.Apart)
    {expiresAt : Time} (hdue : Due env expiresAt) :
    Yields env.answer (st.createAlias aliaser policies expiresAt mountType name groups) w
      (fun t w' => ∃ expiresAt, st.Issues env expiresAt 0 w.store w'.store t)
      (fun _ w' => SameTokens w.store w'.store) := by
  refine Yields.bind ((resolveEntity_spec hapart).mono ?_ fun _ _ h => h)
  intro entityID w₁ hs₁
  exact (createWithEntity_spec hdue hs₁).mono (fun t w' h => ⟨_, h⟩) fun _ _ h => h

theorem createWithAlias_spec (hapart : ∀ a ∈ aliaser, a.Apart) :
    Yields env.answer (st.createWithAlias aliaser policies mountType name groups) w
      (fun t w' => ∃ expiresAt, st.Issues env expiresAt 0 w.store w'.store t)
      (fun _ w' => SameTokens w.store w'.store) := by
  refine Yields.bind (Act.now_spec.mono ?_ fun _ _ h => h.elim)
  rintro now w₁ ⟨rfl, rfl⟩
  exact createAlias_spec hapart (.inr ⟨_, _, defaultTTL_pos, rfl⟩)

theorem createWithTTLAndAlias_spec (hapart : ∀ a ∈ aliaser, a.Apart)
    {ttl : Time} :
    Yields env.answer (st.createWithTTLAndAlias aliaser policies ttl mountType name groups) w
      (fun t w' => ∃ expiresAt, st.Issues env expiresAt 0 w.store w'.store t)
      (fun _ w' => SameTokens w.store w'.store) := by
  unfold createWithTTLAndAlias
  split_ifs with httl
  · refine Yields.bind (Act.now_spec.mono ?_ fun _ _ h => h.elim)
    rintro now w₁ ⟨rfl, rfl⟩
    exact createAlias_spec hapart (.inr ⟨_, _, httl, rfl⟩)
  · exact createAlias_spec hapart (.inl rfl)

/-- The bound of a login is read off the clock before anything else happens. -/
theorem loginBound_spec {maxTTL : Time} :
    Yields env.answer (loginBound maxTTL) w
      (fun bound w' => bound = (if 0 < maxTTL then env.clock w.tick + maxTTL else 0) ∧
        w'.store = w.store)
      (fun _ _ => False) := by
  unfold loginBound
  split_ifs with hmax
  · exact Yields.bind (Act.now_spec.mono (by rintro now w₁ ⟨rfl, rfl⟩; exact ⟨rfl, rfl⟩)
      fun _ _ h => h.elim)
  · exact Yields.pure ⟨rfl, rfl⟩

theorem ttl_pos (ttl : Time) : 0 < (if ttl ≤ 0 then defaultTTL else ttl) := by
  split_ifs with h
  · exact defaultTTL_pos
  · exact lt_of_not_ge h

theorem createForLogin_spec (hapart : ∀ a ∈ aliaser, a.Apart)
    {ttl maxTTL : Time} :
    Yields env.answer (st.createForLogin aliaser policies ttl maxTTL mountType name groups) w
      (fun t w' => ∃ n, st.Issues env (env.clock n + if ttl ≤ 0 then defaultTTL else ttl)
        (if 0 < maxTTL then env.clock w.tick + maxTTL else 0) w.store w'.store t)
      (fun _ w' => SameTokens w.store w'.store) := by
  refine Yields.bind (loginBound_spec.mono ?_ fun _ _ h => h.elim)
  rintro bound w₁ ⟨rfl, hs₁⟩
  refine Yields.bind ((resolveEntity_spec hapart).mono ?_ fun _ _ h => hs₁ ▸ h)
  intro entityID w₂ hs₂
  refine Yields.bind (Act.now_spec.mono ?_ fun _ _ h => h.elim)
  rintro now w₃ ⟨rfl, rfl⟩
  rw [hs₁] at hs₂
  refine createWithEntityBounded_spec.mono ?_ fun _ _ h => hs₂.trans (.of_eq h.1)
  rintro t w' ⟨hminted, hstore⟩
  exact ⟨_, hminted, .inr ⟨_, _, ttl_pos ttl, rfl⟩, (hs₂.insert _ _).trans (.of_eq hstore)⟩

/-! ### Children -/

/-- The entry is written, or a call failed and the record is taken back if that can be done. -/
theorem indexChild_spec {p : Bytes} {t : Token} :
    Yields env.answer (st.indexChild (st.hashID p) t) w
      (fun _ w' => w'.store = w.store.insert (st.indexKey p t.id) (str "1"))
      (fun _ w' => env.Faults ∧
        (w'.store = w.store ∨ w'.store = w.store.erase (st.storeKey t.id))) := by
  -- The reply of the write decides how the program goes on.
  have hrun : ∀ r w₁, env.answer w (.put (st.indexKey p t.id) (str "1")) = (r, w₁) →
      Program.exec env.answer (st.indexChild (st.hashID p) t) w = match r with
        | .ok () => (.ok (), w₁)
        | .error e => (.error (.wrap "token: index child" e),
            (env.answer w₁ (.delete (st.storeKey t.id))).2) := by
    intro r w₁ hanswer
    have hput : (Act.put (childKey (st.hashID p) (st.hashID t.id)) (str "1")).run.run env.answer w
        = (r, w₁) := hanswer
    unfold Program.exec TokenStore.indexChild
    rw [ExceptT.run_mk, run_bind, hput]
    rcases r with e | ⟨⟩
    · rfl
    · rfl
  unfold Yields
  cases hf : env.fails w.tick (.put (st.indexKey p t.id) (str "1")) with
  | false =>
    rw [hrun _ _ (Env.answer_put hf (st.validKey_indexKey p t.id))]
    rfl
  | true =>
    have hfail : env.answer w (.put (st.indexKey p t.id) (str "1")) = (.error .outside, w.next) :=
      Env.guarded_fail hf
    rw [hrun _ _ hfail]
    refine ⟨⟨_, _, hf⟩, ?_⟩
    exact (Env.answer_delete_store (st.storeKey t.id)).symm

/-- A child is stored and indexed; if the entry cannot be written, its record may stay behind. -/
theorem createChild_spec {parent : Token} {ttl : Time} :
    Yields env.answer (st.createChild parent policies ttl) w
      (fun t w' => ∃ n, st.Minted env (env.clock n + if ttl ≤ 0 then defaultTTL else ttl)
        (st.maxExpiry parent) (st.hashID parent.id) t ∧
        w'.store = (w.store.insert (st.storeKey t.id) (st.json.marshal t)).insert
          (st.indexKey parent.id t.id) (str "1"))
      (fun _ w' => env.Faults ∧ (w'.store = w.store ∨
        ∃ n t, st.Minted env (env.clock n + if ttl ≤ 0 then defaultTTL else ttl)
          (st.maxExpiry parent) (st.hashID parent.id) t ∧
          (w'.store = w.store.insert (st.storeKey t.id) (st.json.marshal t) ∨
            w'.store = (w.store.insert (st.storeKey t.id) (st.json.marshal t)).erase
              (st.storeKey t.id)))) := by
  refine Yields.bind (Act.now_spec.mono ?_ fun _ _ h => h.elim)
  rintro now w₁ ⟨rfl, rfl⟩
  refine Yields.bind (createWithEntityBounded_spec.mono ?_ fun _ _ h => ⟨h.2, .inl h.1⟩)
  rintro t w₂ ⟨hminted, hs₂⟩
  rw [World.next_store] at hs₂
  refine Yields.bind (indexChild_spec.mono ?_ ?_)
  · intro _ w₃ hs₃
    exact Yields.pure ⟨_, hminted, by rw [hs₃, hs₂]⟩
  · rintro - w₃ ⟨hfault, hs₃⟩
    refine ⟨hfault, .inr ⟨_, t, hminted, ?_⟩⟩
    rcases hs₃ with hs₃ | hs₃
    · exact .inl (hs₃.trans hs₂)
    · exact .inr (by rw [hs₃, hs₂])

/-! ### Reading and renewing -/

/-- A call failed, or the record is missing, unreadable or past its expiry. -/
def Refused (st : TokenStore) (env : Env) (store : Store) (id : Bytes) : Prop :=
  env.Faults ∨ ∀ blob t, store.lookup (st.storeKey id) = some blob →
    st.json.unmarshal blob = some t → ∃ n, t.expired (env.clock n) = true

theorem lookup_spec {id : Bytes} :
    Yields env.answer (st.lookup id) w
      (fun t w' => (∃ blob, w.store.lookup (st.storeKey id) = some blob ∧
        st.json.unmarshal blob = some t) ∧ w'.store = w.store)
      (fun _ w' => w'.store = w.store ∧ st.Refused env w.store id) := by
  refine Yields.bind (Act.yields_context ((Act.get_spec (st.validKey_storeKey id)).mono ?_
    fun _ _ h => ⟨h.store, .inl h.faulted.faults⟩))
  rintro entry w₁ ⟨rfl, hs₁, -⟩
  cases hentry : w.store.lookup (st.storeKey id) with
  | none =>
    refine Yields.throw ⟨hs₁, .inr fun blob t hblob => ?_⟩
    rw [hentry] at hblob
    cases hblob
  | some blob =>
    dsimp only
    cases hread : st.json.unmarshal blob with
    | none =>
      refine Yields.throw ⟨hs₁, .inr fun blob' t hblob hread' => ?_⟩
      rw [hentry, Option.some.injEq] at hblob
      rw [← hblob, hread] at hread'
      cases hread'
    | some t =>
      refine Yields.bind (Act.now_spec.mono ?_ fun _ _ h => h.elim)
      rintro now w₂ ⟨rfl, rfl⟩
      split_ifs with hexpired
      · refine Yields.throw ⟨hs₁, .inr fun blob' t' hblob hread' => ⟨w₁.tick, ?_⟩⟩
        rw [hentry, Option.some.injEq] at hblob
        rw [← hblob, hread, Option.some.injEq] at hread'
        rw [← hread']
        exact hexpired
      · exact Yields.pure ⟨⟨blob, rfl, hread⟩, hs₁⟩

theorem clip_le (a b : Time) : (if a > b then b else a) ≤ b := by
  split_ifs with h
  · exact le_refl b
  · exact le_of_not_gt h

theorem clip_cases (a b : Time) :
    (if a > b then b else a) = b ∨ (if a > b then b else a) = a := by
  split_ifs
  · exact .inl rfl
  · exact .inr rfl

/-- The token a renewal stores: it expires some time from now, or at its ceiling. -/
structure Renewed (st : TokenStore) (env : Env) (t t' : Token) : Prop where
  eq : ∃ expiresAt, t' = { t with maxExpiresAt := st.maxExpiry t, expiresAt }
  expires : t'.expiresAt ≤ st.maxExpiry t
  due : t'.expiresAt = st.maxExpiry t ∨ ∃ n ttl, 0 < ttl ∧ t'.expiresAt = env.clock n + ttl

theorem renew_spec {id : Bytes} {ttl : Time} :
    Yields env.answer (st.renew id ttl) w
      (fun t' w' => ∃ blob t, w.store.lookup (st.storeKey id) = some blob ∧
        st.json.unmarshal blob = some t ∧
        (t.expiresAt = 0 ∧ t' = t ∧ w'.store = w.store ∨
          t.expiresAt ≠ 0 ∧ st.Renewed env t t' ∧
            w'.store = w.store.insert (st.storeKey t.id) (st.json.marshal t')))
      (fun _ w' => w'.store = w.store ∧ st.Refused env w.store id) := by
  refine Yields.bind (lookup_spec.mono ?_ fun _ _ h => h)
  rintro t w₁ ⟨⟨blob, hblob, hread⟩, hs₁⟩
  by_cases hnever : t.expiresAt = 0
  · rw [if_pos hnever]
    exact Yields.pure ⟨blob, t, hblob, hread, .inl ⟨hnever, rfl, hs₁⟩⟩
  · rw [if_neg hnever]
    refine Yields.bind (Act.now_spec.mono ?_ fun _ _ h => h.elim)
    rintro now w₂ ⟨rfl, rfl⟩
    refine Yields.bind (Act.yields_context ((Act.put_spec (st.validKey_storeKey _)).mono ?_ ?_))
    · rintro - w₃ ⟨hs₃, -, -⟩
      refine Yields.pure ⟨blob, t, hblob, hread, .inr ⟨hnever, ⟨⟨_, rfl⟩, clip_le _ _, ?_⟩, ?_⟩⟩
      · exact (clip_cases _ _).imp_right fun h => ⟨_, _, ttl_pos ttl, h⟩
      · rw [hs₃, World.next_store, hs₁]
    · rintro - w₃ ⟨rfl, hfault⟩
      exact ⟨hs₁, .inl ⟨_, _, hfault⟩⟩

end TokenStore

/-! ### What an event can be -/

/-- The token is what a record of the store says. -/
def TokenStore.Holds (st : TokenStore) (store : Store) (t : Token) : Prop :=
  ∃ id blob, store.lookup (st.storeKey id) = some blob ∧ st.json.unmarshal blob = some t

/-- Everything one call can have done. -/
inductive TokenEvent.Outcome (e : TokenEvent) : Prop
  /-- Nothing changed; a token that was returned had been read. -/
  | kept (same : SameTokens e.before.world.store e.after.world.store)
      (childless : ∀ parent t, ¬ e.Bore parent t)
      (read : ∀ t, e.result = .ok (some t) →
        e.before.tokens.Holds e.before.world.store t ∧ ∀ maxTTL, ¬ e.Login maxTTL)
  | issued (t : Token) (expiresAt bound : Time) (result : e.result = .ok (some t))
      (issues : e.before.tokens.Issues e.action.env expiresAt bound e.before.world.store
        e.after.world.store t)
      (limit : TokenStore.Due e.action.env bound) (childless : ∀ parent t, ¬ e.Bore parent t)
      (login : ∀ maxTTL, e.Login maxTTL → 0 < maxTTL →
        (∃ n ttl, 0 < ttl ∧ expiresAt = e.action.env.clock n + ttl) ∧
          bound = e.action.env.clock e.before.world.tick + maxTTL)
  | bore (parent t : Token) (policies : List String) (ttl : Time) (n : Nat)
      (call : e.action.call = .createChild parent policies ttl) (result : e.result = .ok (some t))
      (minted : e.before.tokens.Minted e.action.env
        (e.action.env.clock n + if ttl ≤ 0 then defaultTTL else ttl)
        (e.before.tokens.maxExpiry parent) (e.before.tokens.hashID parent.id) t)
      (stored : e.after.world.store = (e.before.world.store.insert (e.before.tokens.storeKey t.id)
        (e.before.tokens.json.marshal t)).insert (e.before.tokens.indexKey parent.id t.id) (str "1"))
  /-- A child that could not be indexed; its record may have stayed. -/
  | stray (parent t : Token) (policies : List String) (ttl : Time) (n : Nat) (err : Err)
      (call : e.action.call = .createChild parent policies ttl) (result : e.result = .error err)
      (fault : e.action.env.Faults)
      (minted : e.before.tokens.Minted e.action.env
        (e.action.env.clock n + if ttl ≤ 0 then defaultTTL else ttl)
        (e.before.tokens.maxExpiry parent) (e.before.tokens.hashID parent.id) t)
      (stored : e.after.world.store = e.before.world.store.insert (e.before.tokens.storeKey t.id)
          (e.before.tokens.json.marshal t) ∨
        e.after.world.store = (e.before.world.store.insert (e.before.tokens.storeKey t.id)
          (e.before.tokens.json.marshal t)).erase (e.before.tokens.storeKey t.id))
  | renewed (id blob : Bytes) (t t' : Token)
      (record : e.before.world.store.lookup (e.before.tokens.storeKey id) = some blob)
      (read : e.before.tokens.json.unmarshal blob = some t) (expiring : t.expiresAt ≠ 0)
      (renews : e.before.tokens.Renewed e.action.env t t')
      (result : e.result = .ok (some t'))
      (stored : e.after.world.store = e.before.world.store.insert (e.before.tokens.storeKey t.id)
        (e.before.tokens.json.marshal t'))
      (childless : ∀ parent t, ¬ e.Bore parent t) (noLogin : ∀ maxTTL, ¬ e.Login maxTTL)

namespace TokenState

variable {aliaser : Option Aliaser} {s : TokenState} {a : TokenAction}

/-- An event is what its call yields. -/
theorem step_of_yields {P : TokenEvent → Prop} {x : Act Token} {ok : Token → World → Prop}
    {err : Err → World → Prop} (hperform : a.call.perform s.tokens aliaser = some <$> x)
    (hx : Yields a.env.answer x s.world ok err)
    (hok : ∀ t w', ok t w' → P ⟨s, a, .ok (some t), ⟨a.call.configure s.tokens, w'⟩⟩)
    (herr : ∀ e w', err e w' → P ⟨s, a, .error e, ⟨a.call.configure s.tokens, w'⟩⟩) :
    P (s.step aliaser a) := by
  have hmap : Yields a.env.answer (some <$> x) s.world
      (fun r w' => P ⟨s, a, .ok r, ⟨a.call.configure s.tokens, w'⟩⟩)
      (fun e w' => P ⟨s, a, .error e, ⟨a.call.configure s.tokens, w'⟩⟩) :=
    Yields.map (hx.mono hok herr)
  unfold Yields at hmap
  unfold step
  rw [hperform]
  unfold Act.exec
  rcases hrun : Program.exec a.env.answer (some <$> x) s.world with ⟨r, w'⟩
  rw [hrun] at hmap
  cases r with
  | ok t => exact hmap
  | error e => exact hmap

/-- A call that failed before it changed anything. -/
theorem outcome_error {e : Err} {w' : World} (hs : SameTokens s.world.store w'.store) :
    TokenEvent.Outcome ⟨s, a, .error e, ⟨a.call.configure s.tokens, w'⟩⟩ :=
  .kept hs (fun _ _ h => nomatch h.2) fun _ h => nomatch h

theorem outcome_issued {t : Token} {w' : World} {expiresAt : Time}
    (hissues : s.tokens.Issues a.env expiresAt 0 s.world.store w'.store t)
    (hchild : ∀ parent policies ttl, a.call ≠ .createChild parent policies ttl)
    (hlogin : ∀ policies ttl maxTTL mountType name groups,
      a.call ≠ .createForLogin policies ttl maxTTL mountType name groups) :
    TokenEvent.Outcome ⟨s, a, .ok (some t), ⟨a.call.configure s.tokens, w'⟩⟩ :=
  .issued t expiresAt 0 rfl hissues (.inl rfl) (fun _ _ ⟨⟨_, _, h⟩, _⟩ => hchild _ _ _ h)
    fun _ ⟨_, _, _, _, _, h⟩ => absurd h (hlogin _ _ _ _ _ _)

theorem outcome_read {t : Token} {w' : World} (hholds : s.tokens.Holds s.world.store t)
    (hs : w'.store = s.world.store)
    (hchild : ∀ parent policies ttl, a.call ≠ .createChild parent policies ttl)
    (hlogin : ∀ policies ttl maxTTL mountType name groups,
      a.call ≠ .createForLogin policies ttl maxTTL mountType name groups) :
    TokenEvent.Outcome ⟨s, a, .ok (some t), ⟨a.call.configure s.tokens, w'⟩⟩ := by
  refine .kept (.of_eq hs) (fun _ _ ⟨⟨_, _, h⟩, _⟩ => hchild _ _ _ h) fun t' h => ?_
  cases h
  exact ⟨hholds, fun _ ⟨_, _, _, _, _, h⟩ => hlogin _ _ _ _ _ _ h⟩

/-- **What a call can have done**, whatever the outside did. -/
theorem step_outcome (hapart : ∀ a ∈ aliaser, a.Apart) : (s.step aliaser a).Outcome := by
  obtain ⟨env, call⟩ := a
  have hsame : ∀ (e : Err) (w' : World), SameTokens s.world.store w'.store →
      TokenEvent.Outcome ⟨s, ⟨env, call⟩, .error e, ⟨call.configure s.tokens, w'⟩⟩ :=
    fun e w' => outcome_error
  have hstore : ∀ (e : Err) (w' : World), w'.store = s.world.store →
      TokenEvent.Outcome ⟨s, ⟨env, call⟩, .error e, ⟨call.configure s.tokens, w'⟩⟩ :=
    fun e w' h => outcome_error (.of_eq h)
  cases call with
  | createRoot =>
    refine step_of_yields rfl (TokenStore.createWithEntity_spec (.inl rfl) (.refl _)) ?_ hsame
    exact fun t w' h => outcome_issued h (by simp) (by simp)
  | create policies =>
    refine step_of_yields rfl TokenStore.create_spec ?_ hsame
    exact fun t w' ⟨_, h⟩ => outcome_issued h (by simp) (by simp)
  | createWithTTL policies ttl =>
    refine step_of_yields rfl TokenStore.createWithTTL_spec ?_ hsame
    exact fun t w' ⟨_, h⟩ => outcome_issued h (by simp) (by simp)
  | createWithAlias policies mountType name groups =>
    refine step_of_yields rfl (TokenStore.createWithAlias_spec hapart) ?_ hsame
    exact fun t w' ⟨_, h⟩ => outcome_issued h (by simp) (by simp)
  | createWithTTLAndAlias policies ttl mountType name groups =>
    refine step_of_yields rfl (TokenStore.createWithTTLAndAlias_spec hapart) ?_ hsame
    exact fun t w' ⟨_, h⟩ => outcome_issued h (by simp) (by simp)
  | createForLogin policies ttl maxTTL mountType name groups =>
    refine step_of_yields rfl (TokenStore.createForLogin_spec hapart) ?_ hsame
    rintro t w' ⟨n, hissues⟩
    have hlimit : TokenStore.Due env (if 0 < maxTTL then env.clock s.world.tick + maxTTL else 0) := by
      split_ifs with hmax
      · exact .inr ⟨_, maxTTL, hmax, rfl⟩
      · exact .inl rfl
    refine .issued t _ _ rfl hissues hlimit (fun _ _ ⟨⟨_, _, h⟩, _⟩ => nomatch h) ?_
    rintro _ ⟨_, _, _, _, _, hcall⟩ hmax
    cases hcall
    exact ⟨⟨n, _, TokenStore.ttl_pos ttl, rfl⟩, if_pos hmax⟩
  | createChild parent policies ttl =>
    refine step_of_yields rfl TokenStore.createChild_spec ?_ ?_
    · rintro t w' ⟨n, hminted, hs⟩
      exact .bore parent t policies ttl n rfl rfl hminted hs
    · rintro e w' ⟨hfault, hs | ⟨n, t, hminted, hs⟩⟩
      · exact hstore e w' hs
      · exact .stray parent t policies ttl n e rfl rfl hfault hminted hs
  | renew id ttl =>
    refine step_of_yields rfl TokenStore.renew_spec ?_ fun e w' h => hstore e w' h.1
    rintro t' w' ⟨blob, t, hblob, hread, ⟨-, rfl, hs⟩ | ⟨hexp, hrenewed, hs⟩⟩
    · exact outcome_read ⟨id, blob, hblob, hread⟩ hs (by simp) (by simp)
    · exact .renewed id blob t t' hblob hread hexp hrenewed rfl hs
        (fun _ _ ⟨⟨_, _, h⟩, _⟩ => nomatch h) fun _ ⟨_, _, _, _, _, h⟩ => nomatch h
  | lookup id =>
    refine step_of_yields rfl TokenStore.lookup_spec ?_ fun e w' h => hstore e w' h.1
    rintro t w' ⟨⟨blob, hblob, hread⟩, hs⟩
    exact outcome_read ⟨id, blob, hblob, hread⟩ hs (by simp) (by simp)
  | setMaxTTL d =>
    exact .kept (.refl _) (fun _ _ ⟨⟨_, _, h⟩, _⟩ => nomatch h) fun _ h => nomatch h

end TokenState

end UbixVault
