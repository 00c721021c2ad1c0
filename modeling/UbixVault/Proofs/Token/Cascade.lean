/-
Revoking a token revokes all it bore.

A revocation that runs alone is the simplest race.  No call comes late, so its walk
leaves the whole tree below the token dead, and since it writes nothing and deletes
only what it reached, all other records stay.  The walk goes no deeper than
`maxTreeDepth`, and nothing stops a chain of children from growing longer than that:
such a token cannot be revoked at all.
-/
import UbixVault.Proofs.Token.Race

namespace UbixVault

open Program

/-! ### A revocation that runs alone -/

/-- The revocation of a token in a store that nobody else changes. -/
def Cascade.alone (st : TokenStore) (store : Store) (id : Bytes) (cleans : Bool) : Cascade :=
  ⟨st, store, id, fun call => ∀ k v, call ≠ .put k v, cleans⟩

namespace Cascade

variable {st : TokenStore} {store : Store} {id : Bytes} {cleans : Bool}

theorem link_alone {p c : Bytes} :
    (alone st store id cleans).Link p c ↔ st.indexKey p c ∈ store := by
  refine ⟨fun h => h.resolve_right ?_, .inl⟩
  rintro ⟨v, hv⟩
  exact hv _ v rfl

theorem allowed_alone {s : World × List Call} {call : Call}
    (h : (alone st store id cleans).Revokes s call) : (alone st store id cleans).Allowed s call :=
  ⟨h.2, fun _ v hv => absurd hv (h.2 _ v), fun _ _ v hv => absurd hv (h.2 _ v)⟩

end Cascade

/--
**Complete cascade**: after any run of token calls in which nothing failed, revoking a
token whose descendants are at most `maxTreeDepth` levels below it returns without an
error; no record of the token or a descendant is left, each was deleted after the
callback for it, and every other record is as it was.
-/
theorem revokeTree_cascades (st : TokenStore) (aliaser : Option Aliaser)
    (hapart : ∀ a ∈ aliaser, a.Apart) (tick : Nat) (actions : List TokenAction)
    (hworks : ∀ a ∈ actions, a.env.Works) (env : Env) (henv : env.Works) (id : Bytes)
    (cleans : Bool)
    (hdepth : ∀ n c, Levels (Bears (TokenState.events aliaser ⟨st, ⟨∅, tick⟩⟩ actions)) n id c →
      n ≤ TokenStore.maxTreeDepth) :
    let es := TokenState.events aliaser ⟨st, ⟨∅, tick⟩⟩ actions
    let s := TokenState.after aliaser ⟨st, ⟨∅, tick⟩⟩ actions
    let revocation := s.tokens.revokeAll id (callbackIf cleans)
    let result := revocation.run env.answer s.world
    let calls := revocation.trace env.answer s.world
    result.1.1 = .ok () ∧
    (∀ c, Relation.ReflTransGen (Bears es) id c →
      s.tokens.storeKey c ∉ result.2.store ∧
      (s.tokens.storeKey c ∈ s.world.store → ∃ earlier later,
        calls = earlier ++ .delete (s.tokens.storeKey c) :: later ∧
        .delete (s.tokens.storeKey c) ∉ earlier ∧ (cleans = true → .cleanup c ∈ earlier))) ∧
    ∀ c, ¬ Relation.ReflTransGen (Bears es) id c →
      result.2.store.lookup (s.tokens.storeKey c) = s.world.store.lookup (s.tokens.storeKey c) := by
  intro es s revocation result calls
  have hgrown : Grown es s := Grown.run hapart st tick hworks
  let R : Cascade := .alone s.tokens s.world.store id cleans
  have hlink : R.Link = Bears es := by
    funext p c
    exact propext (Cascade.link_alone.trans (hgrown.children p c))
  have hwithin : R.Within (TokenStore.maxTreeDepth + 1) R.root :=
    Cascade.within_of_levels fun n c hn => Nat.lt_succ_of_le (hdepth n c (hlink ▸ hn))
  -- The walk of the revocation, with a journal.
  have hwalk := Cascade.walks_revokeTree henv _ R.root (s.world, []) 0 hwithin .refl (.inl rfl)
  obtain ⟨hinv, hpost⟩ := Safe.run (fun _ _ h => ⟨h.1, Cascade.allowed_alone h⟩)
    (Cascade.Inv.start rfl hgrown.forest) hwalk
  have hrun : Program.run (journal env.answer) revocation (s.world, []) =
      (result.1, (result.2, calls)) := run_journal _ _ _ _
  rw [show (R.tokens.revokeTree (callbackIf R.cleans) (TokenStore.maxTreeDepth + 1) R.root
    (R.tokens.hashID R.root)).run.run 0 = revocation from rfl, hrun] at hinv hpost
  rcases hresult : result.1 with ⟨e | ⟨⟩, n⟩
  · rw [hresult] at hpost
    exact hpost.elim
  rw [hresult] at hpost
  have hdead : ∀ c, Relation.ReflTransGen (Bears es) id c → R.Dead calls c := by
    intro c hc
    have hedges : Bears es ≤ R.Edge calls := fun p c hbears => .inl ((hgrown.children p c).mpr hbears)
    exact hpost.descendant (Relation.ReflTransGen.mono hedges _ _ hc)
  refine ⟨rfl, fun c hc => ⟨hinv.absent c (hdead c hc).gone, fun hmem => ?_⟩, fun c hc => ?_⟩
  · have hdeleted : R.Deleted calls c :=
      (hinv.live c (.inl hmem)).resolve_left (hinv.absent c (hdead c hc).gone)
    obtain ⟨earlier, later, hcalls, hfirst⟩ := List.eq_append_cons_of_mem hdeleted
    exact ⟨earlier, later, hcalls, hfirst, fun hcleans =>
      hinv.cleaned hcleans earlier _ later hcalls c rfl⟩
  · refine hinv.frame c (fun hdeleted => hc ?_) fun v hput => hinv.only _ hput _ v rfl
    rw [← hlink]
    exact hinv.reached c hdeleted

/-! ### Chains of children -/

theorem constantID_injOn {i j : Nat} (hi : i < 256) (hj : j < 256)
    (h : constantID i = constantID j) : i = j := by
  have hbytes := hexEncode_injective (List.append_cancel_left h)
  have hbyte : BitVec.ofNat 8 i = BitVec.ofNat 8 j :=
    (List.replicate_right_inj (by decide)).mp hbytes
  have hnat := congrArg BitVec.toNat hbyte
  rw [BitVec.toNat_ofNat, BitVec.toNat_ofNat] at hnat
  omega

theorem works_constant (b : Byte) : (Env.constant b).Works := fun _ _ => rfl

theorem random_constant (b : Byte) (n k : Nat) :
    ((Env.constant b).random n k).val = List.replicate k b := by
  show (List.range k).map (fun _ => b) = _
  rw [List.map_const', List.length_range]

theorem TokenStore.Minted.id_constant {st : TokenStore} {i : Nat} {expiresAt bound : Time}
    {parentHash : Bytes} {t : Token}
    (h : st.Minted (.constant (BitVec.ofNat 8 i)) expiresAt bound parentHash t) :
    t.id = constantID i := by
  obtain ⟨n, hid⟩ := h.id
  rw [hid, random_constant]
  rfl

/-- A history that is one chain of `n` children, the last of which is `t`. -/
structure Chained (n : Nat) (es : List TokenEvent) (s : TokenState) (t : Token) : Prop where
  last : t.id = constantID n
  bears : ∀ p c, Bears es p c ↔ ∃ i < n, p = constantID i ∧ c = constantID (i + 1)
  stored : ∀ i ≤ n, s.tokens.storeKey (constantID i) ∈ s.world.store

/-- One more child, of the last one. -/
theorem Chained.step {n : Nat} {es : List TokenEvent} {s : TokenState} {t : Token}
    (h : Chained n es s t) : ∃ a t', a.env.Works ∧
      Chained (n + 1) (es ++ [s.step none a]) (s.step none a).after t' := by
  let a : TokenAction := ⟨.constant (BitVec.ofNat 8 (n + 1)), .createChild t [] 0⟩
  have hspec : Yields a.env.answer (s.tokens.createChild t [] 0) s.world _ (fun _ _ => False) :=
    TokenStore.createChild_spec.mono (fun _ _ h => h)
      fun _ _ h => absurd h.1 (works_constant _).not_faults
  refine ⟨a, ?_⟩
  refine TokenState.step_of_yields (P := fun e => ∃ t', a.env.Works ∧
    Chained (n + 1) (es ++ [e]) e.after t') rfl hspec ?_ fun _ _ h => h.elim
  rintro t' w' ⟨_, hminted, hs⟩
  refine ⟨t', works_constant _, hminted.id_constant, fun p c => ?_, fun i hi => ?_⟩
  · rw [bears_append, h.bears]
    constructor
    · rintro (⟨i, hi, hpc⟩ | ⟨parent, t'', ⟨⟨_, _, hcall⟩, hresult⟩, rfl, rfl⟩)
      · exact ⟨i, Nat.lt_succ_of_lt hi, hpc⟩
      · cases hcall
        cases hresult
        exact ⟨n, Nat.lt_succ_self n, h.last, hminted.id_constant⟩
    · rintro ⟨i, hi, rfl, rfl⟩
      rcases Nat.lt_succ_iff_lt_or_eq.mp hi with hi | rfl
      · exact .inl ⟨i, hi, rfl, rfl⟩
      · exact .inr ⟨t, t', ⟨⟨[], 0, rfl⟩, rfl⟩, h.last, hminted.id_constant⟩
  · show s.tokens.storeKey (constantID i) ∈ w'.store
    rw [hs, Finmap.mem_insert, Finmap.mem_insert, hminted.id_constant]
    rcases Nat.le_succ_iff.mp hi with hi | rfl
    · exact .inr (.inr (h.stored i hi))
    · exact .inr (.inl rfl)

/-- Chains of any length can be grown. -/
theorem exists_chained (st : TokenStore) : ∀ n, ∃ actions t,
    (∀ a ∈ actions, a.env.Works) ∧
      Chained n (TokenState.events none ⟨st, ⟨∅, 0⟩⟩ actions)
        (TokenState.after none ⟨st, ⟨∅, 0⟩⟩ actions) t := by
  intro n
  induction n with
  | zero =>
    let a : TokenAction := ⟨.constant (BitVec.ofNat 8 0), .createRoot⟩
    let s : TokenState := ⟨st, ⟨∅, 0⟩⟩
    have hspec : Yields a.env.answer st.createRoot s.world _ (fun _ _ => False) :=
      TokenStore.createWithEntityBounded_spec.mono (fun _ _ h => h)
        fun _ _ h => absurd h.2 (works_constant _).not_faults
    have hstep : ∃ t, Chained 0 [s.step none a] (s.step none a).after t := by
      refine TokenState.step_of_yields (P := fun e => ∃ t, Chained 0 [e] e.after t) rfl hspec ?_
        fun _ _ h => h.elim
      rintro t w' ⟨hminted, hs⟩
      refine ⟨t, hminted.id_constant, fun p c => ⟨?_, ?_⟩, fun i hi => ?_⟩
      · rintro ⟨e, he, parent, t', ⟨⟨_, _, hcall⟩, -⟩, -⟩
        rw [List.mem_singleton.mp he] at hcall
        cases hcall
      · rintro ⟨i, hi, -⟩
        exact absurd hi (Nat.not_lt_zero i)
      · show st.storeKey (constantID i) ∈ w'.store
        rw [hs, Finmap.mem_insert, hminted.id_constant, Nat.le_zero.mp hi]
        exact .inl rfl
    obtain ⟨t, ht⟩ := hstep
    refine ⟨[a], t, ?_, ht⟩
    rintro a' ha'
    rw [List.mem_singleton.mp ha']
    exact works_constant _
  | succ n ih =>
    obtain ⟨actions, t, hworks, hchained⟩ := ih
    obtain ⟨a, t', ha, hnext⟩ := hchained.step
    refine ⟨actions ++ [a], t', ?_, ?_⟩
    · intro a' ha'
      rcases List.mem_append.mp ha' with h | h
      · exact hworks a' h
      · rw [List.mem_singleton.mp h]
        exact ha
    · unfold TokenState.events TokenState.after
      rw [Run.history_append, Run.final_append]
      exact hnext

/-- A walk along a chain longer than the levels it has left fails before it deletes anything. -/
theorem revokeTree_chain {st : TokenStore} {store : Store} {n : Nat} (hforest : st.Forest store)
    (hlist : ∀ i < n, store.list (st.indexPrefix (constantID i)) = [st.hashID (constantID (i + 1))])
    (hstored : ∀ i ≤ n, st.storeKey (constantID i) ∈ store) (env : Env)
    (cleanup : Option (Bytes → Act Unit)) :
    ∀ (fuel i k : Nat) (w : World), i + fuel = n → w.store = store →
      YieldsState env.answer
        (st.revokeTree cleanup fuel (constantID i) (st.hashID (constantID i))) k w
        (fun _ _ _ => False) (fun _ _ w' => w'.store = store) := by
  intro fuel
  induction fuel with
  | zero => exact fun i k w _ hw => hw
  | succ fuel ih =>
    intro i k w hi hw
    unfold TokenStore.revokeTree
    refine YieldsState.bind (YieldsState.stateless (Act.yields_context ((Act.list_spec
      (st.validPrefix_indexPrefix _)).mono ?_ fun _ _ h => h.store.trans hw)))
    rintro children w₁ ⟨rfl, hs₁, -⟩
    rw [hw, hlist i (by omega)]
    refine YieldsState.bind (YieldsState.bind (YieldsState.stateless (Act.yields_context
      ((Act.get_spec (st.validKey_storeKey _)).mono ?_ fun _ _ h => ?_))))
    · rintro entry w₂ ⟨rfl, hs₂, -⟩
      have hrecord : (w₁.store.lookup (st.storeKey (constantID (i + 1)))).isSome := by
        rw [Finmap.lookup_isSome, hs₁, hw]
        exact hstored (i + 1) (by omega)
      obtain ⟨blob, hblob⟩ := Option.isSome_iff_exists.mp hrecord
      have hs : w₁.store = store := hs₁.trans hw
      obtain ⟨t, rfl, hwf, hid, hne⟩ := hforest.records _ blob (hs ▸ hblob)
      have hstore : st.revokeStored (st.revokeTree cleanup fuel) (st.hashID (constantID (i + 1)))
          (w₁.store.lookup (st.storeKey (constantID (i + 1))))
            = st.revokeTree cleanup fuel (constantID (i + 1)) (st.hashID (constantID (i + 1))) := by
        rw [hblob]
        unfold TokenStore.revokeStored
        simp only [Option.bind_some, st.json.unmarshal_marshal t hwf, hid, ne_eq, hne,
          not_false_eq_true, if_true]
      refine YieldsState.bind ?_
      show YieldsState env.answer (st.revokeStored (st.revokeTree cleanup fuel)
        (st.hashID (constantID (i + 1))) (w₁.store.lookup (st.storeKey (constantID (i + 1)))))
          k w₂ _ _
      rw [hstore]
      exact (ih (i + 1) k w₂ (by omega) (hs₂.trans hs)).mono (fun _ _ _ h => h.elim)
        fun _ _ _ h => h
    · exact h.store.trans (hs₁.trans hw)

/-- In a chain the index of a token lists the next one. -/
theorem Chained.list {n : Nat} {es : List TokenEvent} {s : TokenState} {t : Token}
    (h : Chained n es s t) (hgrown : Grown es s) (hn : n < 256) {i : Nat} (hi : i < n) :
    s.world.store.list (s.tokens.indexPrefix (constantID i))
      = [s.tokens.hashID (constantID (i + 1))] := by
  refine List.perm_singleton.mp ((List.perm_ext_iff_of_nodup (Store.nodup_list _ _)
    (List.nodup_singleton _)).mpr fun name => ?_)
  rw [TokenStore.mem_list_indexPrefix hgrown.forest.indexed, List.mem_singleton]
  constructor
  · rintro ⟨c, rfl, hkey⟩
    obtain ⟨j, hj, hij, rfl⟩ := (h.bears _ c).mp ((hgrown.children _ c).mp hkey)
    rw [constantID_injOn (by omega) (by omega) hij]
  · rintro rfl
    exact ⟨_, rfl, (hgrown.children _ _).mpr ((h.bears _ _).mpr ⟨i, hi, rfl, rfl⟩)⟩

/-- A chain one level too long: revoking its first token fails. -/
theorem revokeTree_fails_on_long_chain : ∃ (st : TokenStore) (actions : List TokenAction)
    (env : Env) (id : Bytes), (∀ a ∈ actions, a.env.Works) ∧ env.Works ∧
      ∃ err, (((TokenState.after none ⟨st, ⟨∅, 0⟩⟩ actions).tokens.revokeAll id none).run env.answer
        (TokenState.after none ⟨st, ⟨∅, 0⟩⟩ actions).world).1.1 = .error err := by
  let st := Platform.transparent.tokens
  obtain ⟨actions, t, hworks, hchained⟩ := exists_chained st (TokenStore.maxTreeDepth + 1)
  have hgrown : Grown (TokenState.events none ⟨st, ⟨∅, 0⟩⟩ actions)
      (TokenState.after none ⟨st, ⟨∅, 0⟩⟩ actions) :=
    Grown.run (fun _ h => by cases h) st 0 hworks
  refine ⟨st, actions, .faultless, constantID 0, hworks, works_faultless, ?_⟩
  have hfails := revokeTree_chain hgrown.forest
    (fun i hi => hchained.list hgrown (by decide) hi) hchained.stored .faultless none
    (TokenStore.maxTreeDepth + 1) 0 0 _ (by omega) rfl
  unfold YieldsState execState at hfails
  unfold TokenStore.revokeAll
  rcases hrun : Program.run Env.faultless.answer _ _ with ⟨⟨e | a, k⟩, w'⟩
  · exact ⟨e, rfl⟩
  · rw [hrun] at hfails
    exact hfails.elim

/-- A root token and one child. -/
theorem revokeTree_cascades_one_child : ∃ (st : TokenStore) (actions : List TokenAction),
    let s := TokenState.after none ⟨st, ⟨∅, 0⟩⟩ actions
    let result := (s.tokens.revokeAll (constantID 0) (callbackIf true)).run
      Env.faultless.answer s.world
    s.tokens.storeKey (constantID 0) ∈ s.world.store ∧
    s.tokens.storeKey (constantID 1) ∈ s.world.store ∧
    result.1.1 = .ok () ∧
    s.tokens.storeKey (constantID 0) ∉ result.2.store ∧
    s.tokens.storeKey (constantID 1) ∉ result.2.store := by
  obtain ⟨actions, t, hworks, hchained⟩ := exists_chained Platform.transparent.tokens 1
  have hdepth : ∀ n c, Levels (Bears (TokenState.events none ⟨Platform.transparent.tokens, ⟨∅, 0⟩⟩
      actions)) n (constantID 0) c → n ≤ TokenStore.maxTreeDepth := by
    rintro (_ | _ | n) c hn
    · exact Nat.zero_le _
    · decide
    · obtain ⟨c₁, h₁, c₂, h₂, -⟩ := hn
      obtain ⟨i, hi, -, rfl⟩ := (hchained.bears _ _).mp h₁
      obtain ⟨j, hj, hij, -⟩ := (hchained.bears _ _).mp h₂
      have := constantID_injOn (by omega) (by omega) hij
      omega
  obtain ⟨hok, hgone, -⟩ := revokeTree_cascades Platform.transparent.tokens none
    (fun _ h => nomatch h) 0 actions hworks .faultless works_faultless (constantID 0) true hdepth
  refine ⟨Platform.transparent.tokens, actions, hchained.stored 0 (by omega),
    hchained.stored 1 (by omega), hok, (hgone _ .refl).1, (hgone _ ?_).1⟩
  exact .single ((hchained.bears _ _).mpr ⟨0, by omega, rfl, rfl⟩)

end UbixVault
