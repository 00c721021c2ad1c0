/-
A revocation and the calls that race with it.

The token store has no lock: a renewal reads a record and writes it back, and a
child's record and index entry are two writes.  A revocation may run between the
two, and what it deleted is then written again, or what it listed gets one entry
more.  When no write comes that late, a revocation is final in every schedule.
-/
import UbixVault.Proofs.Platform
import UbixVault.Proofs.Token.Forest
import UbixVault.Proofs.Token.Walk

namespace UbixVault

open Program

namespace Cascade

variable {R : Cascade} {env : Env} (hworks : env.Works) {s : World × List Call} {id : Bytes}
  {w : World}

variable {t : Token} {allowed : World × List Call → Call → Prop}

/-- Before the first call, the invariant says that the store is a forest. -/
theorem Inv.start (hstart : R.start = w.store) (hforest : R.tokens.Forest w.store) :
    R.Inv (w, []) := by
  have hedge : ∀ {p c}, R.Edge [] p c ↔ R.tokens.indexKey p c ∈ w.store := by
    intro p c
    simp [Edge, hstart]
  have hdeleted : ∀ {id}, ¬ R.Deleted [] id := List.not_mem_nil
  constructor <;> dsimp only
  case only => exact fun call hcall => absurd hcall List.not_mem_nil
  case records => exact hforest.records
  case indexed => exact hforest.indexed
  case entries => exact fun p c => hedge.mpr
  case edges => exact fun p c hc => .inl (hedge.mp hc)
  case known => exact fun p c hc => .inl (hstart ▸ hforest.known p c (hedge.mp hc))
  case live =>
    rintro id (hid | ⟨v, hv⟩)
    · exact .inl (hstart ▸ hid)
    · exact absurd hv List.not_mem_nil
  case absent =>
    rintro id (hid | ⟨-, hid⟩)
    · exact absurd hid hdeleted
    · rwa [hstart] at hid
  case dead => exact fun id hid => absurd hid hdeleted
  case reached => exact fun id hid => absurd hid hdeleted
  case cleaned => exact fun _ => Run.throughout_nil
  case frame => exact fun id _ _ => by rw [hstart]

/-! ### The calls that race -/

/-- A call that races keeps the discipline, whatever it returns. -/
abbrev Races {α : Type} (R : Cascade) (x : Act α) (s : World × List Call)
    (ok : α → World × List Call → Prop) : Prop :=
  SafeExcept (R.discipline hworks) R.Admitted x s ok fun _ _ => True

theorem Races.bind {α β : Type} {x : Act α} {f : α → Act β} {ok : β → World × List Call → Prop}
    (hx : R.Races hworks x s fun a s' => R.Races hworks (f a) s' ok) :
    R.Races hworks (x >>= f) s ok :=
  SafeExcept.bind (hx.mono (fun _ _ _ h => h) fun _ _ _ _ _ _ _ => trivial)

theorem races_randRead {n : Nat} {text : String}
    {ok : {b : Bytes // b.length = n} → World × List Call → Prop} (hok : ∀ b s', ok b s') :
    R.Races hworks ((Act.randRead n).context text) s ok := by
  refine SafeExcept.adapt (safe_perform hworks (fun _ _ _ => .reads (reads_randRead n)) ?_)
  intro at' now m
  rw [Env.answer_randRead (hworks _ _)]
  exact fun now' _ _ => hok _ now'

theorem races_now {ok : Time → World × List Call → Prop} (hok : ∀ time s', ok time s') :
    R.Races hworks Act.now s ok :=
  safe_now hworks (fun _ _ _ => .reads reads_now) fun _ now _ => hok _ now

theorem races_generateID :
    R.Races hworks generateID s fun id _ => Ascii id ∧ id ≠ [] :=
  Races.bind hworks (races_randRead hworks fun b _ =>
    SafeExcept.pure fun _ _ _ => ⟨ascii_generated b.val, generated_ne_nil b.val⟩)

theorem races_save (hwf : t.WF) (hne : t.id ≠ []) :
    R.Races hworks (R.tokens.save t) s fun _ s' => R.Issued s'.2 t.id := by
  refine safe_put hworks (R.tokens.validKey_storeKey t.id) (fun _ _ _ => .putRecord t hwf hne) ?_
  exact fun at' now m => .inr ⟨_, m.mem⟩

theorem races_lookup :
    R.Races hworks (R.tokens.lookup id) s fun t _ => t.WF ∧ t.id ≠ [] := by
  refine Races.bind hworks (safe_get hworks (R.tokens.validKey_storeKey id)
    (fun _ _ _ => .reads (reads_get _)) fun at' now m => ?_)
  cases hentry : at'.1.store.lookup (R.tokens.storeKey id) with
  | none => exact SafeExcept.throw fun _ _ _ => trivial
  | some blob =>
    obtain ⟨t, rfl, hwf, rfl, hne⟩ := m.inv.records id blob hentry
    dsimp only
    rw [R.tokens.json.unmarshal_marshal t hwf]
    refine Races.bind hworks (races_now hworks fun time s' => ?_)
    split_ifs
    · exact SafeExcept.throw fun _ _ _ => trivial
    · exact SafeExcept.pure fun _ _ _ => ⟨hwf, hne⟩

theorem races_renew {ttl : Time} : R.Races hworks (R.tokens.renew id ttl) s fun _ _ => True := by
  refine Races.bind hworks (SafeExcept.mono (races_lookup hworks) ?_ fun _ _ _ h => h)
  rintro t s' - ⟨hwf, hne⟩
  by_cases hnever : t.expiresAt = 0
  · rw [if_pos hnever]
    exact SafeExcept.pure fun _ _ _ => trivial
  · rw [if_neg hnever]
    refine Races.bind hworks (races_now hworks fun time s' => ?_)
    refine Races.bind hworks (SafeExcept.mono (races_save hworks ?_ ?_) ?_ fun _ _ _ h => h)
    · exact ⟨hwf.id, hwf.parentHash⟩
    · exact hne
    · exact fun _ _ _ _ => SafeExcept.pure fun _ _ _ => trivial

theorem races_createWithEntityBounded {policies : List String} {expiresAt bound : Time}
    {entityID : String} {parentHash : Bytes} (hparent : Ascii parentHash) :
    R.Races hworks
      (R.tokens.createWithEntityBounded policies expiresAt entityID bound parentHash) s
      fun t s' => R.Issued s'.2 t.id := by
  refine Races.bind hworks (SafeExcept.mono (races_generateID hworks) ?_ fun _ _ _ h => h)
  rintro id s₁ - ⟨hascii, hne⟩
  refine Races.bind hworks (races_now hworks fun time s₂ => ?_)
  refine Races.bind hworks (SafeExcept.mono (races_save hworks ⟨hascii, hparent⟩ hne) ?_
    fun _ _ _ h => h)
  intro _ s₃ _ hissued
  exact SafeExcept.pure fun s' hs _ => hs.issued hissued

theorem races_indexChild {p : Bytes} (hissued : R.Issued s.2 t.id) :
    R.Races hworks (R.tokens.indexChild (R.tokens.hashID p) t) s fun _ _ => True := by
  refine Safe.bind (safe_perform hworks (fun s' hs _ => .putIndex p t.id _ (hs.issued hissued)) ?_)
  intro at' now m
  have hput : (env.answer at'.1 (.put (childKey (R.tokens.hashID p) (R.tokens.hashID t.id))
      (str "1"))).1 = .ok () :=
    congrArg Prod.fst (Env.answer_put (hworks _ _) (R.tokens.validKey_indexKey p t.id))
  rw [hput]
  exact fun _ _ _ => trivial

theorem races_createChild {parent : Token} {policies : List String} {ttl : Time} :
    R.Races hworks (R.tokens.createChild parent policies ttl) s fun _ _ => True := by
  refine Races.bind hworks (races_now hworks fun time s₁ => ?_)
  refine Races.bind hworks (SafeExcept.mono (races_createWithEntityBounded hworks
    (R.tokens.ascii_hashID parent.id)) ?_ fun _ _ _ h => h)
  intro t s₂ _ hissued
  refine Races.bind hworks (SafeExcept.mono (races_indexChild hworks hissued) ?_ fun _ _ _ h => h)
  exact fun _ _ _ _ => SafeExcept.pure fun _ _ _ => trivial

theorem races_perform (call : RaceCall) :
    R.Races hworks (call.perform R.tokens) s fun _ _ => True := by
  cases call with
  | renew id ttl => exact races_renew hworks
  | createChild parent policies ttl => exact races_createChild hworks

end Cascade

/-! ### What a revocation promises in a race -/

/-- Along `n` links. -/
def Levels {α : Type} (r : α → α → Prop) : Nat → α → α → Prop
  | 0, a, b => a = b
  | n + 1, a, b => ∃ c, r a c ∧ Levels r n c b

theorem Cascade.within_of_levels {R : Cascade} : ∀ {n : Nat} {id : Bytes},
    (∀ m c, Levels R.Link m id c → m < n) → R.Within n id := by
  intro n
  induction n with
  | zero => exact fun h => absurd (h 0 _ rfl) (Nat.lt_irrefl 0)
  | succ n ih =>
    intro id h c hc
    exact ih fun m d hd => Nat.lt_of_succ_lt_succ (h (m + 1) d ⟨c, hc, hd⟩)

/-- The key that a call writes. -/
def Call.written : Call → Option Key
  | .put key _ => some key
  | _ => none

/-- The prefix that a call lists. -/
def Call.listed : Call → Option Key
  | .list pfx => some pfx
  | _ => none

namespace TokenStore

variable (st : TokenStore)

/-- `c` became a child of `p` before the race or in it. -/
def ChildOf (store : Store) (journal : List Call) (p c : Bytes) : Prop :=
  st.indexKey p c ∈ store ∨ ∃ v, .put (st.indexKey p c) v ∈ journal

/-- No record is written after it was deleted, and no index gets an entry after it was listed. -/
structure NoLateWrite (s : World × List Call) (call : Call) : Prop where
  record : ∀ id v, call = .put (st.storeKey id) v → .delete (st.storeKey id) ∉ s.2
  entry : ∀ p c v, call = .put (st.indexKey p c) v → .list (st.indexPrefix p) ∉ s.2

/-- What a call writes was neither deleted nor listed before. -/
def OnTime (s : World × List Call) (call : Call) : Prop :=
  ∀ key ∈ call.written, .delete key ∉ s.2 ∧ ∀ c ∈ s.2, ∀ pfx ∈ c.listed, ¬ pfx <+: key

instance decidableOnTime (s : World × List Call) (call : Call) : Decidable (OnTime s call) :=
  inferInstanceAs (Decidable (∀ key ∈ call.written, _ ∧ ∀ c ∈ s.2, ∀ pfx ∈ c.listed, _))

variable {st} in
theorem noLateWrite_of {s : World × List Call} {call : Call} (h : OnTime s call) :
    st.NoLateWrite s call where
  record id v hput := by
    subst hput
    exact (h _ rfl).1
  entry p c v hput hlisted := by
    subst hput
    exact (h _ rfl).2 _ hlisted _ rfl (List.prefix_append _ _)

end TokenStore

/-- The store accepts the token. -/
def TokenStore.Accepts (st : TokenStore) (store : Store) (id : Bytes) : Prop :=
  ∃ env tick t w, (st.lookup id).exec env ⟨store, tick⟩ = (.ok t, w)

theorem TokenStore.not_accepts_of_absent {st : TokenStore} {store : Store} {id : Bytes}
    (h : st.storeKey id ∉ store) : ¬ st.Accepts store id := by
  rintro ⟨env, tick, t, w, hrun⟩
  obtain ⟨⟨blob, hblob, -⟩, -⟩ := lookup_spec.of_ok hrun
  rw [← Finmap.lookup_isSome, hblob] at h
  exact h rfl

section Final

variable {ι : Type} {st : TokenStore} {env : Env} (hworks : env.Works) {w : World}
  {id : Bytes} {cleans : Bool} {calls : ι → RaceCall}

/-- The revocation of a race, with everything that is performed in it. -/
def Cascade.ofRace (st : TokenStore) (w : World) (id : Bytes) (cleans : Bool)
    (journal : List Call) : Cascade := ⟨st, w.store, id, (· ∈ journal), cleans⟩

/-- Each thread of a race is safe, and the revocation promises a dead token. -/
theorem safe_race {R : Cascade} (hR : R.root = id ∧ R.tokens = st ∧ R.cleans = cleans)
    (hdepth : R.Within (TokenStore.maxTreeDepth + 1) R.root) (i : Option ι)
    (s : World × List Call) :
    Safe (R.discipline hworks) (i.elim R.Revokes fun _ => R.Admitted) (race st id cleans calls i)
      (fun _ s' => i = none → R.Dead s'.2 id) s := by
  obtain ⟨rfl, rfl, rfl⟩ := hR
  cases i with
  | none =>
    refine Safe.bind (Safe.mono (Cascade.walks_revokeTree hworks _ R.root s 0 hdepth .refl
      (.inl rfl)) ?_)
    rintro ⟨e | a, n⟩ s' - hdead
    · exact hdead.elim
    · exact fun s'' hs _ _ => hs.dead hdead
  | some i =>
    refine Safe.bind (Safe.mono (Cascade.races_perform hworks (calls i)) ?_)
    exact fun _ _ _ _ _ _ _ h => nomatch h

end Final

/--
**Without late writes, a revocation is final in every schedule**: once all calls have
returned, neither the token nor any that was its descendant is accepted.
-/
theorem revocation_final_without_late_writes {ι : Type} [DecidableEq ι] (st : TokenStore)
    (env : Env) (hworks : env.Works) (w : World) (hforest : st.Forest w.store) (id : Bytes)
    (htoken : st.storeKey id ∈ w.store) (cleans : Bool) (calls : ι → RaceCall)
    (schedule : List (Option ι))
    (hontime : (racing st id cleans calls w).Obeys (journal env.answer) st.NoLateWrite schedule)
    (hfinished : ((racing st id cleans calls w).run (journal env.answer) schedule).Finished)
    (hdepth : ∀ n c, Levels (st.ChildOf w.store
      ((racing st id cleans calls w).run (journal env.answer) schedule).state.2) n id c →
        n ≤ TokenStore.maxTreeDepth)
    (c : Bytes) (hc : Relation.ReflTransGen (st.ChildOf w.store
      ((racing st id cleans calls w).run (journal env.answer) schedule).state.2) id c) :
    ¬ st.Accepts ((racing st id cleans calls w).run (journal env.answer) schedule).state.1.store
      c := by
  have hperformed := Pool.obeys_journal (h := env.answer) schedule (racing st id cleans calls w)
  generalize hfinal : (racing st id cleans calls w).run (journal env.answer) schedule = final at *
  let R : Cascade := .ofRace st w id cleans final.state.2
  have hallowed : (racing st id cleans calls w).Obeys (journal env.answer) R.Allowed schedule := by
    refine Pool.Obeys.mono ?_ (hontime.and hperformed)
    rintro s call ⟨hlate, hmem⟩
    refine ⟨hmem, ?_, hlate.entry⟩
    rintro id' v hput (hdeleted | ⟨rfl, habsent⟩)
    · exact hlate.record id' v hput hdeleted
    · exact habsent htoken
  have hwithin : R.Within (TokenStore.maxTreeDepth + 1) R.root :=
    Cascade.within_of_levels fun n c hn => Nat.lt_succ_of_le (hdepth n c hn)
  obtain ⟨hinv, hsafe⟩ := Pool.safe_run (R.discipline hworks)
    (G := fun i => Option.elim i R.Revokes fun _ => R.Admitted)
    (Q := fun i _ s' => i = none → R.Dead s'.2 id)
    (fun i s call h => by cases i with | none => exact h.1 | some i => exact h)
    schedule (racing st id cleans calls w) (.start rfl hforest)
    (fun i => safe_race hworks ⟨rfl, rfl, rfl⟩ hwithin i _) hallowed
  rw [hfinal] at hinv hsafe
  obtain ⟨b, hb⟩ := hfinished none
  have hnone := hsafe none
  rw [hb] at hnone
  have hdead : R.Dead final.state.2 id := hnone.returned _ _ hinv rfl
  exact TokenStore.not_accepts_of_absent (hinv.absent c (hdead.descendant hc).gone)

/-! ### A renewal that brings a token back -/

section Revived

variable {st : TokenStore} {t : Token}

/-- An orphan that expires at one and cannot be renewed beyond that. -/
def loneToken : Token :=
  { id := str "uv.0", policies := [], entityID := "", createdTime := 0, expiresAt := 1
    maxExpiresAt := 1, parentHash := [] }

/-- A world with the record of that token and nothing else. -/
def loneWorld (st : TokenStore) : World :=
  ⟨Finmap.singleton (st.storeKey loneToken.id) (st.json.marshal loneToken), 0⟩

theorem loneToken_wf : loneToken.WF := ⟨by decide +kernel, by decide +kernel⟩

theorem lookup_loneWorld {id : Bytes} {blob : Bytes}
    (h : (loneWorld st).store.lookup (st.storeKey id) = some blob) :
    id = loneToken.id ∧ blob = st.json.marshal loneToken := by
  have hmem : st.storeKey id ∈ (loneWorld st).store := by
    rw [← Finmap.lookup_isSome, h]
    rfl
  have hid : id = loneToken.id :=
    st.storeKey_injective (Finmap.mem_singleton _ _ _ |>.mp hmem)
  rw [hid] at h
  exact ⟨hid, (Option.some.inj ((Finmap.lookup_singleton_eq).symm.trans h)).symm⟩

theorem not_indexed_loneWorld (key : Key) (hkey : key ∈ (loneWorld st).store) :
    ¬ childPrefix <+: key := by
  intro hpfx
  rw [Finmap.mem_singleton _ _ _ |>.mp hkey] at hpfx
  exact TokenStore.not_both hpfx (st.storePrefix_storeKey loneToken.id)

theorem forest_loneWorld : st.Forest (loneWorld st).store where
  records id blob h := by
    obtain ⟨rfl, rfl⟩ := lookup_loneWorld h
    exact ⟨loneToken, rfl, loneToken_wf, rfl, by decide_cbv⟩
  indexed key hkey hpfx := absurd hpfx (not_indexed_loneWorld key hkey)
  known p c hkey := absurd (TokenStore.childPrefix_childKey _ _) (not_indexed_loneWorld _ hkey)

/-- One call that races: a renewal of that token. -/
def renewal : Unit → RaceCall := fun _ => .renew loneToken.id 0

theorem mem_loneWorld : st.storeKey loneToken.id ∈ (loneWorld st).store :=
  Finmap.mem_singleton _ _ _ |>.mpr rfl

end Revived

/-- The race of that renewal with a revocation of the token. -/
def renewalRace (schedule : List (Option Unit)) :
    Pool Call Reply Unit (Option Unit) (World × List Call) :=
  (racing Platform.transparent.tokens loneToken.id false renewal
    (loneWorld Platform.transparent.tokens)).run (journal Env.faultless.answer) schedule

/-- The renewal reads the record and the clock, the revocation runs, and the renewal writes. -/
def lateRenewal : List (Option Unit) :=
  [some (), some (), none, none, none, some (), some ()]

/-- The renewal is done before the revocation starts. -/
def earlyRenewal : List (Option Unit) :=
  [some (), some (), some (), some (), none, none, none]

/--
A renewal that reads a record before a revocation deletes it, and writes it back
afterwards.  All calls have returned, and the token is accepted.
-/
theorem revocation_undone_by_renewal : ∃ (st : TokenStore) (env : Env) (w : World) (id : Bytes)
    (schedule : List (Option Unit)), env.Works ∧ st.Forest w.store ∧ st.storeKey id ∈ w.store ∧
      ((racing st id false (fun _ => .renew id 0) w).run (journal env.answer) schedule).Finished ∧
      st.Accepts ((racing st id false (fun _ => .renew id 0) w).run
        (journal env.answer) schedule).state.1.store id := by
  refine ⟨Platform.transparent.tokens, .faultless, loneWorld _, loneToken.id, lateRenewal,
    works_faultless, forest_loneWorld, mem_loneWorld, ?_⟩
  change (renewalRace lateRenewal).Finished ∧
    TokenStore.Accepts _ (renewalRace lateRenewal).state.1.store _
  exact ⟨Pool.finished_iff.mpr (by decide +kernel), .faultless, 0,
    { loneToken with expiresAt := 1 }, _, exec_eq_of_fst _ (by decide +kernel)⟩

/-- A race in which no write comes late. -/
theorem revocation_final_after_renewal :
    (renewalRace earlyRenewal).Finished ∧
      ¬ Platform.transparent.tokens.Accepts (renewalRace earlyRenewal).state.1.store
        loneToken.id := by
  have hfinished : (renewalRace earlyRenewal).Finished :=
    Pool.finished_iff.mpr (by decide +kernel)
  have hjournal : ∀ call ∈ (renewalRace earlyRenewal).state.2,
      ∀ key ∈ call.written, ¬ childPrefix <+: key := by decide +kernel
  refine ⟨hfinished, revocation_final_without_late_writes _ _ works_faultless _
    forest_loneWorld _ mem_loneWorld false renewal earlyRenewal ?_ hfinished ?_ _ .refl⟩
  · exact Pool.Obeys.mono (fun s call h => TokenStore.noLateWrite_of h) (by decide +kernel)
  · rintro (_ | n) c hn
    · exact Nat.zero_le _
    · obtain ⟨c', hkey | ⟨v, hput⟩, -⟩ := hn
      · exact absurd (TokenStore.childPrefix_childKey _ _) (not_indexed_loneWorld _ hkey)
      · exact absurd (TokenStore.childPrefix_childKey _ _) (hjournal _ hput _ rfl)

end UbixVault
