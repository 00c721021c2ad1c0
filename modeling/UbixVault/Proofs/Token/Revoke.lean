/-
A revocation among other calls.

A revocation walks a tree that exists only as index entries, and other calls may
write records and entries while it walks.  What it promises is said about the
journal of all calls performed: a token is dead once its index has been listed, its
record is gone and all its children are dead.

Two things would undo a death: a record written again after its deletion, and an
index entry added after the listing.  Under the assumption that no such call is
performed, death is final, and a revocation that returns leaves its root dead.
-/
import UbixVault.Lib.Interleave
import UbixVault.Lib.Run
import UbixVault.Proofs.Token.Index

namespace UbixVault

open Program

/-- A revocation and the run it is part of. -/
structure Cascade where
  tokens : TokenStore
  /-- The store when the run starts. -/
  start : Store
  /-- The token that is revoked. -/
  root : Bytes
  /-- The calls of the run. -/
  performs : Call → Prop
  /-- Whether there is a callback. -/
  cleans : Bool

namespace Cascade

variable (R : Cascade)

/-! ### What a journal says -/

/-- `c` is a child of `p` as far as the journal goes. -/
def Edge (log : List Call) (p c : Bytes) : Prop :=
  R.tokens.indexKey p c ∈ R.start ∨ ∃ v, .put (R.tokens.indexKey p c) v ∈ log

/-- `c` is a child of `p` at some time of the run. -/
def Link (p c : Bytes) : Prop :=
  R.tokens.indexKey p c ∈ R.start ∨ ∃ v, R.performs (.put (R.tokens.indexKey p c) v)

def Issued (log : List Call) (id : Bytes) : Prop :=
  R.tokens.storeKey id ∈ R.start ∨ ∃ v, .put (R.tokens.storeKey id) v ∈ log

def Listed (log : List Call) (id : Bytes) : Prop := .list (R.tokens.indexPrefix id) ∈ log

def Deleted (log : List Call) (id : Bytes) : Prop := .delete (R.tokens.storeKey id) ∈ log

/-- The record was deleted, or was never there. -/
def Gone (log : List Call) (id : Bytes) : Prop :=
  R.Deleted log id ∨ id = R.root ∧ R.tokens.storeKey id ∉ R.start

/-- Nothing is left of the token, and nothing of its descendants. -/
inductive Dead (log : List Call) : Bytes → Prop
  | intro {id : Bytes} (listed : R.Listed log id) (gone : R.Gone log id)
      (children : ∀ c, R.Edge log id c → Dead log c) : Dead log id

variable {R} {log log' : List Call} {call : Call} {id p c : Bytes}

theorem edge_append : R.Edge (log ++ [call]) p c ↔
    R.Edge log p c ∨ ∃ v, call = .put (R.tokens.indexKey p c) v := by
  simp only [Edge, List.mem_append, List.mem_singleton, exists_or, or_assoc, eq_comm]

theorem issued_append : R.Issued (log ++ [call]) id ↔
    R.Issued log id ∨ ∃ v, call = .put (R.tokens.storeKey id) v := by
  simp only [Issued, List.mem_append, List.mem_singleton, exists_or, or_assoc, eq_comm]

theorem deleted_append : R.Deleted (log ++ [call]) id ↔
    R.Deleted log id ∨ call = .delete (R.tokens.storeKey id) := by
  simp only [Deleted, List.mem_append, List.mem_singleton, eq_comm]

theorem Edge.link (h : R.Edge log p c) (honly : ∀ call ∈ log, R.performs call) : R.Link p c := by
  rcases h with h | ⟨v, h⟩
  · exact .inl h
  · exact .inr ⟨v, honly _ h⟩

/-- Death is final when nothing is indexed below what was listed. -/
theorem Dead.mono (h : R.Dead log id) (hlog : log ⊆ log')
    (hedge : ∀ p c, R.Listed log p → R.Edge log' p c → R.Edge log p c) : R.Dead log' id := by
  induction h with
  | intro listed gone _ ih =>
    refine .intro (hlog listed) (gone.imp_left fun h => hlog h) ?_
    exact fun c hc => ih c (hedge _ c listed hc)

theorem Dead.gone (h : R.Dead log id) : R.Gone log id := by
  cases h with
  | intro _ gone => exact gone

theorem Dead.descendant (h : R.Dead log p) (hc : Relation.ReflTransGen (R.Edge log) p c) :
    R.Dead log c := by
  induction hc with
  | refl => exact h
  | tail _ hedge ih =>
    cases ih with
    | intro _ _ children => exact children _ hedge

/-! ### The discipline -/

variable (R)

/-- What is assumed: no write comes too late, and the run performs no other calls. -/
structure Allowed (s : World × List Call) (call : Call) : Prop where
  performed : R.performs call
  record : ∀ id v, call = .put (R.tokens.storeKey id) v → ¬ R.Gone s.2 id
  entry : ∀ p c v, call = .put (R.tokens.indexKey p c) v → ¬ R.Listed s.2 p

/-- What every thread sees to itself. -/
inductive Admitted (s : World × List Call) : Call → Prop
  | reads {call : Call} (h : call.Reads) : Admitted s call
  | putRecord (t : Token) (wf : t.WF) (named : t.id ≠ []) :
      Admitted s (.put (R.tokens.storeKey t.id) (R.tokens.json.marshal t))
  | putIndex (p c v : Bytes) (issued : R.Issued s.2 c) :
      Admitted s (.put (R.tokens.indexKey p c) v)
  | deleteRecord (id : Bytes) (listed : R.Listed s.2 id)
      (children : ∀ c, R.Edge s.2 id c → R.Dead s.2 c)
      (reached : Relation.ReflTransGen R.Link R.root id)
      (cleaned : R.cleans = true → .cleanup id ∈ s.2) :
      Admitted s (.delete (R.tokens.storeKey id))
  | deleteIndex (parentHash c : Bytes) (dead : R.Dead s.2 c) :
      Admitted s (.delete (childKey parentHash (R.tokens.hashID c)))

/-- A record is deleted after the callback for it. -/
def CleanedFirst (earlier : List Call) (call : Call) : Prop :=
  ∀ id, call = .delete (R.tokens.storeKey id) → .cleanup id ∈ earlier

/-- What holds between the store and the journal at every moment. -/
structure Inv (s : World × List Call) : Prop where
  only : ∀ call ∈ s.2, R.performs call
  records : ∀ id blob, s.1.store.lookup (R.tokens.storeKey id) = some blob →
    ∃ t : Token, blob = R.tokens.json.marshal t ∧ t.WF ∧ t.id = id ∧ id ≠ []
  indexed : R.tokens.Indexed s.1.store
  entries : ∀ p c, R.tokens.indexKey p c ∈ s.1.store → R.Edge s.2 p c
  edges : ∀ p c, R.Edge s.2 p c → R.tokens.indexKey p c ∈ s.1.store ∨ R.Dead s.2 c
  known : ∀ p c, R.Edge s.2 p c → R.Issued s.2 c
  live : ∀ id, R.Issued s.2 id → R.tokens.storeKey id ∈ s.1.store ∨ R.Deleted s.2 id
  absent : ∀ id, R.Gone s.2 id → R.tokens.storeKey id ∉ s.1.store
  dead : ∀ id, R.Deleted s.2 id → R.Dead s.2 id
  reached : ∀ id, R.Deleted s.2 id → Relation.ReflTransGen R.Link R.root id
  cleaned : R.cleans = true → Run.Throughout R.CleanedFirst s.2
  frame : ∀ id, ¬ R.Deleted s.2 id → (∀ v, .put (R.tokens.storeKey id) v ∉ s.2) →
    s.1.store.lookup (R.tokens.storeKey id) = R.start.lookup (R.tokens.storeKey id)

/-- How the journal grows while a thread waits. -/
structure Grows (log log' : List Call) : Prop where
  journal : log ⊆ log'
  closed : ∀ p c, R.Listed log p → R.Edge log' p c → R.Edge log p c

variable {R} {s s' s'' : World × List Call} {log'' : List Call}

theorem Grows.refl (log : List Call) : R.Grows log log := ⟨fun _ h => h, fun _ _ _ h => h⟩

theorem Grows.trans (h : R.Grows log log') (h' : R.Grows log' log'') : R.Grows log log'' :=
  ⟨fun _ hc => h'.journal (h.journal hc),
    fun p c hl he => h.closed p c hl (h'.closed p c (h.journal hl) he)⟩

theorem Grows.dead (h : R.Grows log log') (hd : R.Dead log id) : R.Dead log' id :=
  hd.mono h.journal h.closed

theorem Grows.edge (h : R.Grows log log') (he : R.Edge log p c) : R.Edge log' p c :=
  he.imp_right fun ⟨v, hv⟩ => ⟨v, h.journal hv⟩

theorem Grows.issued (h : R.Grows log log') (hi : R.Issued log id) : R.Issued log' id :=
  hi.imp_right fun ⟨v, hv⟩ => ⟨v, h.journal hv⟩

theorem Allowed.grows (h : R.Allowed s call) : R.Grows s.2 (s.2 ++ [call]) := by
  refine ⟨List.subset_append_left _ _, fun p c hlisted hedge => ?_⟩
  rcases edge_append.mp hedge with hedge | ⟨v, hput⟩
  · exact hedge
  · exact absurd hlisted (h.entry p c v hput)

/-! ### Every call keeps the invariant -/

theorem edge_append_of_ne (h : ∀ v, call ≠ .put (R.tokens.indexKey p c) v) :
    R.Edge (log ++ [call]) p c ↔ R.Edge log p c := by
  rw [edge_append, or_iff_left]
  rintro ⟨v, hv⟩
  exact h v hv

theorem issued_append_of_ne (h : ∀ v, call ≠ .put (R.tokens.storeKey id) v) :
    R.Issued (log ++ [call]) id ↔ R.Issued log id := by
  rw [issued_append, or_iff_left]
  rintro ⟨v, hv⟩
  exact h v hv

theorem deleted_append_of_ne (h : call ≠ .delete (R.tokens.storeKey id)) :
    R.Deleted (log ++ [call]) id ↔ R.Deleted log id := by
  rw [deleted_append, or_iff_left h]

section Step

variable {w : World} (hinv : R.Inv s)
include hinv

theorem Inv.only_append (hallowed : R.Allowed s call) :
    ∀ call' ∈ s.2 ++ [call], R.performs call' := by
  intro call' hmem
  rcases List.mem_append.mp hmem with h | h
  · exact hinv.only call' h
  · rw [List.mem_singleton.mp h]
    exact hallowed.performed

theorem Inv.cleaned_append (h : R.cleans = true → R.CleanedFirst s.2 call) (hcleans : R.cleans = true) :
    Run.Throughout R.CleanedFirst (s.2 ++ [call]) :=
  Run.throughout_append.mpr ⟨hinv.cleaned hcleans, h hcleans⟩

theorem Inv.frame_append (hid : ¬ R.Deleted (s.2 ++ [call]) id)
    (hput : ∀ v, .put (R.tokens.storeKey id) v ∉ s.2 ++ [call]) :
    s.1.store.lookup (R.tokens.storeKey id) = R.start.lookup (R.tokens.storeKey id) :=
  hinv.frame id (fun h => hid (List.mem_append_left _ h))
    fun v hv => hput v (List.mem_append_left _ hv)

/-- A call that touches no record: what has to be shown is about the entries. -/
theorem Inv.of_entries (hallowed : R.Allowed s call) (hput : ∀ id v, call ≠ .put (R.tokens.storeKey id) v)
    (hdelete : ∀ id, call ≠ .delete (R.tokens.storeKey id))
    (hlookup : ∀ id, w.store.lookup (R.tokens.storeKey id) = s.1.store.lookup (R.tokens.storeKey id))
    (hindexed : R.tokens.Indexed w.store)
    (hentries : ∀ p c, R.tokens.indexKey p c ∈ w.store → R.Edge (s.2 ++ [call]) p c)
    (hedges : ∀ p c, R.Edge (s.2 ++ [call]) p c → R.tokens.indexKey p c ∈ w.store ∨ R.Dead s.2 c)
    (hknown : ∀ p c, R.Edge (s.2 ++ [call]) p c → R.Issued s.2 c) : R.Inv (w, s.2 ++ [call]) := by
  have hdead : ∀ {id}, R.Dead s.2 id → R.Dead (s.2 ++ [call]) id := hallowed.grows.dead
  have hissued : ∀ {id}, R.Issued (s.2 ++ [call]) id ↔ R.Issued s.2 id := issued_append_of_ne (hput _)
  have hdeleted : ∀ {id}, R.Deleted (s.2 ++ [call]) id ↔ R.Deleted s.2 id := deleted_append_of_ne (hdelete _)
  have hrecord : ∀ {id}, R.tokens.storeKey id ∈ w.store ↔ R.tokens.storeKey id ∈ s.1.store := by
    intro id
    rw [← Finmap.lookup_isSome, hlookup, Finmap.lookup_isSome]
  constructor <;> dsimp only
  case only => exact hinv.only_append hallowed
  case indexed => exact hindexed
  case entries => exact hentries
  case edges => exact fun p c hc => (hedges p c hc).imp_right hdead
  case known => exact fun p c hc => hissued.mpr (hknown p c hc)
  case cleaned => exact hinv.cleaned_append fun _ id hid => absurd hid (hdelete id)
  case dead => exact fun id hid => hdead (hinv.dead id (hdeleted.mp hid))
  case reached => exact fun id hid => hinv.reached id (hdeleted.mp hid)
  case live => exact fun id hid => (hinv.live id (hissued.mp hid)).imp hrecord.mpr hdeleted.mpr
  case absent => exact fun id hid hkey => hinv.absent id (hid.imp_left hdeleted.mp) (hrecord.mp hkey)
  case records =>
    intro id blob hblob
    rw [hlookup] at hblob
    exact hinv.records id blob hblob
  case frame =>
    intro id hid hput
    rw [hlookup]
    exact hinv.frame_append hid hput

/-- A call that stores nothing. -/
theorem Inv.reads (hallowed : R.Allowed s call) (h : call.Reads) (hs : w.store = s.1.store) :
    R.Inv (w, s.2 ++ [call]) := by
  have hedge : ∀ {p c}, R.Edge (s.2 ++ [call]) p c ↔ R.Edge s.2 p c :=
    edge_append_of_ne fun v => h.1 _ v
  apply hinv.of_entries hallowed (fun _ v => h.1 _ v) (fun _ => h.2 _) <;> try rw [hs]
  · exact fun _ => rfl
  · exact hinv.indexed
  · exact fun p c hkey => hedge.mpr (hinv.entries p c hkey)
  · exact fun p c hc => hinv.edges p c (hedge.mp hc)
  · exact fun p c hc => hinv.known p c (hedge.mp hc)

/-- An index entry is written. -/
theorem Inv.putIndex {p c v : Bytes} (issued : R.Issued s.2 c)
    (hcall : call = .put (R.tokens.indexKey p c) v) (hallowed : R.Allowed s call)
    (hs : w.store = s.1.store.insert (R.tokens.indexKey p c) v) : R.Inv (w, s.2 ++ [call]) := by
  have hmem : ∀ {key}, key ∈ w.store ↔ key = R.tokens.indexKey p c ∨ key ∈ s.1.store := by
    intro key
    rw [hs, Finmap.mem_insert]
  have hedge : ∀ {p' c'}, R.Edge (s.2 ++ [call]) p' c' ↔
      R.Edge s.2 p' c' ∨ R.tokens.indexKey p' c' = R.tokens.indexKey p c := by
    intro p' c'
    rw [edge_append, hcall]
    refine or_congr_right ⟨fun ⟨v', hv⟩ => (Call.put.inj hv).1.symm, fun heq => ⟨v, by rw [heq]⟩⟩
  refine hinv.of_entries hallowed ?_ (by rw [hcall]; nofun) ?_ ?_ ?_ ?_ ?_
  · intro id v' hv
    rw [hcall, Call.put.injEq] at hv
    exact TokenStore.indexKey_ne_storeKey _ _ _ hv.1
  · intro id
    rw [hs, Finmap.lookup_insert_of_ne _ (TokenStore.indexKey_ne_storeKey _ _ _).symm]
  · intro key hkey hpfx
    rcases hmem.mp hkey with rfl | hkey
    · exact ⟨p, c, rfl⟩
    · exact hinv.indexed key hkey hpfx
  · exact fun p' c' hkey => hedge.mpr ((hmem.mp hkey).symm.imp_left (hinv.entries p' c'))
  · intro p' c' hc
    rcases hedge.mp hc with hc | heq
    · exact (hinv.edges p' c' hc).imp_left fun hkey => hmem.mpr (.inr hkey)
    · exact .inl (hmem.mpr (.inl heq))
  · intro p' c' hc
    rcases hedge.mp hc with hc | heq
    · exact hinv.known p' c' hc
    · rwa [(TokenStore.indexKey_inj heq).2]

/-- The index entry of a dead token is deleted. -/
theorem Inv.deleteIndex {parentHash c : Bytes} (dead : R.Dead s.2 c)
    (hcall : call = .delete (childKey parentHash (R.tokens.hashID c)))
    (hallowed : R.Allowed s call)
    (hs : w.store = s.1.store.erase (childKey parentHash (R.tokens.hashID c)) ∨
      w.store = s.1.store) : R.Inv (w, s.2 ++ [call]) := by
  have hedge : ∀ {p c}, R.Edge (s.2 ++ [call]) p c ↔ R.Edge s.2 p c :=
    edge_append_of_ne (by rw [hcall]; exact fun _ h => nomatch h)
  have hlookup : ∀ {key}, key ≠ childKey parentHash (R.tokens.hashID c) →
      w.store.lookup key = s.1.store.lookup key := by
    intro key hne
    rcases hs with hs | hs
    · rw [hs, Finmap.lookup_erase_ne hne]
    · rw [hs]
  have hsub : ∀ {key}, key ∈ w.store → key ∈ s.1.store := by
    intro key hkey
    rcases hs with hs | hs
    · rw [hs, Finmap.mem_erase] at hkey
      exact hkey.2
    · rwa [hs] at hkey
  refine hinv.of_entries hallowed (by rw [hcall]; nofun) ?_ ?_ ?_ ?_ ?_ ?_
  · intro id h
    rw [hcall, Call.delete.injEq] at h
    exact TokenStore.childKey_ne_storeKey _ _ _ h
  · exact fun id => hlookup (TokenStore.childKey_ne_storeKey _ _ _).symm
  · exact fun key hkey => hinv.indexed key (hsub hkey)
  · exact fun p c hkey => hedge.mpr (hinv.entries p c (hsub hkey))
  · intro p' c' hc
    by_cases heq : R.tokens.indexKey p' c' = childKey parentHash (R.tokens.hashID c)
    · -- The entry that is deleted is that of the dead token.
      have hcc := (TokenStore.childKey_inj (R.tokens.slash_notMem_hashID c')
        (R.tokens.slash_notMem_hashID c) heq).2
      rw [R.tokens.hashID_injective hcc]
      exact .inr dead
    · refine (hinv.edges p' c' (hedge.mp hc)).imp_left fun hkey => ?_
      rwa [← Finmap.lookup_isSome, hlookup heq, Finmap.lookup_isSome]
  · exact fun p c hc => hinv.known p c (hedge.mp hc)

/-- A record is written. -/
theorem Inv.putRecord {t : Token} (wf : t.WF) (named : t.id ≠ [])
    (hcall : call = .put (R.tokens.storeKey t.id) (R.tokens.json.marshal t))
    (hallowed : R.Allowed s call)
    (hs : w.store = s.1.store.insert (R.tokens.storeKey t.id) (R.tokens.json.marshal t)) :
    R.Inv (w, s.2 ++ [call]) := by
  have hdead : ∀ {id}, R.Dead s.2 id → R.Dead (s.2 ++ [call]) id := hallowed.grows.dead
  have hedge : ∀ {p c}, R.Edge (s.2 ++ [call]) p c ↔ R.Edge s.2 p c := by
    refine edge_append_of_ne fun v hv => ?_
    rw [hcall, Call.put.injEq] at hv
    exact TokenStore.indexKey_ne_storeKey _ _ _ hv.1.symm
  have hdeleted : ∀ {id}, R.Deleted (s.2 ++ [call]) id ↔ R.Deleted s.2 id :=
    deleted_append_of_ne (by rw [hcall]; exact fun h => nomatch h)
  have hmem : ∀ {key}, key ∈ w.store ↔ key = R.tokens.storeKey t.id ∨ key ∈ s.1.store := by
    intro key
    rw [hs, Finmap.mem_insert]
  have hindex : ∀ {p c}, R.tokens.indexKey p c ∈ w.store ↔ R.tokens.indexKey p c ∈ s.1.store := by
    intro p c
    rw [hmem, or_iff_right (TokenStore.indexKey_ne_storeKey _ _ _)]
  have hother : ∀ {id}, id ≠ t.id →
      w.store.lookup (R.tokens.storeKey id) = s.1.store.lookup (R.tokens.storeKey id) := by
    intro id hne
    rw [hs, Finmap.lookup_insert_of_ne _ fun h => hne (R.tokens.storeKey_injective h)]
  constructor <;> dsimp only
  case only => exact hinv.only_append hallowed
  case cleaned =>
    refine hinv.cleaned_append fun _ id hid => ?_
    rw [hcall] at hid
    cases hid
  case dead => exact fun id hid => hdead (hinv.dead id (hdeleted.mp hid))
  case reached => exact fun id hid => hinv.reached id (hdeleted.mp hid)
  case known =>
    exact fun p c hc => issued_append.mpr (.inl (hinv.known p c (hedge.mp hc)))
  case entries => exact fun p c hkey => hedge.mpr (hinv.entries p c (hindex.mp hkey))
  case edges =>
    exact fun p c hc => (hinv.edges p c (hedge.mp hc)).imp hindex.mpr hdead
  case records =>
    intro id blob hblob
    by_cases hid : id = t.id
    · rw [hid, hs, Finmap.lookup_insert, Option.some.injEq] at hblob
      exact ⟨t, hblob.symm, wf, hid.symm, hid ▸ named⟩
    · rw [hother hid] at hblob
      exact hinv.records id blob hblob
  case indexed =>
    intro key hkey hpfx
    rcases hmem.mp hkey with rfl | hkey
    · exact absurd (R.tokens.storePrefix_storeKey t.id) (TokenStore.not_both hpfx)
    · exact hinv.indexed key hkey hpfx
  case live =>
    intro id hid
    rcases issued_append.mp hid with hid | ⟨v, hv⟩
    · exact (hinv.live id hid).imp (fun h => hmem.mpr (.inr h)) hdeleted.mpr
    · rw [hcall, Call.put.injEq] at hv
      exact .inl (hmem.mpr (.inl hv.1.symm))
  case absent =>
    intro id hid hkey
    have hgone : R.Gone s.2 id := hid.imp_left hdeleted.mp
    rcases hmem.mp hkey with heq | hkey
    · exact hallowed.record id _ (hcall.trans (by rw [heq])) hgone
    · exact hinv.absent id hgone hkey
  case frame =>
    intro id hid hput
    have hne : id ≠ t.id := by
      rintro rfl
      exact hput _ (List.mem_append_right _ (List.mem_singleton.mpr hcall.symm))
    rw [hother hne]
    exact hinv.frame_append hid hput

/-- A record is deleted, when all below it is dead. -/
theorem Inv.deleteRecord (listed : R.Listed s.2 id)
    (children : ∀ c, R.Edge s.2 id c → R.Dead s.2 c)
    (reached : Relation.ReflTransGen R.Link R.root id)
    (cleaned : R.cleans = true → .cleanup id ∈ s.2)
    (hcall : call = .delete (R.tokens.storeKey id)) (hallowed : R.Allowed s call)
    (hs : w.store = s.1.store.erase (R.tokens.storeKey id)) : R.Inv (w, s.2 ++ [call]) := by
  have hdead : ∀ {id}, R.Dead s.2 id → R.Dead (s.2 ++ [call]) id := hallowed.grows.dead
  have hedge : ∀ {p c}, R.Edge (s.2 ++ [call]) p c ↔ R.Edge s.2 p c :=
    edge_append_of_ne (by rw [hcall]; exact fun _ h => nomatch h)
  have hissued : ∀ {id}, R.Issued (s.2 ++ [call]) id ↔ R.Issued s.2 id :=
    issued_append_of_ne (by rw [hcall]; exact fun _ h => nomatch h)
  have hdeleted : ∀ {id'}, R.Deleted (s.2 ++ [call]) id' ↔ R.Deleted s.2 id' ∨ id' = id := by
    intro id'
    rw [deleted_append, hcall, Call.delete.injEq]
    exact or_congr_right ⟨fun h => R.tokens.storeKey_injective h.symm, fun h => by rw [h]⟩
  have hmem : ∀ {key}, key ∈ w.store ↔ key ≠ R.tokens.storeKey id ∧ key ∈ s.1.store := by
    intro key
    rw [hs, Finmap.mem_erase]
  have hindex : ∀ {p c}, R.tokens.indexKey p c ∈ w.store ↔ R.tokens.indexKey p c ∈ s.1.store := by
    intro p c
    rw [hmem, and_iff_right (TokenStore.indexKey_ne_storeKey _ _ _)]
  have hother : ∀ {id'}, id' ≠ id →
      w.store.lookup (R.tokens.storeKey id') = s.1.store.lookup (R.tokens.storeKey id') := by
    intro id' hne
    rw [hs, Finmap.lookup_erase_ne fun h => hne (R.tokens.storeKey_injective h)]
  constructor <;> dsimp only
  case only => exact hinv.only_append hallowed
  case cleaned =>
    refine hinv.cleaned_append fun hcleans id' hid => ?_
    rw [hcall, Call.delete.injEq] at hid
    rw [← R.tokens.storeKey_injective hid]
    exact cleaned hcleans
  case dead =>
    intro id' hid
    rcases hdeleted.mp hid with hid | rfl
    · exact hdead (hinv.dead id' hid)
    · refine .intro (List.mem_append_left _ listed) (.inl hid) fun c hc => ?_
      exact hdead (children c (hedge.mp hc))
  case reached =>
    intro id' hid
    rcases hdeleted.mp hid with hid | rfl
    · exact hinv.reached id' hid
    · exact reached
  case known => exact fun p c hc => hissued.mpr (hinv.known p c (hedge.mp hc))
  case entries => exact fun p c hkey => hedge.mpr (hinv.entries p c (hindex.mp hkey))
  case edges => exact fun p c hc => (hinv.edges p c (hedge.mp hc)).imp hindex.mpr hdead
  case indexed => exact fun key hkey => hinv.indexed key (hmem.mp hkey).2
  case records =>
    intro id' blob hblob
    refine hinv.records id' blob ?_
    by_cases hne : id' = id
    · rw [hne, hs, Finmap.lookup_erase] at hblob
      cases hblob
    · rwa [hother hne] at hblob
  case live =>
    intro id' hid
    by_cases hne : id' = id
    · exact .inr (hdeleted.mpr (.inr hne))
    · refine (hinv.live id' (hissued.mp hid)).imp (fun h => hmem.mpr ⟨?_, h⟩)
        fun h => hdeleted.mpr (.inl h)
      exact fun h => hne (R.tokens.storeKey_injective h)
  case absent =>
    intro id' hid hkey
    obtain ⟨hne, hkey⟩ := hmem.mp hkey
    refine hinv.absent id' (hid.imp_left fun h => ?_) hkey
    rcases hdeleted.mp h with h | rfl
    · exact h
    · exact absurd rfl hne
  case frame =>
    intro id' hid hput
    have hne : id' ≠ id := fun h => hid (hdeleted.mpr (.inr h))
    rw [hother hne]
    exact hinv.frame_append hid hput

end Step

/-- The discipline of a run that obeys what is assumed of it. -/
def discipline (R : Cascade) {env : Env} (hworks : env.Works) : Discipline (journal env.answer) where
  inv := R.Inv
  rely s s' := R.Grows s.2 s'.2
  allowed := R.Allowed
  guarantee := R.Admitted
  rely_refl s := Grows.refl s.2
  rely_trans := Grows.trans
  step := by
    intro s call hinv hadmitted hallowed
    refine ⟨?_, hallowed.grows⟩
    show R.Inv ((env.answer s.1 call).2, s.2 ++ [call])
    cases hadmitted with
    | reads h => exact hinv.reads hallowed h (Env.answer_reads h)
    | putRecord t wf named =>
      rw [Env.answer_put (hworks _ _) (R.tokens.validKey_storeKey _)] at *
      exact hinv.putRecord wf named rfl hallowed rfl
    | putIndex p c v issued =>
      rw [Env.answer_put (hworks _ _) (R.tokens.validKey_indexKey _ _)]
      exact hinv.putIndex issued rfl hallowed rfl
    | deleteRecord id listed children reached cleaned =>
      rw [Env.answer_delete (hworks _ _) (R.tokens.validKey_storeKey _)]
      exact hinv.deleteRecord listed children reached cleaned rfl hallowed rfl
    | deleteIndex parentHash c dead =>
      exact hinv.deleteIndex dead rfl hallowed (Env.answer_delete_store _)

end Cascade

end UbixVault
