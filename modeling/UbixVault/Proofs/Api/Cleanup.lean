/-
What a token owned is gone before its record is.

A revocation only deletes, so a store is only ever pruned.  Once nothing of a token is
left, nothing of it is left later, and it is enough to look at the moment the callback
returns.  The walk over the tree of a token is checked call by call, by induction on the
levels that are still allowed.

The callback passes over a lease that it cannot read.  When that is because the storage
failed, the lease stays and the record of its token goes.
-/
import UbixVault.Proofs.Api.Callback

namespace UbixVault.Database

open Program

variable {α δ : Type} {hd : Handler δ} {env : Env} {server : Server} {depth : Nat} {s s' : Site}
  {id tok : Bytes}

namespace Handler

/-! ### Revoking and sweeping -/

/-- If the operation deletes the record of a token, nothing of the token is left. -/
def Cleaned (hd : Handler δ) (env : Env) (server : Server) (s : Site) (op : Op) : Prop :=
  ∀ tok, tok ≠ [] → hd.tokens.storeKey tok ∈ s.vault.store →
    hd.tokens.storeKey tok ∉ (server.answer env s op).2.vault.store → hd.Clean s.vault.store tok

theorem cleaned_of_discards {op : Op} (hop : op.Discards) (s : Site) : hd.Cleaned env server s op := by
  intro tok _ hmem hnot
  rcases discarded_answer env server hop s (hd.tokens.storeKey tok) with heq | ⟨hrecord, -⟩
  · rw [← Finmap.lookup_isSome] at hmem hnot
    rw [heq] at hnot
    exact absurd hmem hnot
  · exact absurd (TokenStore.storePrefix_storeKey tok) hrecord

/-- How the calls of the token store are answered. -/
abbrev outside (hd : Handler δ) (env : Env) (server : Server) (depth : Nat) : Outside Site :=
  through (callback (hd.cleanupToken depth)) (server.answer env)

/-- What was there is there or gone. -/
abbrev Shrunk (s s' : Site) : Prop := Store.Pruned (fun _ => True) s.vault.store s'.vault.store

theorem callback_eq {call : Call} (hcall : ∀ id, call ≠ .cleanup id) (cleanup : Bytes → DbAct Unit) :
    callback cleanup call = perform (Op.vault call) := by
  cases call with
  | cleanup id => exact absurd rfl (hcall id)
  | _ => rfl

/-- A call that writes nothing leaves what was there, or less. -/
theorem shrunk_outside (hd : Handler δ) (env : Env) (server : Server) (depth : Nat) {call : Call}
    (hcall : ∀ key value, call ≠ .put key value) (s : Site) :
    Shrunk s (hd.outside env server depth s call).2 := by
  by_cases hcleanup : ∃ id, call = .cleanup id
  · obtain ⟨id, rfl⟩ := hcleanup
    exact (discarded_run env server (hd.within_cleanupToken id) s).mono fun _ _ => trivial
  · rw [not_exists] at hcleanup
    show Shrunk s ((callback (hd.cleanupToken depth) call).run (server.answer env) s).2
    rw [callback_eq hcleanup]
    show Store.Pruned _ s.vault.store (env.answer s.vault call).2.store
    by_cases hreads : call.Reads
    · rw [Env.answer_reads hreads]
      exact .refl _ _
    · cases call with
      | delete key =>
        rcases Env.answer_delete_cases env s.vault key with h | ⟨err, h⟩
        · rw [h]
          exact (Store.Cleared.erase _ _).pruned.mono fun _ _ => trivial
        · rw [h]
          exact .refl _ _
      | put key value => exact absurd rfl (hcall key value)
      | _ => exact absurd ⟨by nofun, by nofun⟩ hreads

/-- What a revocation keeps: of the tokens there were, each has its record or left nothing. -/
structure Kept (hd : Handler δ) (start : Store) (s : Site) : Prop where
  sound : hd.Sound s.vault.store
  clean : ∀ tok, tok ≠ [] → hd.tokens.storeKey tok ∈ start →
    hd.tokens.storeKey tok ∈ s.vault.store ∨ hd.Clean s.vault.store tok

/-- Nothing is written, and no record is deleted before what its token owned is gone. -/
structure Proper (hd : Handler δ) (env : Env) (server : Server) (depth : Nat) (s : Site)
    (call : Call) : Prop where
  only : ∀ key value, call ≠ .put key value
  cleaned : Along (server.answer env) (hd.Cleaned env server) (callback (hd.cleanupToken depth) call) s

theorem Proper.clean {call : Call} (h : hd.Proper env server depth s call) (htok : tok ≠ [])
    (hmem : hd.tokens.storeKey tok ∈ s.vault.store)
    (hnot : hd.tokens.storeKey tok ∉ (hd.outside env server depth s call).2.vault.store) :
    hd.Clean s.vault.store tok := by
  by_cases hcleanup : ∃ id, call = .cleanup id
  · obtain ⟨id, rfl⟩ := hcleanup
    rcases discarded_run env server (hd.within_cleanupToken id) s
      (hd.tokens.storeKey tok) with heq | ⟨hrecord, -⟩
    · rw [← Finmap.lookup_isSome] at hmem hnot
      exact absurd (heq ▸ hmem) hnot
    · exact absurd (TokenStore.storePrefix_storeKey tok) hrecord
  · rw [not_exists] at hcleanup
    have hcleaned := h.cleaned
    rw [callback_eq hcleanup] at hcleaned
    refine hcleaned.1 tok htok hmem fun hafter => hnot ?_
    show _ ∈ ((callback (hd.cleanupToken depth) call).run (server.answer env) s).2.vault.store
    rw [callback_eq hcleanup]
    exact hafter

/-- Every call of a revocation is proper, whoever else deletes something in between. -/
def discipline (hd : Handler δ) (env : Env) (server : Server) (depth : Nat) (start : Store) :
    Discipline (hd.outside env server depth) where
  inv := hd.Kept start
  rely := Shrunk
  allowed _ _ := True
  guarantee := hd.Proper env server depth
  rely_refl s := .refl _ _
  rely_trans h h' := h.trans h'
  step s call hkept hproper _ := by
    have hshrunk := hd.shrunk_outside env server depth hproper.only s
    refine ⟨⟨hkept.sound.pruned hshrunk, fun tok htok hstart => ?_⟩, hshrunk⟩
    rcases hkept.clean tok htok hstart with hmem | hclean
    · by_cases hafter : hd.tokens.storeKey tok ∈ (hd.outside env server depth s call).2.vault.store
      · exact .inl hafter
      · exact .inr ((hproper.clean htok hmem hafter).pruned hshrunk)
    · exact .inr (hclean.pruned hshrunk)

section Walk

variable {start : Store} {text : String} {n : Nat}

/-- A program of the token store, all of whose calls are proper. -/
abbrev Careful (hd : Handler δ) (env : Env) (server : Server) (depth : Nat) (start : Store) (p : Prog α)
    (Q : α → Site → Prop) (s : Site) : Prop :=
  Safe (hd.discipline env server depth start) (hd.Proper env server depth) p Q s

/-- The same for the programs of a revocation, however they end. -/
abbrev Walks (hd : Handler δ) (env : Env) (server : Server) (depth : Nat) (start : Store)
    (x : TokenStore.RevokeM α) (n : Nat) (s : Site) (ok : α → Site → Prop) : Prop :=
  SafeState (hd.discipline env server depth start) (hd.Proper env server depth) x n s (fun a _ s' => ok a s')
    fun _ _ _ => True

theorem proper_of_discards {call : Call} (hcall : (Op.vault call).Discards)
    (hcleanup : ∀ id, call ≠ .cleanup id)
    (s : Site) : hd.Proper env server depth s call := by
  refine ⟨hcall.1, ?_⟩
  rw [callback_eq hcleanup]
  exact ⟨cleaned_of_discards hcall s, trivial⟩

theorem safe_get {key : Key} {ok : Option Bytes → Site → Prop}
    (hok : ∀ s₁ s₂, hd.Kept start s₁ → Shrunk s₁ s₂ → ok (s₁.vault.store.lookup key) s₂) :
    SafeExcept (hd.discipline env server depth start) (hd.Proper env server depth)
      ((Act.get key).context text) s ok
      fun _ _ => True := by
  refine SafeExcept.adapt (Safe.perform fun s₁ _ hkept => ⟨?_, fun _ s₂ hs₂ _ => ?_⟩)
  · exact proper_of_discards (discards_reads ⟨by nofun, by nofun⟩) (by nofun) s₁
  · have hshrunk : Shrunk s₁ s₂ := (hd.shrunk_outside env server depth (by nofun) s₁).trans hs₂
    have hreply : (hd.outside env server depth s₁ (.get key)).1
        = (server.storage env s₁.vault (.get key)).1 := rfl
    rw [hreply]
    rcases storage_get_cases env server s₁.vault key with ⟨h, -⟩ | ⟨err, h, -⟩
    · rw [h]
      exact fun s₃ hs₃ _ => hok s₁ s₃ hkept (hshrunk.trans hs₃)
    · rw [h]
      exact fun _ _ _ => trivial

theorem safe_list {pfx : Key} {ok : List Key → Site → Prop} (hok : ∀ names s₂, ok names s₂) :
    SafeExcept (hd.discipline env server depth start) (hd.Proper env server depth)
      ((Act.list pfx).context text) s ok
      fun _ _ => True := by
  refine SafeExcept.adapt (Safe.perform fun s₁ _ hkept => ⟨?_, fun _ s₂ hs₂ _ => ?_⟩)
  · exact proper_of_discards (discards_reads ⟨by nofun, by nofun⟩) (by nofun) s₁
  · generalize (hd.outside env server depth s₁ (.list pfx)).1 = r
    cases r with
    | error e => exact fun _ _ _ => trivial
    | ok names => exact fun s₃ _ _ => hok names s₃

/-- A key may be deleted if nothing is left of the token whose record it is. -/
theorem safe_delete {key : Key}
    (hclean : ∀ tok, tok ≠ [] → hd.tokens.storeKey tok = key → hd.Clean s.vault.store tok) :
    hd.Careful env server depth start (Act.delete key).run (fun _ _ => True) s := by
  refine Safe.perform fun s₁ hs₁ hkept => ⟨⟨by nofun, ?_, trivial⟩, fun _ _ _ _ => trivial⟩
  intro tok htok hmem hnot
  refine (hclean tok htok ?_).pruned hs₁
  by_contra hne
  rcases storage_delete_cases env server s₁.vault key with ⟨h, -⟩ | ⟨err, h, -⟩
  · change _ ∉ (server.storage env s₁.vault (.delete key)).2.store at hnot
    rw [h] at hnot
    exact hnot (Finmap.mem_erase.mpr ⟨hne, hmem⟩)
  · change _ ∉ (server.storage env s₁.vault (.delete key)).2.store at hnot
    rw [h] at hnot
    exact hnot hmem

theorem safe_cleanup (hreads : hd.LeasesRead env) (id : Bytes) :
    SafeExcept (hd.discipline env server depth start) (hd.Proper env server depth) (Act.cleanup id) s
      (fun _ s' => id ≠ [] → hd.Clean s'.vault.store id) fun _ _ => True := by
  refine Safe.perform fun s₁ _ hkept => ⟨⟨by nofun, ?_⟩, fun _ s₂ hs₂ _ => ?_⟩
  · exact (hd.within_cleanupToken id).along (fun s op hop => cleaned_of_discards hop s) s₁
  · rcases hrun : hd.outside env server depth s₁ (.cleanup id) with ⟨r, s'⟩
    rw [hrun] at hs₂
    cases r with
    | error e => trivial
    | ok =>
      intro hid
      exact (cleanupToken_spec hreads hkept.sound.keys hid hrun).pruned hs₂

theorem Walks.bind {β : Type} {x : TokenStore.RevokeM α} {f : α → TokenStore.RevokeM β} {ok : α → Site → Prop}
    {ok' : β → Site → Prop} (hx : hd.Walks env server depth start x n s ok)
    (hf : ∀ a n' s', ok a s' → hd.Walks env server depth start (f a) n' s' ok') :
    hd.Walks env server depth start (x >>= f) n s ok' :=
  SafeState.bind (SafeState.mono hx (fun a n' s' _ h => hf a n' s' h) fun _ _ _ _ _ _ _ _ => trivial)

theorem Walks.stateless {x : Act α} {ok : α → Site → Prop}
    (hx : SafeExcept (hd.discipline env server depth start) (hd.Proper env server depth) x s ok
      fun _ _ => True)
    (hstable : ∀ a s₁ s₂, ok a s₁ → Shrunk s₁ s₂ → ok a s₂) :
    hd.Walks env server depth start (Program.stateless x) n s ok :=
  SafeState.stateless (SafeExcept.mono hx (fun a s₁ _ h s₂ hs₂ _ => hstable a s₁ s₂ h hs₂)
    fun _ _ _ _ _ _ _ => trivial)

/-- A deletion whose error matters. -/
theorem walks_delete {key : Key}
    (hclean : ∀ tok, tok ≠ [] → hd.tokens.storeKey tok = key → hd.Clean s.vault.store tok) :
    hd.Walks env server depth start (Program.stateless ((Act.delete key).context text)) n s
      fun _ _ => True := by
  refine SafeState.stateless (SafeExcept.adapt (Safe.mono (safe_delete hclean) ?_))
  rintro (e | _) s₁ - -
  · exact fun _ _ _ _ _ _ => trivial
  · exact fun _ _ _ _ _ _ => trivial

/-- Entries of the index are nobody's record. -/
theorem clean_of_childKey {p c : Bytes} (tok : Bytes) (_ : tok ≠ [])
    (h : hd.tokens.storeKey tok = childKey p c) : hd.Clean s.vault.store tok :=
  absurd h.symm (TokenStore.childKey_ne_storeKey p c tok)

theorem walks_unindex (parentHash hash : Bytes) :
    hd.Walks env server depth start (TokenStore.unindex parentHash hash) n s fun _ _ => True := by
  unfold TokenStore.unindex
  split_ifs
  · exact SafeState.attempt (Safe.mono (safe_delete clean_of_childKey) fun _ _ _ _ _ _ _ => trivial)
  · exact SafeState.pure fun _ _ _ => trivial

/-- The record goes after what the token owned. -/
theorem walks_revokeRecord (hreads : hd.LeasesRead env) (id : Bytes) :
    hd.Walks env server depth start (hd.tokens.revokeRecord (some Act.cleanup) id (hd.tokens.hashID id)) n s
      fun _ _ => True := by
  unfold TokenStore.revokeRecord
  refine Walks.bind (Walks.stateless (safe_get fun _ _ _ _ => trivial) fun _ _ _ _ _ => trivial) ?_
  intro entry n₁ s₁ _
  cases entry with
  | none => exact SafeState.pure fun _ _ _ => trivial
  | some blob =>
    have hcleanup : hd.Walks env server depth start (TokenStore.runCleanup (some Act.cleanup) id) n₁ s₁
        fun _ s' => id ≠ [] → hd.Clean s'.vault.store id := by
      refine Walks.stateless (safe_cleanup hreads id) ?_
      exact fun _ s' s'' hclean hs'' hid => (hclean hid).pruned hs''
    refine Walks.bind hcleanup ?_
    intro _ n₂ s₂ hclean
    have hdelete : ∀ tok, tok ≠ [] → hd.tokens.storeKey tok = storePrefix ++ hd.tokens.hashID id →
        hd.Clean s₂.vault.store tok := by
      intro tok htok heq
      have hid : tok = id := hd.tokens.storeKey_injective heq
      rw [hid] at htok ⊢
      exact hclean htok
    refine Walks.bind (walks_delete hdelete) fun _ n₃ s₃ _ => Walks.bind (walks_unindex _ _)
      fun _ n₄ s₄ _ => ?_
    exact SafeState.modifyState fun _ _ _ => trivial

theorem walks_revokeChildren {recurse : Bytes → Bytes → TokenStore.RevokeM Unit} {hash : Bytes}
    (hrecurse : ∀ id n s, hd.Walks env server depth start (recurse id (hd.tokens.hashID id)) n s
      fun _ _ => True)
    (names : List Key) :
    hd.Walks env server depth start (hd.tokens.revokeChildren recurse hash names) n s fun _ _ => True := by
  induction names generalizing n s with
  | nil => exact SafeState.pure fun _ _ _ => trivial
  | cons name rest ih =>
    -- The record that was read names the token that it stands for.
    have hread : hd.Walks env server depth start
        (Program.stateless ((Act.get (storePrefix ++ name)).context "token: read child")) n s
        fun entry _ => ∀ t, entry.bind hd.tokens.json.unmarshal = some t → name = hd.tokens.hashID t.id := by
      refine Walks.stateless (safe_get fun s₁ _ hkept _ t ht => ?_) fun _ _ _ h _ => h
      obtain ⟨blob, hblob, ht⟩ := Option.bind_eq_some_iff.mp ht
      exact hkept.sound.records name blob t hblob ht
    refine Walks.bind hread fun entry n₁ s₁ hname => ?_
    have hstored : hd.Walks env server depth start (hd.tokens.revokeStored recurse name entry) n₁ s₁
        fun _ _ => True := by
      unfold TokenStore.revokeStored
      cases hentry : entry.bind hd.tokens.json.unmarshal with
      | none => exact SafeState.pure fun _ _ _ => trivial
      | some t =>
        dsimp only
        split_ifs
        · rw [hname t hentry]
          exact hrecurse t.id n₁ s₁
        · exact SafeState.pure fun _ _ _ => trivial
    refine Walks.bind hstored fun _ n₂ s₂ _ => ?_
    exact Walks.bind (walks_delete clean_of_childKey) fun _ _ _ _ => ih

/-- **Every level of a revocation is proper.** -/
theorem walks_revokeTree (hreads : hd.LeasesRead env) (fuel : Nat) (id : Bytes) :
    hd.Walks env server depth start
      (hd.tokens.revokeTree (some Act.cleanup) fuel id (hd.tokens.hashID id)) n s
      fun _ _ => True := by
  induction fuel generalizing id n s with
  | zero => exact SafeState.throw fun _ _ _ => trivial
  | succ fuel ih =>
    unfold TokenStore.revokeTree
    refine Walks.bind (Walks.stateless (safe_list fun _ _ => trivial) fun _ _ _ _ _ => trivial)
      fun names n₁ s₁ _ => ?_
    exact Walks.bind (walks_revokeChildren (fun id n s => ih id) names)
      fun _ n₂ s₂ _ => walks_revokeRecord hreads id

theorem careful_sweepEach (hreads : hd.LeasesRead env) (limit : Int) (now : Time) (names : List Key)
    (removed : Nat) :
    hd.Careful env server depth start (hd.tokens.sweepEach limit (some Act.cleanup) now names removed)
      (fun _ _ => True) s := by
  induction names generalizing removed s with
  | nil => exact fun _ _ _ => trivial
  | cons name rest ih =>
    unfold TokenStore.sweepEach
    split_ifs
    · exact fun _ _ _ => trivial
    · have hread : SafeExcept (hd.discipline env server depth start) (hd.Proper env server depth)
          ((Act.get (storePrefix ++ name)).context "token: read") s
          (fun entry _ => ∀ t, entry.bind hd.tokens.json.unmarshal = some t → name = hd.tokens.hashID t.id)
          fun _ _ => True := by
        refine safe_get fun s₁ _ hkept _ t ht => ?_
        obtain ⟨blob, hblob, ht⟩ := Option.bind_eq_some_iff.mp ht
        exact hkept.sound.records name blob t hblob ht
      refine Safe.bind (Safe.mono hread ?_)
      rintro (e | entry) s₁ - hname
      · exact fun _ _ _ => trivial
      · dsimp only
        cases hentry : entry.bind hd.tokens.json.unmarshal with
        | none => exact ih removed
        | some t =>
          dsimp only
          split_ifs
          · exact ih removed
          · rw [hname t hentry]
            refine Safe.bind (Safe.mono (walks_revokeTree hreads _ t.id) ?_)
            rintro ⟨r, m⟩ s₂ - -
            exact ih _

end Walk

theorem careful_sweepExpired (hreads : hd.LeasesRead env) (limit : Int) (start : Store) (s : Site) :
    hd.Careful env server depth start (hd.tokens.sweepExpired limit (some Act.cleanup))
      (fun _ _ => True) s := by
  have hlist : SafeExcept (hd.discipline env server depth start) (hd.Proper env server depth)
      ((Act.list storePrefix).context "token: list") s (fun _ _ => True) fun _ _ => True :=
    safe_list fun _ _ => trivial
  refine Safe.bind (Safe.mono hlist ?_)
  rintro (e | names) s₁ - -
  · exact fun _ _ _ => trivial
  · refine Safe.bind
      (Safe.perform fun s₂ _ _ => ⟨?_, fun _ s₃ _ _ => careful_sweepEach hreads limit _ names 0⟩)
    exact proper_of_discards (discards_reads ⟨by nofun, by nofun⟩) (by nofun) s₂

/-- No record is deleted while something of its token is left; and in the end each token
that had a record has it still, or nothing is left of it. -/
def CleansUp (hd : Handler δ) (env : Env) (server : Server) (p : DbProg α) (s : Site) : Prop :=
  Along (server.answer env) (hd.Cleaned env server) p s ∧
    ∀ tok, tok ≠ [] → hd.tokens.storeKey tok ∈ s.vault.store →
      hd.tokens.storeKey tok ∈ (p.run (server.answer env) s).2.vault.store ∨
        hd.Clean (p.run (server.answer env) s).2.vault.store tok

theorem cleansUp_of_careful {p : Prog α} (hsound : hd.Sound s.vault.store)
    (hp : hd.Careful env server depth s.vault.store p (fun _ _ => True) s) :
    hd.CleansUp env server (p.translate (callback (hd.cleanupToken depth))) s := by
  have hstart : hd.Kept s.vault.store s := ⟨hsound, fun _ _ hmem => .inl hmem⟩
  have hproper : Along (hd.outside env server depth) (hd.Proper env server depth) p s :=
    Safe.along (fun _ _ h => ⟨h, trivial⟩) hstart hp
  have hend := (Safe.run (fun _ _ h => ⟨h, trivial⟩) hstart hp).1
  refine ⟨along_translate.mpr (hproper.mono fun _ _ h => h.cleaned), ?_⟩
  rw [run_translate]
  exact hend.clean

/-! ### A lease that cannot be read -/

section Skipped

variable (hd)

/-- The token of the example, and its record. -/
def exampleID : Bytes := str "uv.1"

def exampleToken : Token where
  id := exampleID
  policies := []
  entityID := ""
  createdTime := 0
  expiresAt := 0
  maxExpiresAt := 0
  parentHash := []

def exampleLease (id : Bytes) : Lease :=
  { id, role := [], username := [], expiration := 0, createdBy := exampleID }

/-- One token with one lease. -/
def exampleSite (id : Bytes) : Site where
  vault := ⟨((∅ : Store).insert (hd.database.leaseKey id)
    (hd.database.leaseJson.marshal (exampleLease id))).insert
    (hd.tokens.storeKey exampleID) (hd.tokens.json.marshal exampleToken), 0⟩
  ready := false
  connected := false
  accounts := []
  executed := 0

/-- The record of one lease cannot be read; nothing else fails. -/
def blind (id : Bytes) : Env := Env.failing fun _ call => call == .get (hd.database.leaseKey id)

/-- A server that does as it is told. -/
def plainServer : Server := ⟨fun _ => [], fun _ _ => false, fun l => l, fun _ => .refl _⟩

variable {hd}

theorem mem_exampleSite {key : Key} :
    key ∈ (hd.exampleSite id).vault.store ↔ key = hd.tokens.storeKey exampleID ∨
      key = hd.database.leaseKey id := by
  simp [exampleSite, Finmap.mem_insert, Finmap.notMem_empty]

theorem leaseKey_ne_storeKey (id tok : Bytes) : hd.database.leaseKey id ≠ hd.tokens.storeKey tok := by
  intro h
  exact hd.not_record_leaseKey id (h ▸ TokenStore.storePrefix_storeKey tok)

theorem lookup_storeKey_exampleSite : (hd.exampleSite id).vault.store.lookup (hd.tokens.storeKey exampleID)
    = some (hd.tokens.json.marshal exampleToken) := Finmap.lookup_insert _

theorem lookup_leaseKey_exampleSite : (hd.exampleSite id).vault.store.lookup (hd.database.leaseKey id)
    = some (hd.database.leaseJson.marshal (exampleLease id)) := by
  rw [exampleSite, Finmap.lookup_insert_of_ne _ (leaseKey_ne_storeKey id exampleID), Finmap.lookup_insert]

theorem wf_exampleToken : exampleToken.WF := ⟨by decide +kernel, by decide +kernel⟩

theorem wf_exampleLease (hvalid : validKey id = true) : (exampleLease id).WF := by
  have hnil : validUTF8 [] = true := by decide_cbv
  have hid : validUTF8 exampleID = true := by decide_cbv
  exact ⟨validUTF8_of_validKey hvalid, hnil, hnil, hid⟩

theorem sound_exampleSite (hvalid : validKey id = true) : hd.Sound (hd.exampleSite id).vault.store := by
  constructor
  · intro key hkey
    rcases mem_exampleSite.mp hkey with rfl | rfl
    · exact hd.tokens.validKey_storeKey _
    · rw [hd.database.validKey_leaseKey, hvalid]
  · intro name blob t hlookup ht
    rcases mem_exampleSite.mp (Finmap.mem_of_lookup_eq_some hlookup) with heq | heq
    · rw [heq, lookup_storeKey_exampleSite, Option.some.injEq] at hlookup
      rw [← hlookup, hd.tokens.json.unmarshal_marshal _ wf_exampleToken, Option.some.injEq] at ht
      rw [← ht]
      exact List.append_cancel_left heq
    · exact absurd (heq ▸ List.prefix_append _ _) (hd.not_record_leaseKey id)

/-- Listing below a prefix that no key has. -/
theorem list_eq_nil {store : Store} {pfx : Key} (h : ∀ key ∈ store, ¬ pfx <+: key) : store.list pfx = [] := by
  rw [List.eq_nil_iff_forall_not_mem]
  intro c hc
  obtain ⟨key, hkey, hchild⟩ := Store.mem_list.mp hc
  simp [childUnder, h key hkey] at hchild

/-- A lease that cannot be read is passed over. -/
theorem run_revokeEach_blind (wanted : Lease → Bool) (ids : List Key)
    (hids : ∀ id ∈ ids, ∀ n, env.fails n (.get (hd.database.leaseKey id)) = true) (revoked : Nat) (s : Site) :
    ∃ s', (hd.database.revokeEach wanted ids revoked).run (server.answer env) s = ((.ok (), revoked), s') ∧
      s'.vault.store = s.vault.store := by
  induction ids generalizing s with
  | nil => exact ⟨s, rfl, rfl⟩
  | cons id ids ih =>
    rw [List.forall_mem_cons] at hids
    obtain ⟨s', hrest, hs'⟩ := ih hids.2 { s with vault := s.vault.next }
    refine ⟨s', ?_, hs'⟩
    have hload : (DbAct.vault (hd.database.loadLease id)).run.run (server.answer env) s
        = (.error (.wrap "database: read lease" .outside), { s with vault := s.vault.next }) := by
      refine exec_vault_eq (exec_bind_error _ ?_ _)
      refine (Act.exec_context_eq_error _ _).mpr ⟨_, ?_, rfl⟩
      exact Env.guarded_fail (hids.1 _)
    unfold Engine.revokeEach
    rw [run_bind, hload]
    exact hrest

/-- The only lease there is. -/
theorem eq_of_listed_exampleSite (hslash : slash ∉ id) (hne : id ≠ []) {c : Key}
    (hc : c ∈ (hd.exampleSite id).vault.store.list hd.database.leasePrefix) : c = id := by
  obtain ⟨key, hkey, hchild⟩ := Store.mem_list.mp hc
  rcases mem_exampleSite.mp hkey with rfl | rfl
  · rcases childUnder_eq_some_iff.mp hchild with ⟨-, -, heq⟩ | ⟨-, -, -, rest, heq⟩
    · exact absurd heq.symm (leaseKey_ne_storeKey c exampleID)
    · rw [List.append_assoc] at heq
      exact absurd heq (leaseKey_ne_storeKey (c ++ rest) exampleID)
  · rw [Engine.leaseKey, hd.database.leasePrefix_eq, childUnder_append hne hslash,
      Option.some.injEq] at hchild
    exact hchild.symm

/-- The callback succeeds, and the lease stays. -/
theorem run_cleanupToken_blind (depth : Nat) (hslash : slash ∉ id) (hne : id ≠ [])
    (hs : s.vault.store = (hd.exampleSite id).vault.store) :
    ∃ s', (hd.cleanupToken (depth + 1) exampleID).run.run (plainServer.answer (hd.blind id))
      s = (.ok (), s') ∧
      s'.vault.store = s.vault.store := by
  have hnotList : ∀ w pfx, (hd.blind id).fails w (.list pfx) = false := by
    intro w pfx
    simp [blind, Env.failing]
  obtain ⟨s₁, hleases, hs₁⟩ : ∃ s₁,
      (hd.database.revokeByToken exampleID).run (plainServer.answer (hd.blind id)) s
      = ((.ok (), 0), s₁) ∧ s₁.vault.store = s.vault.store := by
    have hlist : hd.database.listLeases.run.run (plainServer.answer (hd.blind id)) s
        = (.ok (s.vault.store.list hd.database.leasePrefix), { s with vault := s.vault.next }) := by
      refine exec_vault_eq ((Act.exec_context_eq_ok _ _).mpr ?_)
      rcases storage_list_cases (hd.blind id) plainServer s.vault hd.database.leasePrefix with
        ⟨h, -⟩ | ⟨err, -, hwhy⟩
      · exact h
      · rw [hnotList, hd.database.validPrefix_leasePrefix] at hwhy
        simp at hwhy
    unfold Engine.revokeByToken
    rw [if_neg (by decide_cbv), run_bind, hlist]
    refine run_revokeEach_blind _ _ (fun c hc n => ?_) 0 _
    rw [hs] at hc
    rw [eq_of_listed_exampleSite hslash hne hc]
    simp [blind, Env.failing]
  have hempty : s₁.vault.store.list (hd.cubbyhole.tokenScope exampleID) = [] := by
    refine list_eq_nil fun key hkey hscope => ?_
    rw [hs₁, hs] at hkey
    rcases mem_exampleSite.mp hkey with rfl | rfl
    · exact hd.not_record_tokenScope hscope (TokenStore.storePrefix_storeKey exampleID)
    · exact absurd ((hd.head?_of_tokenScope hscope).symm.trans (hd.head?_leaseKey id)) (by decide)
  have hdestroy : exec (plainServer.answer (hd.blind id))
      (DbAct.vault (hd.cubbyhole.destroy (depth + 1) exampleID)) s₁
      = (.ok (), { s₁ with vault := s₁.vault.next }) := by
    refine exec_vault_eq ((Act.exec_context_eq_ok _ _).mpr ?_)
    have hlist : exec (plainServer.storage (hd.blind id))
        (Act.list (hd.cubbyhole.tokenScope exampleID)) s₁.vault
        = (.ok [], s₁.vault.next) := by
      rcases storage_list_cases (hd.blind id) plainServer s₁.vault (hd.cubbyhole.tokenScope exampleID) with
        ⟨h, -⟩ | ⟨err, -, hwhy⟩
      · rw [hempty] at h
        exact h
      · rw [hnotList, Cubbyhole.validPrefix_tokenScope] at hwhy
        simp at hwhy
    unfold Cubbyhole.deleteTree
    rw [exec_bind_ok _ hlist]
    rfl
  refine ⟨{ s₁ with vault := s₁.vault.next }, ?_, hs₁⟩
  show (hd.database.revokeByToken exampleID >>= _).run _ s = _
  rw [run_bind, hleases]
  exact hdestroy

section Calls

variable {text : String}

theorem yields_get {key : Key} (hf : ∀ n, env.fails n (.get key) = false) (hv : validKey key = true) :
    Yields (hd.outside env server depth) ((Act.get key).context text) s
      (fun r s' => r = s.vault.store.lookup key ∧ s'.vault.store = s.vault.store) fun _ _ => False := by
  refine Act.yields_context ?_
  unfold Yields
  have hcall : exec (hd.outside env server depth) (Act.get key) s
      = ((server.storage env s.vault (.get key)).1,
        { s with vault := (server.storage env s.vault (.get key)).2 }) := rfl
  rcases storage_get_cases env server s.vault key with ⟨h, -⟩ | ⟨err, -, hwhy⟩
  · rw [hcall, h]
    exact ⟨rfl, rfl⟩
  · rw [hf, hv] at hwhy
    simp at hwhy

theorem yields_list {pfx : Key} (hf : ∀ n, env.fails n (.list pfx) = false) (hv : validPrefix pfx = true) :
    Yields (hd.outside env server depth) ((Act.list pfx).context text) s
      (fun r s' => r = server.order (s.vault.store.list pfx) ∧ s'.vault.store = s.vault.store)
        fun _ _ => False := by
  refine Act.yields_context ?_
  unfold Yields
  have hcall : exec (hd.outside env server depth) (Act.list pfx) s
      = ((server.storage env s.vault (.list pfx)).1,
        { s with vault := (server.storage env s.vault (.list pfx)).2 }) := rfl
  rcases storage_list_cases env server s.vault pfx with ⟨h, -⟩ | ⟨err, -, hwhy⟩
  · rw [hcall, h]
    exact ⟨rfl, rfl⟩
  · rw [hf, hv] at hwhy
    simp at hwhy

theorem yields_delete {key : Key} (hf : ∀ n, env.fails n (.delete key) = false) (hv : validKey key = true) :
    Yields (hd.outside env server depth) ((Act.delete key).context text) s
      (fun _ s' => s'.vault.store = s.vault.store.erase key) fun _ _ => False := by
  refine Act.yields_context ?_
  unfold Yields
  have hcall : exec (hd.outside env server depth) (Act.delete key) s
      = ((server.storage env s.vault (.delete key)).1,
        { s with vault := (server.storage env s.vault (.delete key)).2 }) := rfl
  rcases storage_delete_cases env server s.vault key with ⟨h, -⟩ | ⟨err, -, hwhy⟩
  · rw [hcall, h]
    rfl
  · rw [hf, hv] at hwhy
    simp at hwhy

end Calls

/-- The record goes, and the lease is still there. -/
theorem revokeTree_blind (hd : Handler δ) (depth : Nat) (hslash : slash ∉ id) (hne : id ≠ []) :
    ((hd.revokeTree (depth + 1) exampleID).run (plainServer.answer (hd.blind id))
      (hd.exampleSite id)).2.vault.store
      = (hd.exampleSite id).vault.store.erase (hd.tokens.storeKey exampleID) := by
  have hwalk : YieldsState (hd.outside (hd.blind id) plainServer (depth + 1))
      (hd.tokens.revokeTree (some Act.cleanup)
        (TokenStore.maxTreeDepth + 1) exampleID (hd.tokens.hashID exampleID)) 0
      (hd.exampleSite id)
      (fun _ _ s' => s'.vault.store = (hd.exampleSite id).vault.store.erase (hd.tokens.storeKey exampleID))
      fun _ _ _ => False := by
    have hchildren : (hd.exampleSite id).vault.store.list (hd.tokens.indexPrefix exampleID) = [] := by
      refine list_eq_nil fun key hkey hchild => ?_
      have hbelow : childPrefix <+: key := by
        refine List.IsPrefix.trans ?_ hchild
        rw [TokenStore.indexPrefix, List.append_assoc]
        exact List.prefix_append _ _
      rcases mem_exampleSite.mp hkey with rfl | rfl
      · exact TokenStore.not_both hbelow (TokenStore.storePrefix_storeKey exampleID)
      · have hfirst : childPrefix.head? = some 0x73 := by decide_cbv
        obtain ⟨rest, hrest⟩ := hbelow
        have hhead := congrArg List.head? hrest
        rw [List.head?_append, hfirst, hd.head?_leaseKey] at hhead
        exact absurd hhead (by simp)
    have hplain : ∀ {call : Call}, call ≠ .get (hd.database.leaseKey id) →
        ∀ n, (hd.blind id).fails n call = false := by
      intro call hne n
      simpa [blind, Env.failing] using hne
    unfold TokenStore.revokeTree
    refine .bind (.stateless ((yields_list (hplain (by simp))
      (hd.tokens.validPrefix_indexPrefix exampleID)).mono ?_ fun _ _ hf => hf))
    rintro _ s₁ ⟨rfl, hs₁⟩
    rw [hchildren]
    refine .bind (.pure ?_)
    unfold TokenStore.revokeRecord
    refine .bind (.stateless ((yields_get (hplain ?_) (hd.tokens.validKey_storeKey exampleID)).mono ?_
      fun _ _ hf => hf))
    · exact fun heq => leaseKey_ne_storeKey id exampleID (Call.get.inj heq).symm
    · rintro _ s₂ ⟨rfl, hs₂⟩
      rw [hs₁, lookup_storeKey_exampleSite]
      have hs : s₂.vault.store = (hd.exampleSite id).vault.store := hs₂.trans hs₁
      have hcleanup : Yields (hd.outside (hd.blind id) plainServer (depth + 1)) (Act.cleanup exampleID) s₂
          (fun _ s' => s'.vault.store = (hd.exampleSite id).vault.store) fun _ _ => False := by
        obtain ⟨s', hrun, hs'⟩ := run_cleanupToken_blind depth hslash hne hs
        have hexec : exec (hd.outside (hd.blind id) plainServer (depth + 1))
            (Act.cleanup exampleID) s₂ = (.ok (), s') :=
          hrun
        unfold Yields
        rw [hexec]
        exact hs'.trans hs
      refine .bind (.stateless (hcleanup.mono ?_ fun _ _ hf => hf))
      intro _ s₃ hs₃
      refine .bind
        (.stateless ((yields_delete (hplain (by simp)) (hd.tokens.validKey_storeKey exampleID)).mono ?_
        fun _ _ hf => hf))
      intro _ s₄ hs₄
      rw [hd.tokens.json.unmarshal_marshal _ wf_exampleToken]
      refine .bind (.pure ?_)
      rw [hs₃] at hs₄
      exact hs₄
  obtain ⟨_, n, s', hrun, hs'⟩ := hwalk.returns
  unfold Handler.revokeTree
  rw [run_translate]
  have hend : (hd.tokens.revokeAll exampleID (some Act.cleanup)).run
      (hd.outside (hd.blind id) plainServer (depth + 1))
      (hd.exampleSite id) = ((.ok (), n), s') := hrun
  rw [hend]
  exact hs'

/-- If a lease need not be readable, its token can be deleted before it. -/
theorem not_cleansUp_blind (hd : Handler δ) (depth : Nat) (hslash : slash ∉ id)
    (hvalid : validKey id = true) :
    ¬ hd.CleansUp (hd.blind id) plainServer (hd.revokeTree (depth + 1) exampleID) (hd.exampleSite id) := by
  rintro ⟨-, hend⟩
  have hne : id ≠ [] := by
    rintro rfl
    simp [validKey] at hvalid
  have hstore := revokeTree_blind hd depth hslash hne
  have htok : exampleID ≠ [] := by decide +kernel
  rcases hend exampleID htok (mem_exampleSite.mpr (.inl rfl)) with hmem | hclean
  · rw [hstore, Finmap.mem_erase] at hmem
    exact hmem.1 rfl
  · refine hclean.leases id (exampleLease id) ?_ rfl
    rw [hd.database.leaseAt_eq_some, hstore]
    refine ⟨hslash, hvalid, _, ?_, hd.database.leaseJson.unmarshal_marshal _ (wf_exampleLease hvalid)⟩
    rw [Finmap.lookup_erase_ne (leaseKey_ne_storeKey id exampleID), lookup_leaseKey_exampleSite]

end Skipped

/--
**Cleanup is never skipped as long as leases can be read.**  Whatever else fails, no
record is deleted by a revocation or a sweep before everything of its token is gone, and
a token of which something is left keeps its record.  A single lease record that may be
unreadable is enough for the opposite.
-/
theorem cleanup_never_skipped_iff (hd : Handler δ) (depth : Nat) (may : Call → Prop) :
    (∀ env server s, (∀ n call, env.fails n call = true → may call) → hd.Sound s.vault.store →
      (∀ id, hd.CleansUp env server (hd.revokeTree (depth + 1) id) s) ∧
        ∀ limit, hd.CleansUp env server (hd.sweepExpired (depth + 1) limit) s) ↔
      ∀ id, slash ∉ id → validKey id = true → ¬ may (.get (hd.database.leaseKey id)) := by
  constructor
  · intro hall id hslash hvalid hmay
    refine not_cleansUp_blind hd depth hslash hvalid ?_
    refine (hall (hd.blind id) plainServer (hd.exampleSite id) ?_ (sound_exampleSite hvalid)).1 exampleID
    intro n call hfails
    have hcall : call = .get (hd.database.leaseKey id) := by simpa [blind, Env.failing] using hfails
    rw [hcall]
    exact hmay
  · intro hnot env server s hmay hsound
    have hreads : hd.LeasesRead env := by
      intro n id hslash hvalid
      rw [Bool.eq_false_iff]
      exact fun hfails => hnot id hslash hvalid (hmay n _ hfails)
    refine ⟨fun id => cleansUp_of_careful hsound ?_, fun limit => cleansUp_of_careful hsound ?_⟩
    · exact Safe.mono (walks_revokeTree hreads _ id) fun _ _ _ _ => trivial
    · exact careful_sweepExpired hreads limit _ s

/-- The handler of the vault, with encodings that hide nothing. -/
def transparent : Handler Bytes where
  tokens := ⟨Platform.transparent.sha256, Platform.transparent.tokenJson, 0⟩
  database := Engine.transparent
  cubbyhole := Cubbyhole.Engine.transparent
  format _ := []
  database_pfx := rfl
  database_plugin := rfl
  cubbyhole_pfx := rfl

/-- The read of one lease fails: its token is deleted, and the lease stays. -/
theorem lease_outlives_token :
    Handler.transparent.Sound (Handler.transparent.exampleSite (str "a")).vault.store ∧
      ¬ Handler.transparent.CleansUp (Handler.transparent.blind (str "a")) plainServer
        (Handler.transparent.revokeTree 1 exampleID) (Handler.transparent.exampleSite (str "a")) :=
  ⟨sound_exampleSite (by decide +kernel), not_cleansUp_blind _ 0 (by decide +kernel) (by decide +kernel)⟩

end Handler

end UbixVault.Database
