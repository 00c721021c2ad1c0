/-
What the callback of a revocation leaves behind.

Everything the callback does is to delete, so what was there is there or gone, and the
records of tokens are none of its business.  If it returns without an error and leases
could be read, nothing of its token is left: no lease, and nothing in the cubbyhole.
-/
import UbixVault.Api.Database
import UbixVault.Proofs.Cubbyhole
import UbixVault.Proofs.Database.Basic
import UbixVault.Proofs.Token.Index

namespace UbixVault.Database

open Program

variable {α δ : Type} {hd : Handler δ} {env : Env} {server : Server} {depth : Nat} {s s' : Site}
  {id tok : Bytes}

/-! ### Programs that only delete -/

/-- Not a write, and no deletion of a token's record. -/
def Op.Discards : Op → Prop
  | .vault call => (∀ key value, call ≠ .put key value) ∧ ∀ key, call = .delete key → ¬ storePrefix <+: key
  | _ => True

/-- What is left when records stay. -/
abbrev Discarded (store store' : Store) : Prop := Store.Pruned (fun key => ¬ storePrefix <+: key) store store'

theorem discarded_answer (env : Env) (server : Server) {op : Op} (hop : op.Discards) (s : Site) :
    Discarded s.vault.store (server.answer env s op).2.vault.store := by
  have hguarded : ∀ {β : Type} (op : Op) (reply : Except Err β × Site), reply.2.vault.store = s.vault.store →
      Discarded s.vault.store (server.guarded s op reply).2.vault.store := by
    intro β op reply hreply
    unfold Server.guarded
    split_ifs
    · exact .refl _ _
    · rw [hreply]
      exact .refl _ _
  cases op with
  | vault call =>
    show Discarded s.vault.store (env.answer s.vault call).2.store
    by_cases hreads : call.Reads
    · rw [Env.answer_reads hreads]
      exact .refl _ _
    · cases call with
      | delete key =>
        rcases Env.answer_delete_cases env s.vault key with h | ⟨err, h⟩
        · rw [h]
          refine (Store.Cleared.erase _ _).pruned.mono ?_
          rintro _ rfl
          exact hop.2 _ rfl
        · rw [h]
          exact .refl _ _
      | put key value => exact absurd rfl (hop.1 key value)
      | _ => exact absurd ⟨by nofun, by nofun⟩ hreads
  | isReady | setReady | conn | close => exact .refl _ _
  | connect | beginTx | exec | commit | hosts | dropUser => exact hguarded _ _ rfl

theorem discarded_run (env : Env) (server : Server) {p : DbProg α} (hp : Within Op.Discards p) (s : Site) :
    Discarded s.vault.store (p.run (server.answer env) s).2.vault.store := by
  induction p generalizing s with
  | ret a => exact .refl _ _
  | step op next ih => exact (discarded_answer env server hp.1 s).trans (ih _ (hp.2 _) _)

/-- A program of the vault that only reads. -/
theorem within_vault {x : Act α} (hx : Within (fun call => (Op.vault call).Discards) x.run) :
    Within Op.Discards (DbAct.vault x).run := hx.translate fun _ hcall => .perform hcall

theorem discards_reads {call : Call} (h : call.Reads) : (Op.vault call).Discards :=
  ⟨h.1, fun key heq => absurd heq (h.2 key)⟩

namespace Handler

/-! ### The callback only deletes -/

/-- The first letter tells the parts of the store apart. -/
theorem head?_leaseKey (hd : Handler δ) (id : Bytes) : (hd.database.leaseKey id).head? = some 0x64 := by
  have hfirst : (str "database").head? = some 0x64 := by decide_cbv
  rw [Engine.leaseKey, Engine.leasePrefix, hd.database_pfx, List.append_assoc, List.head?_append, hfirst]
  rfl

theorem head?_of_tokenScope (hd : Handler δ) {key : Key} (hkey : hd.cubbyhole.tokenScope tok <+: key) :
    key.head? = some 0x63 := by
  have hfirst : (str "cubbyhole").head? = some 0x63 := by decide_cbv
  obtain ⟨rest, rfl⟩ := hkey
  rw [Cubbyhole.Engine.tokenScope, hd.cubbyhole_pfx, List.append_assoc, List.append_assoc, List.append_assoc,
    List.head?_append, hfirst]
  rfl

theorem head?_of_record {key : Key} (hkey : storePrefix <+: key) : key.head? = some 0x73 := by
  have hfirst : storePrefix.head? = some 0x73 := by decide_cbv
  obtain ⟨rest, rfl⟩ := hkey
  rw [List.head?_append, hfirst]
  rfl

theorem not_record_leaseKey (hd : Handler δ) (id : Bytes) : ¬ storePrefix <+: hd.database.leaseKey id := by
  intro h
  have hhead := (head?_of_record h).symm.trans (hd.head?_leaseKey id)
  exact absurd hhead (by decide)

theorem not_record_tokenScope (hd : Handler δ) {key : Key} (hkey : hd.cubbyhole.tokenScope tok <+: key) :
    ¬ storePrefix <+: key := by
  intro h
  have hhead := (head?_of_record h).symm.trans (hd.head?_of_tokenScope hkey)
  exact absurd hhead (by decide)

theorem within_loadLease (e : Engine) (id : Bytes) :
    Within Op.Discards (DbAct.vault (e.loadLease id)).run := by
  refine within_vault (.bindExcept (.adapt _ (.perform (discards_reads ⟨by nofun, by nofun⟩))) fun o => ?_)
  cases o with
  | none => trivial
  | some blob =>
    dsimp only
    cases e.leaseJson.unmarshal blob with
    | none => trivial
    | some l => trivial

theorem within_readConfig (e : Engine) : Within Op.Discards (DbAct.vault e.readConfig).run := by
  refine within_vault (.bindExcept (.adapt _ (.perform (discards_reads ⟨by nofun, by nofun⟩))) fun o => ?_)
  cases o with
  | none => trivial
  | some blob =>
    dsimp only
    cases e.configJson.unmarshal blob with
    | none => trivial
    | some url => trivial

theorem within_dropAll (username : Bytes) (hosts : List Bytes) :
    Within Op.Discards (Mariadb.dropAll username hosts).run := by
  induction hosts with
  | nil => trivial
  | cons host rest ih => exact .bindExcept (.adapt _ (.perform trivial)) fun _ => ih

theorem within_conn : Within Op.Discards Mariadb.conn.run := by
  refine .bindExcept (x := liftM (perform Op.conn : DbProg Bool)) (.perform trivial) fun b => ?_
  cases b <;> trivial

theorem within_revokeUser (username : Bytes) : Within Op.Discards (Mariadb.revokeUser username).run :=
  .bindExcept within_conn fun _ => .bindExcept (.adapt _ (.perform trivial))
    fun hosts => within_dropAll username hosts

theorem within_ensureReady : Within Op.Discards hd.database.ensureReady.run := by
  unfold Engine.ensureReady
  refine .bindExcept (x := liftM (perform Op.isReady : DbProg Bool)) (.perform trivial) fun b => ?_
  cases b with
  | true => trivial
  | false =>
    refine .bindExcept (within_readConfig _) fun url => ?_
    rw [hd.database_plugin]
    refine .bindExcept (.adapt _ (.adapt _ (.perform trivial))) fun _ => ?_
    exact .perform trivial

theorem within_revoke (id : Bytes) : Within Op.Discards (hd.database.revoke id).run := by
  refine .bindExcept within_ensureReady fun _ => .bindExcept (within_loadLease _ _) fun l => ?_
  rw [hd.database_plugin]
  refine .bindExcept (.adapt _ (within_revokeUser _)) fun _ => within_vault (.adapt _ (.perform ?_))
  refine ⟨by nofun, fun key hkey => ?_⟩
  cases hkey
  exact hd.not_record_leaseKey id

theorem within_revokeEach (wanted : Lease → Bool) (ids : List Key) (revoked : Nat) :
    Within Op.Discards (hd.database.revokeEach wanted ids revoked) := by
  induction ids generalizing revoked with
  | nil => trivial
  | cons id ids ih =>
    refine .bind (within_loadLease _ _) fun r => ?_
    cases r with
    | error err => exact ih _
    | ok l =>
      dsimp only
      split_ifs
      · exact ih _
      · refine .bind (within_revoke id) fun r => ?_
        cases r with
        | error err => trivial
        | ok => exact ih _

theorem within_revokeByToken (id : Bytes) : Within Op.Discards (hd.database.revokeByToken id) := by
  unfold Engine.revokeByToken
  split_ifs
  · trivial
  · refine .bind (within_vault (.adapt _ (.perform (discards_reads ⟨by nofun, by nofun⟩)))) fun r => ?_
    cases r with
    | error err => trivial
    | ok ids => exact within_revokeEach _ _ _

theorem within_destroy (id : Bytes) :
    Within Op.Discards (DbAct.vault (hd.cubbyhole.destroy depth id)).run := by
  refine within_vault (.adapt _ (Cubbyhole.within_deleteTree ?_ ?_ depth (List.prefix_refl _)))
  · exact fun pfx _ => discards_reads ⟨by nofun, by nofun⟩
  · intro key hkey
    refine ⟨by nofun, fun key' heq => ?_⟩
    cases heq
    exact hd.not_record_tokenScope hkey

theorem within_cleanupToken (id : Bytes) : Within Op.Discards (hd.cleanupToken depth id).run := by
  refine .bind (within_revokeByToken id) fun r => ?_
  obtain ⟨r, n⟩ := r
  cases r with
  | error err => trivial
  | ok => exact within_destroy id

/-! ### What the callback leaves -/

/-- Nothing of a token is left. -/
structure Clean (hd : Handler δ) (store : Store) (tok : Bytes) : Prop where
  leases : ∀ id l, hd.database.leaseAt store id = some l → l.createdBy ≠ tok
  cubbyhole : ∀ key, hd.cubbyhole.tokenScope tok <+: key → store.lookup key = none

/-- Keys are as the storage accepts them, and a record stands under the hash of its token. -/
structure Sound (hd : Handler δ) (store : Store) : Prop where
  keys : ∀ key ∈ store, validKey key = true
  records : ∀ name blob t, store.lookup (storePrefix ++ name) = some blob →
    hd.tokens.json.unmarshal blob = some t → name = hd.tokens.hashID t.id

variable {kind : Key → Prop} {store store' : Store}

theorem leaseAt_pruned {e : Engine} (h : Store.Pruned kind store store') {l : Lease}
    (hl : e.leaseAt store' id = some l) : e.leaseAt store id = some l := by
  rw [e.leaseAt_eq_some] at hl ⊢
  obtain ⟨hslash, hvalid, blob, hlookup, hjson⟩ := hl
  exact ⟨hslash, hvalid, blob, h.some hlookup, hjson⟩

theorem Clean.pruned (hclean : hd.Clean store tok) (h : Store.Pruned kind store store') :
    hd.Clean store' tok where
  leases id l hl := hclean.leases id l (leaseAt_pruned h hl)
  cubbyhole key hkey := h.none (hclean.cubbyhole key hkey)

theorem Sound.pruned (hsound : hd.Sound store) (h : Store.Pruned kind store store') : hd.Sound store' where
  keys key hkey := hsound.keys key (h.mem hkey)
  records name blob t hlookup := hsound.records name blob t (h.some hlookup)

/-- Reads of leases do not fail. -/
def LeasesRead (hd : Handler δ) (env : Env) : Prop :=
  ∀ n id, slash ∉ id → validKey id = true → env.fails n (.get (hd.database.leaseKey id)) = false

/-- A lease that was revoked is not recorded any more. -/
theorem leaseAt_of_revoke {id : Bytes}
    (hrun : (hd.database.revoke id).run.run (server.answer env) s = (.ok (), s')) :
    hd.database.leaseAt s'.vault.store id = none := by
  have hrun' : exec (server.answer env) (hd.database.revoke id) s = (.ok (), s') := hrun
  obtain ⟨_, s₁, -, hrun'⟩ := exec_bind_eq_ok _ hrun'
  obtain ⟨l, s₂, -, hrun'⟩ := exec_bind_eq_ok _ hrun'
  obtain ⟨_, s₃, -, hrun'⟩ := exec_bind_eq_ok _ hrun'
  rw [exec_vault, Prod.mk.injEq] at hrun'
  obtain ⟨hok, hs'⟩ := hrun'
  obtain ⟨w, hdelete, rfl⟩ : ∃ w, exec (server.storage env) (Act.delete (hd.database.leaseKey id))
      s₃.vault = (.ok (), w) ∧ s' = { s₃ with vault := w } :=
    ⟨_, (Act.exec_context_eq_ok _ _).mp (Prod.ext hok rfl), hs'.symm⟩
  have hlookup : w.store.lookup (hd.database.leaseKey id) = none := by
    rw [Act.exec_delete] at hdelete
    rcases storage_delete_cases env server s₃.vault (hd.database.leaseKey id) with ⟨h, -⟩ | ⟨err, h, -⟩
    · cases h.symm.trans hdelete
      exact Finmap.lookup_erase _ _
    · cases h.symm.trans hdelete
  rw [Option.eq_none_iff_forall_not_mem]
  intro l hl
  obtain ⟨-, -, blob, hblob, -⟩ := hd.database.leaseAt_eq_some.mp hl
  rw [hlookup] at hblob
  cases hblob

/-- The leases that are wanted are gone, if every one could be read. -/
theorem revokeEach_spec (hreads : hd.LeasesRead env) (wanted : Lease → Bool) (ids : List Key)
    (hids : ∀ id ∈ ids, validKey id = true → slash ∉ id) {revoked n : Nat} {s s' : Site}
    (hrun : (hd.database.revokeEach wanted ids revoked).run (server.answer env) s = ((.ok (), n), s')) :
    ∀ id ∈ ids, ∀ l, hd.database.leaseAt s'.vault.store id = some l → wanted l = false := by
  induction ids generalizing revoked s with
  | nil => simp
  | cons id ids ih =>
    rw [List.forall_mem_cons] at hids
    have hpruned : ∀ {revoked : Nat} {s₁ : Site},
        (hd.database.revokeEach wanted ids revoked).run (server.answer env) s₁ = ((.ok (), n), s') →
        Discarded s₁.vault.store s'.vault.store := by
      intro revoked s₁ hrest
      have h := discarded_run env server (hd.within_revokeEach wanted ids revoked) s₁
      rwa [hrest] at h
    unfold Engine.revokeEach at hrun
    rw [run_bind] at hrun
    rw [List.forall_mem_cons]
    have hvault : (DbAct.vault (hd.database.loadLease id)).run.run (server.answer env) s
      = _ := exec_vault (hd.database.loadLease id) s
    rw [hvault] at hrun
    rcases hd.database.loadLease_cases env server hids.1 s.vault with ⟨l, hload, hl⟩ | ⟨err, hload, hwhy⟩
    · rw [hload] at hrun
      dsimp only at hrun
      by_cases hwanted : wanted l = true
      · rw [if_neg (by simp [hwanted]), run_bind] at hrun
        rcases hrevoke : (hd.database.revoke id).run.run (server.answer env)
          { s with vault := s.vault.next } with ⟨r, s₁⟩
        rw [hrevoke] at hrun
        cases r with
        | error err => cases hrun
        | ok =>
          refine ⟨fun l' hl' => ?_, ih hids.2 hrun⟩
          have hgone := leaseAt_of_revoke hrevoke
          rw [leaseAt_pruned (hpruned hrun) hl'] at hgone
          cases hgone
      · rw [if_pos (by simpa using hwanted)] at hrun
        refine ⟨fun l' hl' => ?_, ih hids.2 hrun⟩
        have hsame : hd.database.leaseAt s.vault.store id = some l' := leaseAt_pruned (hpruned hrun) hl'
        rw [hl] at hsame
        cases hsame
        simpa using hwanted
    · rw [hload] at hrun
      dsimp only at hrun
      refine ⟨fun l' hl' => ?_, ih hids.2 hrun⟩
      have hthere : hd.database.leaseAt s.vault.store id = some l' := leaseAt_pruned (hpruned hrun) hl'
      obtain ⟨hslash, hvalid, -⟩ := hd.database.leaseAt_eq_some.mp hthere
      rcases hwhy with hfails | hnone
      · rw [hreads _ _ hslash hvalid] at hfails
        cases hfails
      · rw [hnone] at hthere
        cases hthere

/-- Where leases can be read, no lease of the token is left. -/
theorem revokeByToken_spec (hreads : hd.LeasesRead env) (htok : tok ≠ []) {n : Nat}
    (hrun : (hd.database.revokeByToken tok).run (server.answer env) s = ((.ok (), n), s')) :
    ∀ id l, hd.database.leaseAt s'.vault.store id = some l → l.createdBy ≠ tok := by
  have hpruned := discarded_run env server (hd.within_revokeByToken tok) s
  rw [hrun] at hpruned
  unfold Engine.revokeByToken at hrun
  rw [if_neg htok, run_bind] at hrun
  have hvault : hd.database.listLeases.run.run (server.answer env) s = _ := exec_vault _ s
  rw [hvault] at hrun
  rcases storage_list_cases env server s.vault hd.database.leasePrefix with ⟨hlist, -⟩ | ⟨err, hlist, -⟩
  · have hok : exec (server.storage env)
        ((Act.list hd.database.leasePrefix).context "database: list leases") s.vault
        = (.ok (server.order (s.vault.store.list hd.database.leasePrefix)), s.vault.next) :=
      (Act.exec_context_eq_ok _ _).mpr hlist
    rw [hok] at hrun
    dsimp only at hrun
    have hmem : ∀ {id}, id ∈ server.order (s.vault.store.list hd.database.leasePrefix) ↔
        id ∈ s.vault.store.list hd.database.leasePrefix := (server.order_perm _).mem_iff
    intro id l hl
    have hspec := revokeEach_spec hreads _ _
      (fun id hid => hd.database.slash_notMem_of_listed (hmem.mp hid)) hrun id
      (hmem.mpr (hd.database.mem_list_of_leaseAt (leaseAt_pruned hpruned hl))) l hl
    simpa using hspec
  · obtain ⟨err', herr⟩ : ∃ err', exec (server.storage env)
        ((Act.list hd.database.leasePrefix).context "database: list leases") s.vault
          = (.error err', s.vault.next) :=
      ⟨_, (Act.exec_context_eq_error _ _).mpr ⟨err, hlist, rfl⟩⟩
    rw [herr] at hrun
    cases hrun

/-- A storage that may fail is one that prunes. -/
theorem prunes_storage (env : Env) (server : Server) :
    Cubbyhole.Prunes (server.storage env) World.store True where
  delete w key := by
    unfold Yields
    rw [Act.exec_delete]
    rcases storage_delete_cases env server w key with ⟨h, -⟩ | ⟨err, h, -⟩
    · rw [h]
      rfl
    · rw [h]
      exact ⟨rfl, fun _ => trivial⟩
  list w pfx := by
    unfold Yields
    rw [Act.exec_list]
    rcases storage_list_cases env server w pfx with ⟨h, -⟩ | ⟨err, h, -⟩
    · rw [h]
      exact ⟨rfl, fun c => (server.order_perm _).mem_iff⟩
    · rw [h]
      exact ⟨rfl, fun _ => trivial⟩

/-- **After the callback nothing of the token is left.** -/
theorem cleanupToken_spec (hreads : hd.LeasesRead env) (hkeys : ∀ key ∈ s.vault.store, validKey key = true)
    (htok : tok ≠ []) (hrun : (hd.cleanupToken depth tok).run.run (server.answer env) s = (.ok (), s')) :
    hd.Clean s'.vault.store tok := by
  have hrun' : (hd.database.revokeByToken tok >>= _).run (server.answer env) s = (Except.ok (), s') := hrun
  rw [run_bind] at hrun'
  have hdiscarded := discarded_run env server (hd.within_revokeByToken tok) s
  rcases hrevoke : (hd.database.revokeByToken tok).run (server.answer env) s with ⟨⟨r, n⟩, s₁⟩
  rw [hrevoke] at hrun' hdiscarded
  cases r with
  | error err => cases hrun'
  | ok =>
    have hdestroy : exec (server.answer env) (DbAct.vault (hd.cubbyhole.destroy depth tok)) s₁
        = (.ok (), s') := hrun'
    rw [exec_vault, Prod.mk.injEq] at hdestroy
    obtain ⟨hok, rfl⟩ := hdestroy
    have htree : Yields (server.storage env) (hd.cubbyhole.destroy depth tok) s₁.vault
        (fun _ w' => Store.Cleared (hd.cubbyhole.tokenScope tok <+: ·) s₁.vault.store w'.store)
          fun _ _ => True :=
      Act.yields_context ((Cubbyhole.deleteTree_spec (prunes_storage env server)
        (fun key hkey => hkeys key (hdiscarded.mem hkey)) depth (Cubbyhole.getLast?_tokenScope tok)
        fun _ hkey => hkey).mono (fun _ _ hcleared => hcleared) fun _ _ _ => trivial)
    have hcleared := htree.of_ok (Prod.ext hok rfl)
    refine ⟨fun id l hl => ?_, hcleared.gone⟩
    exact revokeByToken_spec hreads htok hrevoke id l (leaseAt_pruned hcleared.pruned hl)

end Handler

end UbixVault.Database
