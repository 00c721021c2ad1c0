/-
Sweeping expired leases.

`RevokeExpired` goes through the leases in the order of the listing and stops at the
first one it cannot revoke.  What it has done by then is said by `sweep_spec`: the
leases before that one which had expired are gone, with their users, and nothing else
has changed.  So an expired lease behind one whose user cannot be dropped stays.
-/
import UbixVault.Proofs.Database.Basic

namespace UbixVault.Database

open Program

/-- The drop of these users fails, and nothing else does. -/
def dropFails (bad : Bytes → Bool) : Site → Op → Bool
  | _, .dropUser account => bad account.user
  | _, _ => false

/-- The user is there and cannot be dropped. -/
def Site.stuck (s : Site) (bad : Bytes → Bool) (username : Bytes) : Prop :=
  bad username = true ∧ ∃ a ∈ s.accounts, a.user = username

instance decidableStuck (s : Site) (bad : Bytes → Bool) (username : Bytes) :
    Decidable (s.stuck bad username) :=
  inferInstanceAs (Decidable (_ ∧ ∃ a ∈ s.accounts, _))

section Server

variable {env : Env} {server : Server} {bad : Bytes → Bool} {s s' : Site} {format : Time → Bytes}

/-! ### Dropping a user -/

/-- Dropping a user drops all its accounts, or none. -/
theorem exec_revokeUser (env : Env) (hfails : server.fails = dropFails bad) (hconn : s.connected = true)
    (username : Bytes) :
    (s.stuck bad username ∧
        ∃ err, exec (server.answer env) (Mariadb.revokeUser username) s = (.error err, s)) ∨
      ¬ s.stuck bad username ∧ exec (server.answer env) (Mariadb.revokeUser username) s
        = (.ok (), { s with accounts := s.accounts.filter (·.user ≠ username) }) := by
  have hhosts : ∀ s, server.fails s (.hosts username) = false := fun s => by rw [hfails]; rfl
  cases hbad : bad username with
  | false =>
    refine .inr ⟨fun h => absurd (hbad.symm.trans h.1) Bool.false_ne_true, ?_⟩
    exact exec_revokeUser_ok env hhosts (fun s host => by rw [hfails]; exact hbad) hconn
  | true =>
    have hconn' : exec (server.answer env) Mariadb.conn s = (.ok (), s) := by
      rw [exec_conn, if_pos hconn]
    unfold Mariadb.revokeUser
    rw [exec_bind_ok _ hconn', exec_bind_ok _ (exec_hosts env (hhosts s))]
    by_cases hfound : ∃ a ∈ s.accounts, a.user = username
    · obtain ⟨a, ha, hu⟩ := hfound
      have hmem : a ∈ s.accounts.filter (·.user = username) := by simp [ha, hu]
      obtain ⟨first, rest, hfilter⟩ := List.exists_cons_of_ne_nil (List.ne_nil_of_mem hmem)
      refine .inl ⟨⟨hbad, a, ha, hu⟩, .wrap "mariadb: drop user" .outside, ?_⟩
      rw [hfilter]
      refine exec_bind_error _ ?_ _
      rw [exec_context]
      show (Except.mapError _ (server.guarded s (.dropUser _) _).1,
        (server.guarded s (.dropUser _) _).2) = _
      rw [guarded_fail (by rw [hfails]; exact hbad)]
      rfl
    · refine .inr ⟨fun h => hfound h.2, ?_⟩
      have hnone : ∀ a ∈ s.accounts, ¬ a.user = username := fun a ha hu => hfound ⟨a, ha, hu⟩
      rw [List.filter_eq_nil_iff.mpr (by simpa using hnone),
        List.filter_eq_self.mpr (by simpa using hnone)]
      rfl

/-! ### Revoking a lease -/

variable {e : Engine}

/-- Nothing is stored or created, and the engine can go on. -/
structure Kept (e : Engine) (s s' : Site) : Prop where
  store : s'.vault.store = s.vault.store
  accounts : s'.accounts = s.accounts
  usable : s'.usable e = true

theorem usable_of_connected (hready : s.ready = true) (hconn : s.connected = true) : s.usable e = true := by
  unfold Site.usable
  rw [if_pos hready]
  exact hconn

theorem exec_ensureReady (hworks : env.Works) (hplugin : e.plugin = Mariadb.plugin format)
    (hfails : server.fails = dropFails bad) (husable : s.usable e = true) :
    ∃ s₁, exec (server.answer env) e.ensureReady s = (.ok (), s₁) ∧ e.Readied s s₁ := by
  rcases e.ensureReady_cases env server hplugin s with h | ⟨-, -, -, -, -, hwhy⟩
  · exact h
  · rcases hwhy with hnot | hf | ⟨s₁, url, hf⟩
    · simp [husable] at hnot
    · simp [hworks s.vault.tick] at hf
    · rw [hfails] at hf
      cases hf

/-- The lease is gone, and its user with it. -/
structure Revoked (e : Engine) (s : Site) (id : Bytes) (l : Lease) (s' : Site) : Prop where
  store : s'.vault.store = s.vault.store.erase (e.leaseKey id)
  accounts : s'.accounts = s.accounts.filter (·.user ≠ l.username)
  usable : s'.usable e = true

theorem exec_revoke (hworks : env.Works) (hplugin : e.plugin = Mariadb.plugin format)
    (hfails : server.fails = dropFails bad) (husable : s.usable e = true) {id : Bytes} {l : Lease}
    (hlease : e.leaseAt s.vault.store id = some l) :
    (s.stuck bad l.username ∧
        ∃ err s₁, exec (server.answer env) (e.revoke id) s = (.error err, s₁) ∧ Kept e s s₁) ∨
      ¬ s.stuck bad l.username ∧
        ∃ s₁, exec (server.answer env) (e.revoke id) s = (.ok (), s₁) ∧ Revoked e s id l s₁ := by
  obtain ⟨hslash, hvalid, -⟩ := e.leaseAt_eq_some.mp hlease
  obtain ⟨s₁, hensure, hkept⟩ := exec_ensureReady hworks hplugin hfails husable
  have hconn : s₁.connected = true := hkept.connected.trans husable
  have hload : exec (server.answer env) (DbAct.vault (e.loadLease id)) s₁
      = (.ok l, { s₁ with vault := s₁.vault.next }) := by
    refine exec_vault_eq ?_
    rcases e.loadLease_cases env server (fun _ => hslash) s₁.vault with
      ⟨l', hload, hl'⟩ | ⟨err, -, hf | hnone⟩
    · rw [hkept.store, hlease, Option.some.injEq] at hl'
      exact hl' ▸ hload
    · simp [hworks s₁.vault.tick] at hf
    · simp [hkept.store, hlease] at hnone
  unfold Engine.revoke
  rw [exec_bind_ok _ hensure, exec_bind_ok _ hload, hplugin]
  generalize hs₂ : ({ s₁ with vault := s₁.vault.next } : Site) = s₂
  have hconn₂ : s₂.connected = true := hs₂ ▸ hconn
  have hkept₂ : Kept e s s₂ := by
    subst hs₂
    exact ⟨hkept.store, hkept.accounts, usable_of_connected hkept.ready hconn⟩
  have hstuck : s₂.stuck bad l.username ↔ s.stuck bad l.username := by
    unfold Site.stuck
    rw [hkept₂.accounts]
  rcases exec_revokeUser env hfails hconn₂ l.username with
    ⟨hstuck₂, err, hrun⟩ | ⟨hfree, hrun⟩
  · refine .inl ⟨hstuck.mp hstuck₂, .wrap "database: revoke user" err, s₂, ?_, hkept₂⟩
    refine exec_bind_error _ ?_ _
    show exec _ ((Mariadb.revokeUser l.username).context _) s₂ = _
    rw [exec_context, hrun]
    rfl
  · refine .inr ⟨fun h => hfree (hstuck.mpr h), ?_⟩
    have hdropped : exec (server.answer env)
        (((Mariadb.plugin format).revokeUser l.username).context "database: revoke user") s₂
          = (.ok (), { s₂ with accounts := s₂.accounts.filter (·.user ≠ l.username) }) := by
      show exec _ ((Mariadb.revokeUser l.username).context _) s₂ = _
      rw [exec_context, hrun]
      rfl
    rw [exec_bind_ok _ hdropped]
    have hdeleted : exec (server.storage env)
        ((Act.delete (e.leaseKey id)).context "database: delete lease") s₂.vault
          = (.ok (), s₂.vault.write (s₂.vault.store.erase (e.leaseKey id))) :=
      (Act.exec_context_eq_ok _ _).mpr (storage_delete server hworks (e.validKey_leaseKey id ▸ hvalid))
    refine ⟨_, exec_vault_eq hdeleted, ?_, ?_, ?_⟩
    · exact congrArg (Finmap.erase (e.leaseKey id)) hkept₂.store
    · exact congrArg (List.filter _) hkept₂.accounts
    · exact usable_of_connected (hs₂ ▸ hkept.ready) (hs₂ ▸ hconn)

/-! ### The loop -/

/-- What the loop has done when it got through the leases `ids`. -/
structure Swept (e : Engine) (s : Site) (due : Lease → Bool) (ids : List Key) (s' : Site) :
    Prop where
  gone : ∀ id ∈ ids, ∀ l, e.leaseAt s.vault.store id = some l → due l = true →
    s'.vault.store.lookup (e.leaseKey id) = none
  kept : ∀ key, (∀ id ∈ ids, ∀ l, e.leaseAt s.vault.store id = some l → due l = true →
    key ≠ e.leaseKey id) → s'.vault.store.lookup key = s.vault.store.lookup key
  accounts : ∀ a, a ∈ s'.accounts ↔ a ∈ s.accounts ∧ ∀ id ∈ ids, ∀ l,
    e.leaseAt s.vault.store id = some l → due l = true → a.user ≠ l.username

theorem leaseAt_erase {store : Store} {id id' : Bytes} (hne : id' ≠ id) :
    e.leaseAt (store.erase (e.leaseKey id)) id' = e.leaseAt store id' := by
  unfold Engine.leaseAt
  rw [Finmap.lookup_erase_ne fun h => hne (e.leaseKey_injective h)]

namespace Swept

variable {due : Lease → Bool} {id : Bytes} {ids : List Key} {l : Lease} {s₁ : Site}

theorem nil (hkept : Kept e s s') : Swept e s due [] s' where
  gone := by simp
  kept key _ := by rw [hkept.store]
  accounts a := by simp [hkept.accounts]

/-- Passing over a lease that is not due. -/
theorem skip (hskip : ∀ l, e.leaseAt s.vault.store id = some l → due l = false)
    (h : Swept e s due ids s') : Swept e s due (id :: ids) s' := by
  have hnot : ∀ l, e.leaseAt s.vault.store id = some l → ¬ due l = true := by
    intro l hl
    simp [hskip l hl]
  constructor
  · intro id' hid' l' hl' hdue
    rcases List.mem_cons.mp hid' with rfl | hid'
    · exact absurd hdue (hnot l' hl')
    · exact h.gone id' hid' l' hl' hdue
  · intro key hkey
    exact h.kept key fun id' hid' => hkey id' (List.mem_cons_of_mem _ hid')
  · intro a
    rw [h.accounts]
    refine and_congr_right fun _ => ⟨?_, ?_⟩
    · intro hall id' hid' l' hl' hdue
      rcases List.mem_cons.mp hid' with rfl | hid'
      · exact absurd hdue (hnot l' hl')
      · exact hall id' hid' l' hl' hdue
    · intro hall id' hid'
      exact hall id' (List.mem_cons_of_mem _ hid')

/-- Revoking one and then the others. -/
theorem cons (hlease : e.leaseAt s.vault.store id = some l) (hdue : due l = true)
    (hnotMem : id ∉ ids) (hrevoked : Revoked e s id l s₁) (h : Swept e s₁ due ids s') :
    Swept e s due (id :: ids) s' := by
  have hat : ∀ id' ∈ ids, e.leaseAt s₁.vault.store id' = e.leaseAt s.vault.store id' := by
    intro id' hid'
    rw [hrevoked.store]
    exact leaseAt_erase fun heq => hnotMem (heq ▸ hid')
  constructor
  · intro id' hid' l' hl' hdue'
    rcases List.mem_cons.mp hid' with rfl | hid'
    · rw [h.kept]
      · rw [hrevoked.store]
        exact Finmap.lookup_erase _ _
      · intro id'' hid'' _ _ _ heq
        exact hnotMem (e.leaseKey_injective heq ▸ hid'')
    · exact h.gone id' hid' l' (hat id' hid' ▸ hl') hdue'
  · intro key hkey
    rw [h.kept key fun id' hid' l' hl' =>
      hkey id' (List.mem_cons_of_mem _ hid') l' (hat id' hid' ▸ hl'), hrevoked.store]
    exact Finmap.lookup_erase_ne (hkey id List.mem_cons_self l hlease hdue)
  · intro a
    rw [h.accounts, hrevoked.accounts, List.mem_filter, decide_eq_true_eq, and_assoc]
    refine and_congr_right fun _ => ⟨?_, ?_⟩
    · rintro ⟨huser, hall⟩ id' hid' l' hl' hdue'
      rcases List.mem_cons.mp hid' with rfl | hid'
      · rw [hlease, Option.some.injEq] at hl'
        exact hl' ▸ huser
      · exact hall id' hid' l' ((hat id' hid').trans hl') hdue'
    · intro hall
      refine ⟨hall id List.mem_cons_self l hlease hdue, fun id' hid' l' hl' => ?_⟩
      exact hall id' (List.mem_cons_of_mem _ hid') l' ((hat id' hid').symm.trans hl')

end Swept

/-- Users that cannot be dropped are not dropped. -/
theorem Revoked.stuck_iff {id : Bytes} {l : Lease} (h : Revoked e s id l s')
    (hfree : ¬ s.stuck bad l.username)
    (username : Bytes) : s'.stuck bad username ↔ s.stuck bad username := by
  unfold Site.stuck
  rw [h.accounts]
  constructor
  · rintro ⟨hbad, a, ha, huser⟩
    exact ⟨hbad, a, (List.mem_filter.mp ha).1, huser⟩
  · rintro ⟨hbad, a, ha, rfl⟩
    refine ⟨hbad, a, List.mem_filter.mpr ⟨ha, ?_⟩, rfl⟩
    rw [decide_eq_true_eq]
    intro heq
    exact hfree (heq ▸ ⟨hbad, a, ha, rfl⟩)

/-- The loop has got through the leases before the first that is due and whose user is stuck. -/
def Through (e : Engine) (s : Site) (bad : Bytes → Bool) (due : Lease → Bool) (ids : List Key)
    (s' : Site) : Prop :=
  ∃ done rest, ids = done ++ rest ∧ Swept e s due done s' ∧
    (∀ id ∈ done, ∀ l, e.leaseAt s.vault.store id = some l → due l = true →
      ¬ s.stuck bad l.username) ∧
    ∀ id ∈ rest.head?, ∃ l, e.leaseAt s.vault.store id = some l ∧ due l = true ∧
      s.stuck bad l.username

namespace Through

variable {due : Lease → Bool} {id : Bytes} {ids : List Key} {l : Lease} {s₁ : Site}

theorem nil (hkept : Kept e s s') : Through e s bad due [] s' :=
  ⟨[], [], rfl, .nil hkept, by simp, by simp⟩

theorem skip (hskip : ∀ l, e.leaseAt s.vault.store id = some l → due l = false)
    (h : Through e s bad due ids s') : Through e s bad due (id :: ids) s' := by
  obtain ⟨done, rest, rfl, hswept, hfree, hrest⟩ := h
  refine ⟨id :: done, rest, rfl, .skip hskip hswept, ?_, hrest⟩
  intro id' hid' l hl hdue
  rcases List.mem_cons.mp hid' with rfl | hid'
  · rw [hskip l hl] at hdue
    cases hdue
  · exact hfree id' hid' l hl hdue

theorem stop (hlease : e.leaseAt s.vault.store id = some l) (hdue : due l = true)
    (hstuck : s.stuck bad l.username) (hkept : Kept e s s') : Through e s bad due (id :: ids) s' := by
  refine ⟨[], id :: ids, rfl, .nil hkept, by simp, ?_⟩
  rintro id' ⟨⟩
  exact ⟨l, hlease, hdue, hstuck⟩

theorem cons (hlease : e.leaseAt s.vault.store id = some l) (hdue : due l = true)
    (hfree : ¬ s.stuck bad l.username) (hnotMem : id ∉ ids) (hrevoked : Revoked e s id l s₁)
    (h : Through e s₁ bad due ids s') : Through e s bad due (id :: ids) s' := by
  obtain ⟨done, rest, rfl, hswept, hfree', hrest⟩ := h
  have hat : ∀ id' ∈ done ++ rest, e.leaseAt s₁.vault.store id' = e.leaseAt s.vault.store id' := by
    intro id' hid'
    rw [hrevoked.store]
    exact leaseAt_erase fun heq => hnotMem (heq ▸ hid')
  have hstuck := hrevoked.stuck_iff hfree
  refine ⟨id :: done, rest, rfl, .cons hlease hdue ?_ hrevoked hswept, ?_, ?_⟩
  · exact fun h => hnotMem (List.mem_append_left _ h)
  · intro id' hid' l' hl' hdue' hs
    rcases List.mem_cons.mp hid' with rfl | hid'
    · rw [hlease, Option.some.injEq] at hl'
      exact hfree (hl' ▸ hs)
    · have hl₁ := (hat id' (List.mem_append_left _ hid')).trans hl'
      exact hfree' id' hid' l' hl₁ hdue' ((hstuck _).mpr hs)
  · intro id' hid'
    obtain ⟨l', hl', hdue', hs⟩ := hrest id' hid'
    have hmem : id' ∈ done ++ rest := List.mem_append_right _ (List.mem_of_mem_head? hid')
    exact ⟨l', (hat id' hmem).symm.trans hl', hdue', (hstuck _).mp hs⟩

/-- What has been looked at has not been changed. -/
theorem of_next (h : Through e { s with vault := s.vault.next } bad due ids s') :
    Through e s bad due ids s' := by
  obtain ⟨done, rest, hids, hswept, hfree, hrest⟩ := h
  exact ⟨done, rest, hids, ⟨hswept.gone, hswept.kept, hswept.accounts⟩, hfree, hrest⟩

end Through

/-- **What the loop does**, whatever the order of the leases. -/
theorem revokeEach_through (hworks : env.Works) (hplugin : e.plugin = Mariadb.plugin format)
    (hfails : server.fails = dropFails bad) (due : Lease → Bool) (ids : List Key)
    (hids : ∀ id ∈ ids, validKey id = true → slash ∉ id) (hnodup : ids.Nodup) (revoked : Nat)
    (s : Site) (husable : s.usable e = true) :
    Through e s bad due ids ((e.revokeEach due ids revoked).run (server.answer env) s).2 := by
  induction ids generalizing s revoked with
  | nil => exact .nil ⟨rfl, rfl, husable⟩
  | cons id ids ih =>
    rw [List.forall_mem_cons] at hids
    obtain ⟨hnotMem, hnodup⟩ := List.nodup_cons.mp hnodup
    -- Reading the lease only counts the call, so the rest may start from there.
    have hlooked : ({ s with vault := s.vault.next } : Site).usable e = true := husable
    have hrest := ih hids.2 hnodup revoked _ hlooked
    unfold Engine.revokeEach
    rw [run_bind]
    rcases e.loadLease_cases env server hids.1 s.vault with ⟨l, hload, hl⟩ | ⟨err, hload, hwhy⟩
    · have hread : (DbAct.vault (e.loadLease id)).run.run (server.answer env) s
          = (.ok l, { s with vault := s.vault.next }) := exec_vault_eq hload
      rw [hread]
      dsimp only
      cases hdue : due l with
      | false =>
        refine .of_next (.skip (fun l' hl' => ?_) hrest)
        rw [show e.leaseAt s.vault.store id = some l' from hl', Option.some.injEq] at hl
        exact hl ▸ hdue
      | true =>
        rw [if_neg (by simp), run_bind]
        rcases exec_revoke hworks hplugin hfails hlooked hl with
          ⟨hstuck, err, s₁, hrevoke, hkept⟩ | ⟨hfree, s₁, hrevoke, hrevoked⟩
        · rw [show (e.revoke id).run.run (server.answer env) _ = _ from hrevoke]
          exact .of_next (.stop hl hdue hstuck hkept)
        · rw [show (e.revoke id).run.run (server.answer env) _ = _ from hrevoke]
          refine .of_next (.cons hl hdue hfree hnotMem hrevoked ?_)
          exact ih hids.2 hnodup (revoked + 1) s₁ hrevoked.usable
    · have hread : (DbAct.vault (e.loadLease id)).run.run (server.answer env) s
          = (.error err, { s with vault := s.vault.next }) := exec_vault_eq hload
      rw [hread]
      refine .of_next (.skip (fun l hl => ?_) hrest)
      rcases hwhy with hf | hnone
      · simp [hworks s.vault.tick] at hf
      · exact absurd (hnone.symm.trans hl) (by simp)

/-! ### The sweep -/

theorem revokeExpired_through (server : Server) (hworks : env.Works)
    (hplugin : e.plugin = Mariadb.plugin format)
    (hfails : server.fails = dropFails bad) (husable : s.usable e = true) :
    Through e s bad (fun l => !decide (env.clock (s.vault.tick + 1) < l.expiration))
      (server.order (s.vault.store.list e.leasePrefix)) (e.revokeExpired.run (server.answer env) s).2 := by
  have hperm := server.order_perm (s.vault.store.list e.leasePrefix)
  have hlist : exec (server.storage env)
      ((Act.list e.leasePrefix).context "database: list leases") s.vault
        = (.ok (server.order (s.vault.store.list e.leasePrefix)), s.vault.next) :=
    (Act.exec_context_eq_ok _ _).mpr (storage_list server hworks e.validPrefix_leasePrefix)
  have hrun : e.listLeases.run.run (server.answer env) s
      = (.ok (server.order (s.vault.store.list e.leasePrefix)), { s with vault := s.vault.next }) :=
    exec_vault_eq hlist
  unfold Engine.revokeExpired
  rw [run_bind, hrun]
  refine .of_next (.of_next (revokeEach_through hworks hplugin hfails _ _ ?_ ?_ 0 _ husable))
  · intro id hid
    exact e.slash_notMem_of_listed (hperm.mem_iff.mp hid)
  · exact hperm.nodup_iff.mpr (Store.nodup_list _ _)

/--
What a sweep at the time `now` should come to: the leases that have expired are gone,
with their users, unless the user cannot be dropped; and the others are untouched,
with their users, unless a lease that has expired has the same user.
-/
structure SweptAt (e : Engine) (s : Site) (bad : Bytes → Bool) (now : Time) (s' : Site) : Prop where
  gone : ∀ id l, e.leaseAt s.vault.store id = some l → ¬ now < l.expiration →
    ¬ s.stuck bad l.username →
    s'.vault.store.lookup (e.leaseKey id) = none ∧ ∀ a ∈ s'.accounts, a.user ≠ l.username
  untouched : ∀ id l, e.leaseAt s.vault.store id = some l → now < l.expiration →
    s'.vault.store.lookup (e.leaseKey id) = s.vault.store.lookup (e.leaseKey id) ∧
      ((∀ id' l', e.leaseAt s.vault.store id' = some l' → ¬ now < l'.expiration →
          l'.username ≠ l.username) →
        ∀ a, a.user = l.username → (a ∈ s'.accounts ↔ a ∈ s.accounts))

/-- One of the leases that have expired stands in the way of another that could be revoked. -/
def Site.Blocks (e : Engine) (s : Site) (bad : Bytes → Bool) (now : Time) (id id' : Bytes) : Prop :=
  ∃ l l', e.leaseAt s.vault.store id = some l ∧ e.leaseAt s.vault.store id' = some l' ∧
    ¬ now < l.expiration ∧ ¬ now < l'.expiration ∧
    s.stuck bad l.username ∧ ¬ s.stuck bad l'.username

instance decidableBlocks (e : Engine) (s : Site) (bad : Bytes → Bool) (now : Time) (id id' : Bytes) :
    Decidable (s.Blocks e bad now id id') :=
  decidable_of_iff (∃ l ∈ e.leaseAt s.vault.store id, ∃ l' ∈ e.leaseAt s.vault.store id',
      ¬ now < l.expiration ∧ ¬ now < l'.expiration ∧
      s.stuck bad l.username ∧ ¬ s.stuck bad l'.username)
    (by simp only [Site.Blocks, Option.mem_def, exists_and_left])

section Sweep

variable {ids : List Key} {now : Time}

/-- Every lease is revoked that no other stands in the way of. -/
theorem Through.sweptAt (h : Through e s bad (fun l => !decide (now < l.expiration)) ids s')
    (hids : ∀ id l, e.leaseAt s.vault.store id = some l → id ∈ ids)
    (hfree : ids.Pairwise fun id id' => ¬ s.Blocks e bad now id id') : SweptAt e s bad now s' := by
  obtain ⟨done, rest, rfl, hswept, -, hrest⟩ := h
  -- What the loop has not got to is not to be revoked.
  have hdone : ∀ id l, e.leaseAt s.vault.store id = some l → ¬ now < l.expiration →
      ¬ s.stuck bad l.username → id ∈ done := by
    intro id l hl hdue hnot
    rcases List.mem_append.mp (hids id l hl) with hid | hid
    · exact hid
    · cases rest with
      | nil => cases hid
      | cons first rest =>
        obtain ⟨l₁, hl₁, hdue₁, hstuck⟩ := hrest first rfl
        rcases List.mem_cons.mp hid with rfl | hid
        · rw [hl, Option.some.injEq] at hl₁
          exact absurd (hl₁ ▸ hstuck) hnot
        · have hpair := (List.pairwise_cons.mp (List.pairwise_append.mp hfree).2.1).1 id hid
          exact absurd ⟨l₁, l, hl₁, hl, by simpa using hdue₁, hdue, hstuck, hnot⟩ hpair
  constructor
  · intro id l hl hdue hnot
    have hid := hdone id l hl hdue hnot
    have hdue' : (!decide (now < l.expiration)) = true := by simpa using hdue
    exact ⟨hswept.gone id hid l hl hdue',
      fun a ha => ((hswept.accounts a).mp ha).2 id hid l hl hdue'⟩
  · intro id l hl hlive
    refine ⟨hswept.kept _ fun id' _ l' hl' hdue' heq => ?_, fun hown a ha => ?_⟩
    · rw [← e.leaseKey_injective heq, hl, Option.some.injEq] at hl'
      simp [← hl', hlive] at hdue'
    · rw [hswept.accounts]
      refine ⟨And.left, fun hmem => ⟨hmem, fun id' _ l' hl' hdue' => ?_⟩⟩
      rw [ha]
      exact (hown id' l' hl' (by simpa using hdue')).symm

/-- A lease behind one that stands in the way stays. -/
theorem Through.unblocked (h : Through e s bad (fun l => !decide (now < l.expiration)) ids s')
    (hnodup : ids.Nodup) (hall : SweptAt e s bad now s') :
    ids.Pairwise fun id id' => ¬ s.Blocks e bad now id id' := by
  obtain ⟨done, rest, rfl, hswept, hfree, -⟩ := h
  have hfirst : ∀ id ∈ done, ∀ id', ¬ s.Blocks e bad now id id' := by
    rintro id hid id' ⟨l, l', hl, -, hdue, -, hstuck, -⟩
    exact hfree id hid l hl (by simpa using hdue) hstuck
  have hsecond : ∀ id' ∈ rest, ∀ id, ¬ s.Blocks e bad now id id' := by
    rintro id' hid' id ⟨l, l', -, hl', -, hdue', -, hnot⟩
    obtain ⟨hgone, -⟩ := hall.gone id' l' hl' hdue' hnot
    rw [hswept.kept] at hgone
    · obtain ⟨-, -, blob, hblob, -⟩ := e.leaseAt_eq_some.mp hl'
      simp [hblob] at hgone
    · intro id'' hid'' _ _ _ heq
      have hsame : id' = id'' := e.leaseKey_injective heq
      exact List.disjoint_of_nodup_append hnodup hid'' (hsame ▸ hid')
  rw [List.pairwise_append]
  refine ⟨?_, ?_, fun id hid id' _ => hfirst id hid id'⟩
  · exact List.Pairwise.imp_of_mem (fun hid _ _ => hfirst _ hid _)
      (List.pairwise_of_forall fun _ _ => trivial)
  · exact List.Pairwise.imp_of_mem (fun _ hid' _ => hsecond _ hid' _)
      (List.pairwise_of_forall fun _ _ => trivial)

end Sweep

end Server

/--
**One bad lease blocks those behind it, and no others.**  A sweep comes to what it
should exactly if, in the order of the listing, no lease that has expired and whose
user cannot be dropped stands before one that could be revoked.
-/
theorem revokeExpired_sweeps_iff (e : Engine) (format : Time → Bytes)
    (hplugin : e.plugin = Mariadb.plugin format) (env : Env) (hworks : env.Works) (server : Server)
    (bad : Bytes → Bool) (hfails : server.fails = dropFails bad) (s : Site) (husable : s.usable e = true) :
    SweptAt e s bad (env.clock (s.vault.tick + 1)) (e.revokeExpired.run (server.answer env) s).2 ↔
      (server.order (s.vault.store.list e.leasePrefix)).Pairwise fun id id' =>
        ¬ s.Blocks e bad (env.clock (s.vault.tick + 1)) id id' := by
  have hthrough := revokeExpired_through server hworks hplugin hfails husable
  have hperm := server.order_perm (s.vault.store.list e.leasePrefix)
  constructor
  · exact hthrough.unblocked (hperm.nodup_iff.mpr (Store.nodup_list _ _))
  · exact hthrough.sweptAt fun id l hl => hperm.mem_iff.mpr (e.mem_list_of_leaseAt hl)

/-! ### Two leases -/

/-- A lease that has expired, of a user with the name of its id. -/
def expiredLease (id : Bytes) : Lease := ⟨id, str "app", id, 0, []⟩

/-- Leases for `a` and `b` are recorded and both users have an account. -/
def twoLeases : Site where
  vault := ⟨Finmap.insert (Engine.transparent.leaseKey (str "a"))
      (Engine.transparent.leaseJson.marshal (expiredLease (str "a")))
    (Finmap.insert (Engine.transparent.leaseKey (str "b"))
      (Engine.transparent.leaseJson.marshal (expiredLease (str "b"))) ∅), 0⟩
  ready := true
  connected := true
  accounts := [⟨str "a", str "%"⟩, ⟨str "b", str "%"⟩]
  executed := 0

/-- The server lists in order and cannot drop the user of one lease. -/
def stubborn (user : Bytes) : Server where
  creates _ := []
  fails := dropFails (· == user)
  order := id
  order_perm := List.Perm.refl

/-- Of two leases, the one whose user cannot be dropped blocks the one behind it. -/
theorem bad_lease_blocks :
    Env.faultless.Works ∧ twoLeases.usable Engine.transparent = true ∧
      (stubborn (str "a")).fails = dropFails (· == str "a") ∧
      ¬ SweptAt Engine.transparent twoLeases (· == str "a") (Env.faultless.clock 1)
        (Engine.transparent.revokeExpired.run ((stubborn (str "a")).answer .faultless) twoLeases).2 := by
  refine ⟨works_faultless, rfl, rfl, fun hswept => ?_⟩
  have hfails : (stubborn (str "a")).fails = dropFails (· == str "a") := rfl
  have husable : twoLeases.usable Engine.transparent = true := rfl
  have hthrough := revokeExpired_through (stubborn (str "a")) works_faultless rfl hfails husable
  have hnodup := Store.nodup_list twoLeases.vault.store Engine.transparent.leasePrefix
  exact absurd (hthrough.unblocked hnodup hswept) (by decide +kernel)

/-- If it is the last one, it blocks none. -/
theorem last_lease_blocks_none :
    Env.faultless.Works ∧ twoLeases.usable Engine.transparent = true ∧
      SweptAt Engine.transparent twoLeases (· == str "b") (Env.faultless.clock 1)
        (Engine.transparent.revokeExpired.run ((stubborn (str "b")).answer .faultless) twoLeases).2 :=
  ⟨works_faultless, rfl, (revokeExpired_sweeps_iff Engine.transparent _ rfl .faultless works_faultless
    (stubborn (str "b")) (· == str "b") rfl twoLeases rfl).mpr (by decide +kernel)⟩

end UbixVault.Database
