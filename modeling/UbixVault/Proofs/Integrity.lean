/-
What a storage adversary can make a barrier return.

The adversary may store any blob that was ever stored, at any path, and any bytes
of its own; ideal encryption means that the latter open under none of the keys that
the barrier uses.  Then every blob that opens at a data path was written there by
`Put`, because a blob carries its path: this is an invariant of everything that was
ever stored, so rolling back does not help either.
-/
import UbixVault.Proofs.Barrier
import UbixVault.Proofs.Platform
import UbixVault.Tamper

namespace UbixVault

open Program

variable {A : Aead Byte} {env : Env} {s : BarrierState} {es : List BarrierEvent}
  {keys : Set CipherKey}

/-- A blob that is stored, or was before one of the events. -/
def Seen (es : List BarrierEvent) (s : BarrierState) (blob : Bytes) : Prop :=
  ∃ path, s.world.store.lookup path = some blob ∨
    ∃ e ∈ es, e.before.world.store.lookup path = some blob

/--
Ideal encryption under the keys of the barrier: bytes that the adversary made up,
instead of copying them, open nowhere.
-/
structure IdealEvent (A : Aead Byte) (keys : Set CipherKey) (es : List BarrierEvent)
    (e : BarrierEvent) : Prop where
  unforged : ∀ store, e.action = .tamper store → ∀ path blob, store.lookup path = some blob →
    Seen es e.before blob ∨ ∀ k ∈ keys, ∀ path' value, decrypt A k blob path' ≠ .ok value
  keys : ∀ k, e.before.barrier.aead = some k → k ∈ keys

/-! ### What an event does to the store -/

inductive BarrierMove (A : Aead Byte) (e : BarrierEvent) : Prop
  | kept (store : e.after.world.store = e.before.world.store)
  | written {key : Key} {value nonce : Bytes} {k : CipherKey} (action : e.action = .call (.put key value))
      (dataKey : DataKey key) (holds : e.before.barrier.aead = some k)
      (nonceLength : nonce.length = nonceSize)
      (store : e.after.world.store
        = e.before.world.store.insert key (blobOf A k nonce value key))
  | removed {key : Key} (dataKey : DataKey key)
      (store : e.after.world.store = e.before.world.store.erase key)
  | wrapped {K : CipherKey} {nonce content : Bytes} (nonceLength : nonce.length = nonceSize)
      (store : e.after.world.store
        = e.before.world.store.insert keyringPath (blobOf A K nonce content keyringPath))
      (action : ∀ key, (∀ value, e.action ≠ .call (.put key value)) ∧ e.action ≠ .call (.delete key))
  | tampered {store : Store} (action : e.action = .tamper store)
      (store : e.after.world.store = store)

/-- Whatever the master key is, setting up wraps a key under it or does nothing. -/
theorem setUp_spec {w : World} (masterKey : Bytes) :
    Yields env.answer (Barrier.initializeKeyring A masterKey) w
      (fun _ w' => ∃ K nonce content, nonce.length = nonceSize ∧
        w'.store = w.store.insert keyringPath (blobOf A K nonce content keyringPath))
      (fun _ w' => w'.store = w.store) := by
  rcases newAEAD_cases masterKey with ⟨K, hK⟩ | hK
  · obtain rfl := newAEAD_eq_ok.mp hK
    cases hlookup : w.store.lookup keyringPath with
    | none =>
      refine (Barrier.initializeKeyring_spec K hlookup).mono ?_ fun _ _ h => h.store
      rintro - w' ⟨B, nonce, hn, hstore, -⟩
      exact ⟨K, nonce, B.val, hn, hstore⟩
    | some blob =>
      refine Yields.bind ?_
      rw [hK]
      refine Yields.bind (Act.yields_context ((Act.get_spec validKey_keyringPath).mono ?_
        fun _ _ h => h.store))
      rintro r w₁ ⟨rfl, hs, -⟩
      rw [hlookup]
      exact Yields.throw hs
  · refine Yields.bind ?_
    rw [hK]
    rfl

/-- An operation ends as its program does. -/
theorem BarrierState.step_ends {c : BarrierCall} {Q : BarrierEvent → Prop}
    (h : YieldsState env.answer (c.perform A) s.barrier s.world
      (fun r b w => Q ⟨s, .call c, .ok r, ⟨b, w⟩⟩) (fun e b w => Q ⟨s, .call c, .error e, ⟨b, w⟩⟩)) :
    Q (s.step A env (.call c)) :=
  h.outcome_holds (O := fun r b w => Q ⟨s, .call c, r, ⟨b, w⟩⟩)

theorem BarrierState.step_move (A : Aead Byte) (env : Env) (s : BarrierState)
    (action : BarrierAction) : BarrierMove A (s.step A env action) := by
  cases action with
  | tamper store => exact .tampered rfl rfl
  | call c =>
    refine BarrierState.step_ends ?_
    cases c with
    | setUp masterKey =>
      refine YieldsState.bind (YieldsState.stateless ((setUp_spec masterKey).mono ?_ ?_))
      · rintro - w ⟨K, nonce, content, hn, hstore⟩
        exact YieldsState.pure (.wrapped hn hstore fun key => ⟨by simp, by simp⟩)
      · exact fun _ _ hstore => .kept hstore
    | unsealBarrier masterKey =>
      refine YieldsState.get_bind (YieldsState.bind (YieldsState.stateless ?_))
      by_cases hsealed : s.barrier.sealed = true
      · refine (Barrier.unseal_spec s.barrier hsealed masterKey).mono ?_ ?_
        · rintro b w ⟨-, hstore, -⟩
          exact YieldsState.set_bind (YieldsState.pure (.kept hstore))
        · rintro e w ⟨hhalt, -⟩
          exact .kept hhalt.store
      · -- An unsealed barrier does not look at the store.
        refine Yields.bind (Act.yields_ofExcept (fun _ _ => ?_) fun _ _ => .kept rfl)
        rw [if_neg hsealed]
        exact Yields.pure (YieldsState.set_bind (YieldsState.pure (.kept rfl)))
    | sealBarrier => exact YieldsState.modify_bind (YieldsState.pure (.kept rfl))
    | rekey oldKey newKey =>
      refine YieldsState.bind (YieldsState.stateless ?_)
      rcases newAEAD_cases newKey with ⟨K, hK⟩ | hK
      · obtain rfl := newAEAD_eq_ok.mp hK
        refine (Barrier.rekey_spec oldKey K).mono ?_ ?_
        · rintro - w ⟨content, nonce, -, hn, hstore, -⟩
          exact YieldsState.pure (.wrapped hn hstore fun key => ⟨by simp, by simp⟩)
        · exact fun _ _ hhalt => .kept hhalt.store
      · refine Yields.bind (Act.yields_ofExcept (fun _ _ => Yields.bind ?_) fun _ _ => .kept rfl)
        rw [hK]
        exact .kept rfl
    | get key =>
      refine YieldsState.get_bind (YieldsState.stateless ((Barrier.get_spec key).mono ?_ ?_))
      · rintro r w ⟨-, -, hstore, -⟩
        exact .kept hstore
      · exact fun _ _ hhalt => .kept hhalt.store
    | put key value =>
      refine YieldsState.get_bind (YieldsState.bind (YieldsState.stateless
        ((Barrier.put_spec key value).mono ?_ ?_)))
      · rintro - w ⟨hkey, ⟨k, nonce, hk, hn, hstore⟩, -⟩
        exact YieldsState.pure (.written rfl hkey hk hn hstore)
      · exact fun _ _ hhalt => .kept hhalt.store
    | delete key =>
      refine YieldsState.get_bind (YieldsState.bind (YieldsState.stateless
        ((Barrier.delete_spec key).mono ?_ ?_)))
      · rintro - w ⟨hkey, -, hstore, -⟩
        exact YieldsState.pure (.removed hkey hstore)
      · exact fun _ _ hhalt => .kept hhalt.store

/-- What a successful read found. -/
theorem BarrierState.step_get {key : Key} {value : Bytes}
    (h : (s.step A env (.call (.get key))).result = .ok (some value)) :
    DataKey key ∧ ∃ k blob, s.barrier.aead = some k ∧ s.world.store.lookup key = some blob ∧
      decrypt A k blob key = .ok value := by
  refine BarrierState.step_ends (Q := fun e => e.result = .ok (some value) → DataKey key ∧
    ∃ k blob, s.barrier.aead = some k ∧ s.world.store.lookup key = some blob ∧
      decrypt A k blob key = .ok value) ?_ h
  refine YieldsState.get_bind (YieldsState.stateless ((Barrier.get_spec key).mono ?_ ?_))
  · rintro r w ⟨hkey, ⟨k, hk, hfinds⟩, -⟩ hr
    cases hr
    obtain ⟨blob, hlookup, hdec⟩ := hfinds
    exact ⟨hkey, k, blob, hk, hlookup, hdec⟩
  · rintro e w - hr
    cases hr

/-! ### The invariant -/

/-- Where a blob opens at a data path, it was put there. -/
def Accounted (A : Aead Byte) (keys : Set CipherKey) (es : List BarrierEvent) (blob : Bytes) :
    Prop :=
  ∀ k ∈ keys, ∀ path value, DataKey path → decrypt A k blob path = .ok value →
    ∃ e ∈ es, e.action = .call (.put path value) ∧ e.before.barrier.aead = some k

theorem Accounted.append {blob : Bytes} (h : Accounted A keys es blob) (e : BarrierEvent) :
    Accounted A keys (es ++ [e]) blob := by
  intro k hk path value hpath hdec
  obtain ⟨e', he', hput⟩ := h k hk path value hpath hdec
  exact ⟨e', List.mem_append_left _ he', hput⟩

/-- The keyring opens at no data path. -/
theorem accounted_wrapped {K : CipherKey} {nonce content : Bytes} (hn : nonce.length = nonceSize) :
    Accounted A keys es (blobOf A K nonce content keyringPath) := by
  intro k _ path value hpath hdec
  obtain ⟨-, rfl, -⟩ := (decrypt_blobOf_eq_ok hn).mp hdec
  exact absurd reserved_keyringPath hpath.notReserved

/-- What an event adds to the blobs seen so far is accounted for. -/
theorem BarrierMove.accounted {e : BarrierEvent} (hmove : BarrierMove A e)
    (hideal : IdealEvent A keys es e)
    (hseen : ∀ blob, Seen es e.before blob → Accounted A keys es blob) {path : Key} {blob : Bytes}
    (hlookup : e.after.world.store.lookup path = some blob) :
    Accounted A keys (es ++ [e]) blob := by
  have hold : ∀ {path'}, e.before.world.store.lookup path' = some blob →
      Accounted A keys (es ++ [e]) blob :=
    fun hbefore => (hseen blob ⟨_, .inl hbefore⟩).append e
  cases hmove with
  | kept store =>
    rw [store] at hlookup
    exact hold hlookup
  | @written key value nonce k action dataKey holds nonceLength store =>
    rw [store] at hlookup
    by_cases hpath : path = key
    · rw [hpath, Finmap.lookup_insert, Option.some.injEq] at hlookup
      rw [← hlookup]
      intro k' _ path' value' _ hdec
      obtain ⟨rfl, rfl, rfl⟩ := (decrypt_blobOf_eq_ok nonceLength).mp hdec
      exact ⟨e, by simp, action, holds⟩
    · rw [Finmap.lookup_insert_of_ne _ hpath] at hlookup
      exact hold hlookup
  | @removed key dataKey store =>
    rw [store] at hlookup
    by_cases hpath : path = key
    · rw [hpath, Finmap.lookup_erase] at hlookup
      cases hlookup
    · rw [Finmap.lookup_erase_ne hpath] at hlookup
      exact hold hlookup
  | wrapped nonceLength store action =>
    rw [store] at hlookup
    by_cases hpath : path = keyringPath
    · rw [hpath, Finmap.lookup_insert, Option.some.injEq] at hlookup
      rw [← hlookup]
      exact accounted_wrapped nonceLength
    · rw [Finmap.lookup_insert_of_ne _ hpath] at hlookup
      exact hold hlookup
  | @tampered store action hstore =>
    rw [hstore] at hlookup
    rcases hideal.unforged store action path blob hlookup with hcopied | hmade
    · exact (hseen blob hcopied).append e
    · intro k hk path' value _ hdec
      exact absurd hdec (hmade k hk path' value)

theorem step_before (A : Aead Byte) (env : Env) (s : BarrierState) (action : BarrierAction) :
    (s.step A env action).before = s := by
  cases action <;> rfl

/-- **Every blob ever stored is accounted for**, and what a read returns was put there. -/
theorem accounted_step {action : BarrierAction}
    (hseen : ∀ blob, Seen es s blob → Accounted A keys es blob)
    (hideal : IdealEvent A keys es (s.step A env action)) :
    ∀ blob, Seen (es ++ [s.step A env action]) (s.step A env action).after blob →
      Accounted A keys (es ++ [s.step A env action]) blob := by
  have hbefore := step_before A env s action
  have hseen' : ∀ blob, Seen es (s.step A env action).before blob → Accounted A keys es blob := by
    rw [hbefore]
    exact hseen
  rintro blob ⟨path, hnow | ⟨e, he, hpast⟩⟩
  · exact (s.step_move A env action).accounted hideal hseen' hnow
  · refine (hseen blob ⟨path, ?_⟩).append _
    rcases List.mem_append.mp he with he | he
    · exact .inr ⟨e, he, hpast⟩
    · rw [List.mem_singleton.mp he, hbefore] at hpast
      exact .inl hpast

/-- What a read returns was put there under the same key. -/
def ReadsPut (es : List BarrierEvent) (e : BarrierEvent) : Prop :=
  ∀ key value, e.action = .call (.get key) → e.result = .ok (some value) →
    ∃ e' ∈ es, e'.action = .call (.put key value) ∧
      e'.before.barrier.aead = e.before.barrier.aead

theorem readsPut_step {action : BarrierAction}
    (hseen : ∀ blob, Seen es s blob → Accounted A keys es blob)
    (hideal : IdealEvent A keys es (s.step A env action)) : ReadsPut es (s.step A env action) := by
  intro key value haction hresult
  have hbefore := step_before A env s action
  obtain rfl : action = .call (.get key) := by
    cases action with
    | call c => exact haction
    | tamper store => cases haction
  obtain ⟨hkey, k, blob, hk, hlookup, hdec⟩ := BarrierState.step_get hresult
  have hmem : k ∈ keys := hideal.keys k (by rw [hbefore]; exact hk)
  obtain ⟨e, he, hput, hsame⟩ := hseen blob ⟨key, .inl hlookup⟩ k hmem key value hkey hdec
  exact ⟨e, he, hput, by rw [hsame, hbefore, hk]⟩

/-! ### The reserved namespace -/

/-- Reads refuse reserved paths, and writes and deletions leave them alone. -/
structure Reserves (e : BarrierEvent) : Prop where
  refused : ∀ key, reservedPrefix <+: key → e.action = .call (.get key) →
    ∃ err, e.result = .error err
  untouched : ∀ key, (∃ value, e.action = .call (.put key value)) ∨ e.action = .call (.delete key) →
    ∀ path, reservedPrefix <+: path →
      e.after.world.store.lookup path = e.before.world.store.lookup path

theorem BarrierMove.untouched {e : BarrierEvent} (h : BarrierMove A e) {key path : Key}
    (haction : (∃ value, e.action = .call (.put key value)) ∨ e.action = .call (.delete key))
    (hpath : reservedPrefix <+: path) :
    e.after.world.store.lookup path = e.before.world.store.lookup path := by
  cases h with
  | kept store => rw [store]
  | written action dataKey holds nonceLength store =>
    rw [store, Finmap.lookup_insert_of_ne _ (dataKey.ne_of_reserved hpath).symm]
  | removed dataKey store => rw [store, Finmap.lookup_erase_ne (dataKey.ne_of_reserved hpath).symm]
  | wrapped nonceLength store action =>
    rcases haction with ⟨value, hput⟩ | hdelete
    · exact absurd hput ((action key).1 value)
    · exact absurd hdelete (action key).2
  | tampered action store =>
    rw [action] at haction
    rcases haction with ⟨value, hput⟩ | hdelete
    · cases hput
    · cases hdelete

theorem BarrierState.step_reserves (A : Aead Byte) (env : Env) (s : BarrierState)
    (action : BarrierAction) : Reserves (s.step A env action) := by
  refine ⟨?_, fun key haction path hpath => (s.step_move A env action).untouched haction hpath⟩
  intro key hkey haction
  obtain rfl : action = .call (.get key) := by
    cases action with
    | call c => exact haction
    | tamper store => cases haction
  refine BarrierState.step_ends (Q := fun e => ∃ err, e.result = .error err) ?_
  refine YieldsState.get_bind (YieldsState.stateless ((Barrier.get_spec key).mono ?_ ?_))
  · rintro r w ⟨hdata, -⟩
    exact absurd hkey hdata.notReserved
  · exact fun e _ _ => ⟨e, rfl⟩

/--
**The barrier keeps its integrity against a storage adversary.**

In every sequence of barrier operations between which an adversary replaces what is
stored, with encryption ideal for the keys the barrier uses: a value that `Get`
returns for a key was the argument of an earlier `Put` at exactly this key under the
same barrier key, no `Get` of a reserved path succeeds, and no `Put` or `Delete`
changes what is stored at one.
-/
theorem barrier_integrity (A : Aead Byte) (env : Env) (tick : Nat) (keys : Set CipherKey)
    (actions : List BarrierAction)
    (hideal : Run.Throughout (IdealEvent A keys) ((BarrierState.blank tick).events A env actions)) :
    Run.Throughout (fun es e => ReadsPut es e ∧ Reserves e)
      ((BarrierState.blank tick).events A env actions) := by
  refine (Run.holds_throughout (I := fun es s => ∀ blob, Seen es s blob → Accounted A keys es blob)
    ?_ ?_ actions hideal).2
  · rintro blob ⟨path, hnow | ⟨e, he, -⟩⟩
    · simp [BarrierState.blank] at hnow
    · cases he
  · intro es s action hseen hevent
    exact ⟨accounted_step hseen hevent, readsPut_step hseen hevent, s.step_reserves A env action⟩

theorem events_action (A : Aead Byte) (env : Env) (actions : List BarrierAction) :
    ∀ s : BarrierState, (s.events A env actions).map BarrierEvent.action = actions := by
  induction actions with
  | nil => intro s; rfl
  | cons action rest ih =>
    intro s
    refine congrArg₂ List.cons ?_ (ih _)
    cases action <;> rfl

/-! ### An adversary that rolls back, copies and makes up -/

def putOld : List BarrierAction :=
  [.call (.setUp (List.replicate keySize 0)), .call (.unsealBarrier (List.replicate keySize 0)),
    .call (.put (str "a") (str "old"))]

/-- The value is put, and then another in its place. -/
def putTwice : List BarrierAction := putOld ++ [.call (.put (str "a") (str "new"))]

/-- What was stored when there was only the first value. -/
def storedOld : Store :=
  ((BarrierState.blank 0).after Platform.transparent.aead .faultless putOld).world.store

/-- The first value again, a copy of it at another path, and bytes too short for a nonce. -/
def tampered : Store :=
  (storedOld.insert (str "copy") ((storedOld.lookup (str "a")).getD [])).insert (str "made") [formatVersion]

def readAfter : List BarrierAction :=
  [.call (.get (str "a")), .call (.get (str "copy")), .call (.get (str "made"))]

/-- The value that was rolled back is read, the copy and the made up bytes are refused. -/
theorem barrier_integrity_tampered :
    let events := (BarrierState.blank 0).events Platform.transparent.aead .faultless
      (putTwice ++ .tamper tampered :: readAfter)
    Run.Throughout (fun es e => ReadsPut es e ∧ Reserves e) events ∧
      (events.drop 5).map (·.result.toOption) = [some (some (str "old")), none, none] := by
  refine ⟨barrier_integrity Platform.transparent.aead .faultless 0 Set.univ _ ?_, by decide +kernel⟩
  intro earlier e later hevents
  refine ⟨fun store haction path blob hlookup => ?_, fun _ _ => trivial⟩
  have hcalls : ∀ (s : BarrierState) (actions : List BarrierAction),
      (∀ a ∈ actions, ∃ c, a = .call c) → e ∉ s.events Platform.transparent.aead .faultless actions := by
    intro s actions hactions he
    have hmem := List.mem_map_of_mem (f := BarrierEvent.action) he
    rw [events_action] at hmem
    obtain ⟨c, hc⟩ := hactions _ hmem
    rw [haction] at hc
    cases hc
  -- The adversary comes once, after the events of the two writes.
  obtain ⟨rfl, rfl, -⟩ := (List.append_cons_inj_of_notMem
    (hcalls (.blank 0) putTwice (by simp [putTwice, putOld]))
    (hcalls _ readAfter (by simp [readAfter]))).mp hevents
  obtain rfl : tampered = store := BarrierAction.tamper.inj haction
  have hknown : ∀ path ∈ tampered.keys.inOrder, ∀ blob ∈ tampered.lookup path,
      (∃ path' ∈ storedOld.keys.inOrder, storedOld.lookup path' = some blob) ∨
        blob = [formatVersion] := by decide +kernel
  rcases hknown path (Finmap.mem_inOrder_of_lookup hlookup) blob hlookup with ⟨path', -, hold⟩ | rfl
  · have hlast : ((BarrierState.blank 0).after Platform.transparent.aead .faultless putOld).step
          Platform.transparent.aead .faultless (.call (.put (str "a") (str "new"))) ∈
        (BarrierState.blank 0).events Platform.transparent.aead .faultless putTwice := by
      rw [putTwice, BarrierState.events, Run.history_append]
      exact List.mem_append_right _ List.mem_cons_self
    refine .inl ⟨path', .inr ⟨_, hlast, ?_⟩⟩
    rw [step_before]
    exact hold
  · refine .inr fun k _ path' value hdec => ?_
    rw [decrypt, if_pos (by decide)] at hdec
    cases hdec

end UbixVault
