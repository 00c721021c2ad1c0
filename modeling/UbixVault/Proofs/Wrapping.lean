/-
A wrapping token is good for one call.

Everything is read off the events of the run.  The payload of a token is written once,
because tokens are drawn once.  A call that returns it has found it and then deleted it,
and what two calls do under the lock does not overlap, so the second would have had to
find what the first deleted.
-/
import UbixVault.Proofs.Basic
import UbixVault.Proofs.Platform
import UbixVault.Proofs.Script
import UbixVault.Wrapping

namespace UbixVault.Wrapping

open Program Program.Locked

variable {st : Store}

/-! ### What the calls do -/

/-- The token made of random bytes. -/
def tokenOf (b : {b : Bytes // b.length = tokenBytes}) : Bytes := displayPrefix ++ hexEncode b.val

theorem storeKey_tokenOf_inj {b b' : {b : Bytes // b.length = tokenBytes}}
    (h : st.storeKey (tokenOf b) = st.storeKey (tokenOf b')) : b = b' := by
  have hsum := hexEncode_injective (List.append_cancel_left h)
  have htoken := st.sha256.sum_injective hsum
  exact Subtype.ext (hexEncode_injective (List.append_cancel_left htoken))

/-- A call of `Unwrap` that returned a payload found it, was in time, and deleted it. -/
theorem unwrap_returned {token : Bytes} {payload : RawMessage}
    {l : List ((op : Locked Call) × Locked.Reply Reply op)}
    (hl : Follows (st.call (.unwrap token)) l (.ret (.unwrapped (.ok payload)))) :
    ∃ blob t record, l = ⟨.lock, ()⟩ :: ⟨.call (.get (st.storeKey token)), .ok (some blob)⟩ ::
        ⟨.call .now, t⟩ :: ⟨.call (.delete (st.storeKey token)), .ok ()⟩ :: [⟨.unlock, ()⟩] ∧
      st.json.unmarshal blob = some record ∧ t ≤ record.expiresAt ∧ record.payload = payload := by
  obtain ⟨k, rfl, hk⟩ := follows_guarded_ret hl
  obtain ⟨r, k₁, k₂, rfl, hfirst, hsecond⟩ := Follows.of_bind_ret hk
  obtain ⟨rfl, heq⟩ := Follows.of_ret hsecond
  cases heq
  obtain ⟨o, k₁, k₂, rfl, hget, hfound⟩ := Follows.of_bindExcept_ok hfirst
  cases Follows.of_perform (Follows.of_adapt_ok hget)
  cases o with
  | none => cases (Follows.of_ret hfound).2
  | some blob =>
    dsimp only at hfound
    cases hrecord : st.json.unmarshal blob with
    | none =>
      rw [hrecord] at hfound
      cases (Follows.of_ret hfound).2
    | some record =>
      rw [hrecord] at hfound
      obtain ⟨t, k₁, k₂, rfl, hnow, hchecked⟩ := Follows.of_bindExcept_ok hfound
      cases Follows.of_lift_perform hnow
      by_cases hlate : t > record.expiresAt
      · rw [if_pos hlate] at hchecked
        obtain ⟨-, k₁, k₂, rfl, -, hthrow⟩ := Follows.of_bindExcept_ok hchecked
        cases (Follows.of_ret hthrow).2
      · rw [if_neg hlate] at hchecked
        obtain ⟨⟨⟩, k₁, k₂, rfl, hdelete, hpure⟩ := Follows.of_bindExcept_ok hchecked
        cases Follows.of_perform (Follows.of_adapt_ok hdelete)
        obtain ⟨rfl, heq⟩ := Follows.of_ret hpure
        cases heq
        exact ⟨blob, t, record, rfl, hrecord, not_lt.mp hlate, rfl⟩

/-- A call that is not a write. -/
def Quiet (c : Call) : Prop := ∀ key value, c ≠ .put key value

theorem within_generateToken : Within Quiet generateToken.run :=
  .bindExcept (.adapt _ (.perform (by nofun))) fun _ => trivial

theorem within_now : Within Quiet Act.now.run := ⟨by nofun, fun _ => trivial⟩

/-- `Unwrap` reads, asks for the time and deletes. -/
theorem within_unwrap {A : Call → Prop} {token : Bytes} (hget : A (.get (st.storeKey token))) (hnow : A .now)
    (hdelete : A (.delete (st.storeKey token))) : Within A (st.unwrap token).run := by
  refine .bindExcept (.adapt _ (.perform hget)) fun o => ?_
  cases o with
  | none => trivial
  | some blob =>
    dsimp only
    cases st.json.unmarshal blob with
    | none => trivial
    | some record =>
      refine .bindExcept ⟨hnow, fun _ => trivial⟩ fun t => ?_
      split_ifs
      · exact .bindExcept ⟨hdelete, fun _ => trivial⟩ fun _ => trivial
      · exact .bindExcept (.adapt _ (.perform hdelete)) fun _ => trivial

/-- A call of `Wrap` that came to the writing. -/
theorem wrap_put {payload : RawMessage} {ttl : Time} {key : Key} {value : Bytes} {r : Except Err Unit}
    {k : List ((c : Call) × Reply c)} {q : Prog (Except Err Info)}
    (hk : Follows (st.wrap payload ttl).run k q) (hput : ⟨.put key value, r⟩ ∈ k) :
    ∃ b t, k = [⟨.randRead tokenBytes, .ok b⟩, ⟨.now, t⟩, ⟨.put key value, r⟩] ∧
      key = st.storeKey (tokenOf b) ∧
      st.json.marshal ⟨payload, t, t + effectiveTTL ttl⟩ = some value := by
  unfold Store.wrap at hk
  dsimp only at hk
  split_ifs at hk with hmax
  · obtain ⟨rfl, -⟩ := Follows.of_ret hk
    cases hput
  have hnot : ¬ Quiet (.put key value) := fun h => h key value rfl
  obtain ⟨token, k₁, k₂, rfl, hlater, htoken, hdrawn⟩ := hk.of_mem_bindExcept within_generateToken hput hnot
  obtain ⟨b, k₁, k₃, rfl, hrand, hpure⟩ := Follows.of_bindExcept_ok htoken
  cases Follows.of_perform (Follows.of_adapt_ok hrand)
  obtain ⟨rfl, heq⟩ := Follows.of_ret hpure
  cases heq
  obtain ⟨t, k₁, k₂, rfl, hlast, hnow, htimed⟩ := hdrawn.of_mem_bindExcept within_now hlater hnot
  cases Follows.of_lift_perform hnow
  cases hblob : st.json.marshal ⟨payload, t, t + effectiveTTL ttl⟩ with
  | none =>
    rw [hblob] at htimed
    obtain ⟨rfl, -⟩ := Follows.of_ret htimed
    cases hlast
  | some blob =>
    rw [hblob] at htimed
    rcases Follows.of_step htimed with ⟨rfl, -⟩ | ⟨r', rest, rfl, hreturn⟩
    · cases hlast
    have hrest : rest = [] := by
      cases r' with
      | error e => exact (Follows.of_ret hreturn).1
      | ok u => exact (Follows.of_ret hreturn).1
    cases hrest
    cases List.mem_singleton.mp hlast
    exact ⟨b, t, rfl, rfl, hblob⟩

/-- A call of `Wrap` that returned a token wrote the payload under it. -/
theorem wrap_returned {payload : RawMessage} {ttl : Time} {info : Info}
    {l : List ((op : Locked Call) × Locked.Reply Reply op)}
    (hl : Follows (st.call (.wrap payload ttl)) l (.ret (.wrapped (.ok info)))) :
    ∃ t value, ⟨.call (.put (st.storeKey info.token) value), .ok ()⟩ ∈ l ∧
      info.expiresAt = t + effectiveTTL ttl ∧
      st.json.marshal ⟨payload, t, t + effectiveTTL ttl⟩ = some value := by
  obtain ⟨k, q, rfl, hk, hq⟩ := follows_lift hl
  cases lift_eq_ret hq.symm
  obtain ⟨r, k₁, k₂, rfl, hwrap, hreturn⟩ := Follows.of_bind_ret hk
  obtain ⟨rfl, heq⟩ := Follows.of_ret hreturn
  cases heq
  unfold Store.wrap at hwrap
  dsimp only at hwrap
  split_ifs at hwrap with hmax
  · cases (Follows.of_ret hwrap).2
  obtain ⟨token, k₁, k₂, rfl, -, hdrawn⟩ := Follows.of_bindExcept_ok hwrap
  obtain ⟨t, k₃, k₄, rfl, -, htimed⟩ := Follows.of_bindExcept_ok hdrawn
  cases hblob : st.json.marshal ⟨payload, t, t + effectiveTTL ttl⟩ with
  | none =>
    rw [hblob] at htimed
    cases (Follows.of_ret htimed).2
  | some blob =>
    rw [hblob] at htimed
    obtain ⟨⟨⟩, k₅, k₆, rfl, hput, hpure⟩ := Follows.of_bindExcept_ok htimed
    cases Follows.of_perform (Follows.of_adapt_ok hput)
    cases (Follows.of_ret hpure).2
    refine ⟨t, blob, mem_calls.mpr ?_, rfl, hblob⟩
    simp

/-! ### What happens in a run -/

section Run

variable {ι : Type} [DecidableEq ι] (st : Store) (env : Env) (requests : ι → Request) (w : World)
  (schedule : List ι)

/-- What happens when the calls are made. -/
def Store.events : List (ι × (op : Locked Call) × Locked.Reply Reply op) :=
  (st.pool requests w).events (handler env.answer) schedule

/-- A call has returned. -/
def Store.Returns (i : ι) (r : Response) : Prop :=
  ((st.pool requests w).run (handler env.answer) schedule).threads i = .ret r

/-- Nobody goes on while another holds the lock. -/
def Store.Waits : Prop := (st.pool requests w).Obeys (handler env.answer) Locked.Waits schedule

/-- Tokens are drawn once, and none that is in use. -/
structure Store.Fresh : Prop where
  distinct : ∀ i j b, (i, ⟨.call (.randRead tokenBytes), .ok b⟩) ∈ st.events env requests w schedule →
    (j, ⟨.call (.randRead tokenBytes), .ok b⟩) ∈ st.events env requests w schedule → i = j
  unused : ∀ i b, (i, ⟨.call (.randRead tokenBytes), .ok b⟩) ∈ st.events env requests w schedule →
    st.storeKey (tokenOf b) ∉ w.store

variable {st env requests w schedule}

theorem replies_own (hwaits : st.Waits env requests w schedule) :
    Replies (handler env.answer) Locked.Waits (w, false) ((st.events env requests w schedule).map Prod.snd)
      ((st.pool requests w).run (handler env.answer) schedule).state :=
  Pool.replies_events schedule (st.pool requests w) hwaits

variable (st env requests w schedule) in
theorem follows_own (i : ι) :
    Follows (st.call (requests i)) (own i (st.events env requests w schedule))
      (((st.pool requests w).run (handler env.answer) schedule).threads i) :=
  Pool.follows_events (h := handler env.answer) i schedule (st.pool requests w)

/-- Who does something else than reading, asking for the time and deleting wraps. -/
theorem wraps_of_mem {m : ι} {c : Call} {r : Reply c}
    (hmem : (m, ⟨.call c, r⟩) ∈ st.events env requests w schedule) (hget : ∀ key, c ≠ .get key)
    (hnow : c ≠ .now) (hdelete : ∀ key, c ≠ .delete key) :
    ∃ payload ttl k q, requests m = .wrap payload ttl ∧
      own m (st.events env requests w schedule) = calls k ∧ Follows (st.wrap payload ttl).run k q := by
  have hfollows := follows_own st env requests w schedule m
  cases hrequest : requests m with
  | wrap payload ttl =>
    rw [hrequest] at hfollows
    obtain ⟨k, q, hk, hfollows, -⟩ := follows_lift hfollows
    rcases Follows.of_bind hfollows with ⟨p, hp, -⟩ | ⟨r, k₁, k₂, rfl, hfirst, hsecond⟩
    · exact ⟨payload, ttl, k, p, rfl, hk, hp⟩
    · obtain ⟨rfl, -⟩ := Follows.of_ret hsecond
      rw [List.append_nil] at hk
      exact ⟨payload, ttl, k₁, _, rfl, hk, hfirst⟩
  | unwrap token =>
    rw [hrequest] at hfollows
    have hunwrap : Within (fun c' => c' ≠ c) (st.unwrap token).run :=
      within_unwrap (Ne.symm (hget _)) (Ne.symm hnow) (Ne.symm (hdelete _))
    have hwithin : Within (fun c' => c' ≠ c) (do return Response.unwrapped (← (st.unwrap token).run)) :=
      hunwrap.bind fun _ => trivial
    obtain ⟨k, p, hk, hmem⟩ := of_mem_guarded hfollows (mem_own.mpr hmem)
    exact absurd rfl (hwithin.of_follows hk _ hmem)

/-- What a call that wrote did. -/
theorem own_of_put {m : ι} {key : Key} {value : Bytes}
    (hput : (m, ⟨.call (.put key value), .ok ()⟩) ∈ st.events env requests w schedule) :
    ∃ payload ttl b t, requests m = .wrap payload ttl ∧
      own m (st.events env requests w schedule)
        = calls [⟨.randRead tokenBytes, .ok b⟩, ⟨.now, t⟩, ⟨.put key value, .ok ()⟩] ∧
      key = st.storeKey (tokenOf b) ∧ st.json.marshal ⟨payload, t, t + effectiveTTL ttl⟩ = some value := by
  obtain ⟨payload, ttl, k, q, hm, hown, hk⟩ := wraps_of_mem hput (by nofun) (by nofun) (by nofun)
  have hmem := mem_own.mpr hput
  rw [hown, mem_calls] at hmem
  obtain ⟨b, t, rfl, hkey, hvalue⟩ := wrap_put hk hmem
  exact ⟨payload, ttl, b, t, hm, hown, hkey, hvalue⟩

/-- A key is written by one call only, and with one value. -/
theorem put_inj (hfresh : st.Fresh env requests w schedule) {m m' : ι} {key : Key} {value value' : Bytes}
    (hput : (m, ⟨.call (.put key value), .ok ()⟩) ∈ st.events env requests w schedule)
    (hput' : (m', ⟨.call (.put key value'), .ok ()⟩) ∈ st.events env requests w schedule) :
    m = m' ∧ value = value' := by
  obtain ⟨-, -, b, t, -, hown, hkey, -⟩ := own_of_put hput
  obtain ⟨-, -, b', t', -, hown', hkey', -⟩ := own_of_put hput'
  cases storeKey_tokenOf_inj (hkey.symm.trans hkey')
  have hdraw : ∀ {m : ι} {t : Time} {value : Bytes}, own m (st.events env requests w schedule)
        = calls [⟨.randRead tokenBytes, .ok b⟩, ⟨.now, t⟩, ⟨.put key value, .ok ()⟩] →
      (m, ⟨.call (.randRead tokenBytes), .ok b⟩) ∈ st.events env requests w schedule := by
    intro m t value hown
    rw [← mem_own, hown, mem_calls]
    exact List.mem_cons_self
  cases hfresh.distinct m m' b (hdraw hown) (hdraw hown')
  rw [hown] at hown'
  have hcalls : (⟨.put key value, .ok ()⟩ : (c : Call) × Reply c) ∈
      [⟨.randRead tokenBytes, .ok b⟩, ⟨.now, t'⟩, ⟨.put key value', .ok ()⟩] := by
    rw [← mem_calls, ← hown', mem_calls]
    simp
  refine ⟨rfl, ?_⟩
  simpa using hcalls

/-- What is written was not there at the start. -/
theorem notMem_of_put (hfresh : st.Fresh env requests w schedule) {m : ι} {key : Key} {value : Bytes}
    (hput : (m, ⟨.call (.put key value), .ok ()⟩) ∈ st.events env requests w schedule) :
    w.store.lookup key = none := by
  obtain ⟨-, -, b, t, -, hown, rfl, -⟩ := own_of_put hput
  refine Finmap.lookup_eq_none.mpr (hfresh.unused m b ?_)
  rw [← mem_own, hown, mem_calls]
  exact List.mem_cons_self

/-- A key is written once. -/
theorem put_once (hfresh : st.Fresh env requests w schedule) {m m' : ι} {key : Key} {value value' : Bytes}
    {before after : List (ι × (op : Locked Call) × Locked.Reply Reply op)}
    (hsplit : st.events env requests w schedule = before ++ after)
    (hput : (m, ⟨.call (.put key value), .ok ()⟩) ∈ before)
    (hput' : (m', ⟨.call (.put key value'), .ok ()⟩) ∈ after) : False := by
  have hevent : (m, ⟨.call (.put key value), .ok ()⟩) ∈ st.events env requests w schedule :=
    hsplit ▸ List.mem_append_left _ hput
  obtain ⟨rfl, rfl⟩ := put_inj hfresh hevent (hsplit ▸ List.mem_append_right _ hput')
  obtain ⟨-, -, b, t, -, hown, -, -⟩ := own_of_put hevent
  rw [hsplit, own_append] at hown
  -- The write is the last of three steps, so nothing comes after it.
  obtain ⟨rest, e, heq⟩ :=
    (List.eq_nil_or_concat' (own m after)).resolve_left (List.ne_nil_of_mem (mem_own.mpr hput'))
  rw [heq, ← List.append_assoc] at hown
  have hown : (own m before ++ rest) ++ [e] = calls [⟨Call.randRead tokenBytes, .ok b⟩, ⟨Call.now, t⟩]
      ++ calls [⟨Call.put key value, .ok ()⟩] := hown
  obtain ⟨hfirst, -⟩ := List.append_inj' hown rfl
  have hmem : ⟨.call (.put key value), .ok ()⟩ ∈ calls [⟨Call.randRead tokenBytes, .ok b⟩, ⟨Call.now, t⟩] :=
    hfirst ▸ List.mem_append_left _ (mem_own.mpr hput)
  simp [calls] at hmem

omit [DecidableEq ι] in
/-- What a call found was there at the start, or was written before. -/
theorem found {i : ι} {key : Key} {blob : Bytes} {s s' : World × Bool}
    {before after : List (ι × (op : Locked Call) × Locked.Reply Reply op)}
    (hreplies : Replies (handler env.answer) Locked.Waits s
      ((before ++ (i, ⟨.call (.get key), .ok (some blob)⟩) :: after).map Prod.snd) s') :
    s.1.store.lookup key = some blob ∨ ∃ m, (m, ⟨.call (.put key blob), .ok ()⟩) ∈ before := by
  rw [List.map_append] at hreplies
  obtain ⟨s₁, hbefore, -, s₂, hanswer, -⟩ := Replies.of_append hreplies
  exact lookup_of_events hbefore (lookup_of_get (of_handler_call hanswer)).1

/-- Whoever finds a payload after another was through with it did not find it. -/
theorem not_twice (hwaits : st.Waits env requests w schedule) (hfresh : st.Fresh env requests w schedule)
    {i j : ι} {token : Bytes} {payload payload' : RawMessage} (hi : requests i = .unwrap token)
    (hj : requests j = .unwrap token)
    (hireturns : st.Returns env requests w schedule i (.unwrapped (.ok payload)))
    (hjreturns : st.Returns env requests w schedule j (.unwrapped (.ok payload')))
    {before after : List (ι × (op : Locked Call) × Locked.Reply Reply op)}
    (hsplit : st.events env requests w schedule = before ++ after) (hjbefore : own j before = [])
    (hiafter : own i after = []) : False := by
  have hifollows := follows_own st env requests w schedule i
  have hjfollows := follows_own st env requests w schedule j
  rw [hi, hireturns, hsplit, own_append, hiafter, List.append_nil] at hifollows
  rw [hj, hjreturns, hsplit, own_append, hjbefore, List.nil_append] at hjfollows
  obtain ⟨blob, t, record, hiown, -⟩ := unwrap_returned hifollows
  obtain ⟨blob', t', record', hjown, -⟩ := unwrap_returned hjfollows
  obtain ⟨a, rest, rfl, -, hrest⟩ := exists_split_of_own [_] hiown
  obtain ⟨c, c', rfl, -, -⟩ := exists_split_of_own [_] hrest
  obtain ⟨d, d', rfl, -, -⟩ := exists_split_of_own [_] hjown
  -- What the second found was written after the first had deleted it.
  have hreplies := replies_own hwaits
  have hsecond : ∃ m, (m, ⟨.call (.put (st.storeKey token) blob'), .ok ()⟩) ∈ c' ++ d := by
    have hassoc : st.events env requests w schedule
        = (a ++ (i, ⟨.call (.get (st.storeKey token)), .ok (some blob)⟩) :: c) ++
          (i, ⟨.call (.delete (st.storeKey token)), .ok ()⟩) ::
            (c' ++ d ++ (j, ⟨.call (.get (st.storeKey token)), .ok (some blob')⟩) :: d') := by
      rw [hsplit]
      simp
    rw [hassoc, List.map_append] at hreplies
    obtain ⟨s₁, -, -, s₂, hdelete, hlater⟩ := Replies.of_append hreplies
    have hgone := lookup_of_delete (of_handler_call hdelete)
    rcases found hlater with hthere | hput
    · cases hgone.symm.trans hthere
    · exact hput
  obtain ⟨m', hput'⟩ := hsecond
  have hassoc : st.events env requests w schedule
      = a ++ (i, ⟨.call (.get (st.storeKey token)), .ok (some blob)⟩) ::
        (c ++ (i, ⟨.call (.delete (st.storeKey token)), .ok ()⟩) ::
          (c' ++ d ++ (j, ⟨.call (.get (st.storeKey token)), .ok (some blob')⟩) :: d')) := by
    rw [hsplit]
    simp
  -- What the first found was there, or was written before: then the key was not fresh.
  rw [hassoc] at hreplies
  have hlater : (m', ⟨.call (.put (st.storeKey token) blob'), .ok ()⟩) ∈
      (i, ⟨.call (.get (st.storeKey token)), .ok (some blob)⟩) ::
        (c ++ (i, ⟨.call (.delete (st.storeKey token)), .ok ()⟩) ::
          (c' ++ d ++ (j, ⟨.call (.get (st.storeKey token)), .ok (some blob')⟩) :: d')) :=
    List.mem_cons_of_mem _ (List.mem_append_right _ (List.mem_cons_of_mem _ (List.mem_append_left _ hput')))
  rcases found hreplies with hthere | ⟨m, hput⟩
  · have hnone := notMem_of_put hfresh (hassoc ▸ List.mem_append_right a hlater)
    cases hnone.symm.trans hthere
  · exact put_once hfresh hassoc hput hlater

/-- What was found for a token is what the call that made the token wrote. -/
theorem found_written (hwaits : st.Waits env requests w schedule) (hfresh : st.Fresh env requests w schedule)
    {m i : ι} {key : Key} {value blob : Bytes}
    (hput : (m, ⟨.call (.put key value), .ok ()⟩) ∈ st.events env requests w schedule)
    (hget : (i, ⟨.call (.get key), .ok (some blob)⟩) ∈ st.events env requests w schedule) : blob = value := by
  obtain ⟨before, after, hsplit⟩ := List.append_of_mem hget
  have hreplies := replies_own hwaits
  rw [hsplit] at hreplies
  rcases found hreplies with hthere | ⟨m', hput'⟩
  · cases (notMem_of_put hfresh hput).symm.trans hthere
  · exact (put_inj hfresh (hsplit ▸ List.mem_append_left _ hput') hput).2

/--
**A wrapping token is good for one call.**  Whatever the order in which the calls go on and
whichever of them fail, at most one `Unwrap` returns the payload of a token.  It is the
JSON text that was wrapped, in its compact form, and the clock of that call was not past
the expiry.
-/
theorem unwrap_at_most_once (hwaits : st.Waits env requests w schedule)
    (hfresh : st.Fresh env requests w schedule) :
    (∀ i j token payload payload', requests i = .unwrap token → requests j = .unwrap token →
      st.Returns env requests w schedule i (.unwrapped (.ok payload)) →
      st.Returns env requests w schedule j (.unwrapped (.ok payload')) → i = j) ∧
    ∀ m payload ttl info, requests m = .wrap payload ttl →
      st.Returns env requests w schedule m (.wrapped (.ok info)) →
      ∀ i payload', requests i = .unwrap info.token →
        st.Returns env requests w schedule i (.unwrapped (.ok payload')) →
        payload' = compact payload ∧
          ∀ t, (i, ⟨.call .now, t⟩) ∈ st.events env requests w schedule → t ≤ info.expiresAt := by
  constructor
  · intro i j token payload payload' hi hj hireturns hjreturns
    by_contra hne
    have hthreads : ∀ i, ∃ p : Prog Response, (st.pool requests w).threads i = lift p ∨
        (st.pool requests w).threads i = guarded p := by
      intro i
      show ∃ p : Prog Response, st.call (requests i) = lift p ∨ st.call (requests i) = guarded p
      cases requests i with
      | wrap payload ttl => exact ⟨_, .inl rfl⟩
      | unwrap token => exact ⟨_, .inr rfl⟩
    have hguarded : ∀ {i}, requests i = .unwrap token → (st.pool requests w).threads i
        = guarded (do return .unwrapped (← (st.unwrap token).run)) := by
      intro i hi
      show st.call (requests i) = _
      rw [hi]
      rfl
    obtain ⟨before, after, hsplit, ⟨hjbefore, hiafter⟩ | ⟨hibefore, hjafter⟩⟩ :=
      disjoint_events hne hthreads rfl hwaits (hguarded hi) (hguarded hj) hireturns hjreturns
    · exact not_twice hwaits hfresh hi hj hireturns hjreturns hsplit hjbefore hiafter
    · exact not_twice hwaits hfresh hj hi hjreturns hireturns hsplit hibefore hjafter
  · intro m payload ttl info hm hmreturns i payload' hi hireturns
    have hmfollows := follows_own st env requests w schedule m
    have hifollows := follows_own st env requests w schedule i
    rw [hm, hmreturns] at hmfollows
    rw [hi, hireturns] at hifollows
    obtain ⟨t, value, hput, hexpires, hvalue⟩ := wrap_returned hmfollows
    obtain ⟨blob, t', record, hown, hrecord, hintime, rfl⟩ := unwrap_returned hifollows
    have hget : (i, ⟨.call (.get (st.storeKey info.token)), .ok (some blob)⟩)
        ∈ st.events env requests w schedule := by
      rw [← mem_own, hown]
      simp
    -- So the record that was read back is the one that was written.
    cases found_written hwaits hfresh (mem_own.mp hput) hget
    cases hrecord.symm.trans (st.json.unmarshal_marshal _ _ hvalue)
    refine ⟨rfl, fun s hs => ?_⟩
    rw [← mem_own, hown] at hs
    have heq : s = t' := by simpa using hs
    rw [heq, hexpires]
    exact hintime

end Run

theorem validKey_storeKey (token : Bytes) : validKey (st.storeKey token) = true := by
  have hpfx : validKey (str "sys/wrapping") = true := by decide_cbv
  have hkey : st.storeKey token = str "sys/wrapping" ++ slash :: hexEncode (st.sha256.sum token) := by
    rw [Store.storeKey, show storePrefix = str "sys/wrapping" ++ [slash] by decide_cbv]
    simp
  rw [hkey]
  exact validKey_append_hexEncode hpfx (st.sha256.sum_ne_nil token)

/-! ### One token, wrapped and unwrapped twice -/

def Wrapped.wire : Wire Wrapped :=
  (Wire.bytes.pair (Wire.int.pair Wire.int)).via
    (fun r => (r.payload, r.createdTime, r.expiresAt)) (fun r => ⟨r.1, r.2.1, r.2.2⟩) fun _ => rfl

/-- A store that hides nothing. -/
def Store.transparent : Store where
  sha256 := .transparent 0
  json :=
    let codec : Codec Byte Wrapped fun _ => True := Wrapped.wire.codec
    ⟨fun r => some (codec.marshal { r with payload := compact r.payload }), codec.unmarshal, by
      rintro r blob h
      cases h
      exact codec.unmarshal_marshal _ trivial⟩

/-- The first random bytes where all are zero. -/
def zeros : {b : Bytes // b.length = tokenBytes} := Env.random .faultless 0 tokenBytes

/-- One call wraps, and the others unwrap what it gets. -/
def threeCalls : Fin 3 → Request
  | 0 => .wrap (str "\x7b\"a\": 1\x7d") 0
  | _ => .unwrap (tokenOf zeros)

/-- The third call waits for the lock, and finds nothing. -/
def unwrapTwice : List (Fin 3) := [0, 0, 0, 1, 1, 1, 1, 1, 2, 2, 2]

theorem fresh_threeCalls (schedule : List (Fin 3)) :
    Store.transparent.Fresh .faultless threeCalls ⟨∅, 0⟩ schedule := by
  have hwraps : ∀ i b, (i, ⟨.call (.randRead tokenBytes), .ok b⟩)
      ∈ Store.transparent.events .faultless threeCalls ⟨∅, 0⟩ schedule → i = 0 := by
    intro i b hi
    obtain ⟨payload, ttl, -, -, hrequest, -⟩ := wraps_of_mem hi (by nofun) (by nofun) (by nofun)
    fin_cases i
    · rfl
    · cases hrequest
    · cases hrequest
  exact ⟨fun i j b hi hj => (hwraps i b hi).trans (hwraps j b hj).symm,
    fun _ _ _ => Finmap.notMem_empty⟩

/-- One call gets the payload, without its blank, and the other gets an error. -/
theorem unwrap_at_most_once_pair :
    Store.transparent.Waits .faultless threeCalls ⟨∅, 0⟩ unwrapTwice ∧
    Store.transparent.Returns .faultless threeCalls ⟨∅, 0⟩ unwrapTwice 1
      (.unwrapped (.ok (str "\x7b\"a\":1\x7d"))) ∧
    Store.transparent.Returns .faultless threeCalls ⟨∅, 0⟩ unwrapTwice 2
      (.unwrapped (.error (.wrapping .notFound))) ∧
    ∀ i payload, threeCalls i = .unwrap (tokenOf zeros) →
      Store.transparent.Returns .faultless threeCalls ⟨∅, 0⟩ unwrapTwice i
        (.unwrapped (.ok payload)) → i = 1 := by
  have hwaits : Store.transparent.Waits .faultless threeCalls ⟨∅, 0⟩ unwrapTwice := by
    unfold Store.Waits
    decide +kernel
  have hreturns : Store.transparent.Returns .faultless threeCalls ⟨∅, 0⟩ unwrapTwice 1
      (.unwrapped (.ok (str "\x7b\"a\":1\x7d"))) :=
    Pool.threads_eq_ret_iff.mpr (by decide +kernel)
  have honce := unwrap_at_most_once hwaits (fresh_threeCalls _)
  exact ⟨hwaits, hreturns, Pool.threads_eq_ret_iff.mpr (by decide +kernel),
    fun i payload hi hireturns => honce.1 i 1 _ payload _ hi rfl hireturns hreturns⟩

end UbixVault.Wrapping
