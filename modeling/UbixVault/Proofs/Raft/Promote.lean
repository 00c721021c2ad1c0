/-
Promotion only after stabilization.

`caughtUp` holds since when a node has been caught up.  The invariant says so in
terms of the history: an entry is the time of an evaluation after which no
evaluation found the node otherwise.  An evaluation that finds a node due reads
that entry.
-/
import UbixVault.Raft.Promote

namespace UbixVault.Raft.Promote

variable {p : Promotion} {id : ServerID}

theorem Promotion.filled_stabilization_pos (p : Promotion) : 0 < p.filled.stabilization := by
  unfold Promotion.filled
  dsimp only
  split_ifs with h
  · decide
  · exact Int.not_le.mp h

/-- A node that counts as caught up has a fresh report and trails by the threshold at most. -/
theorem current_iff {report : Option AppliedReport} {leaderIdx : UInt64} {now : Time} :
    current p report leaderIdx now = true ↔
      ∃ rep, report = some rep ∧ now - rep.at ≤ p.maxReportAge ∧
        leaderIdx.toNat ≤ rep.index.toNat + p.threshold.toNat := by
  cases report with
  | none => simp [current]
  | some rep =>
    have hsub : rep.index < leaderIdx → (leaderIdx - rep.index).toNat
        = leaderIdx.toNat - rep.index.toNat := fun h => UInt64.toNat_sub_of_le _ _ (UInt64.le_of_lt h)
    simp only [current, Option.any_some, Option.map_some, Option.getD_some, Bool.not_or,
      Bool.not_not, Bool.and_eq_true, decide_eq_true_eq, Bool.not_eq_true', Bool.and_eq_false_imp,
      decide_eq_false_iff_not, Option.some.injEq, exists_eq_left']
    refine and_congr_right fun _ => ?_
    rw [UInt64.lt_iff_toNat_lt, UInt64.lt_iff_toNat_lt]
    constructor
    · intro h
      by_cases hlt : rep.index.toNat < leaderIdx.toNat
      · have := h hlt
        rw [hsub (UInt64.lt_iff_toNat_lt.mpr hlt)] at this
        omega
      · omega
    · intro h hlt
      rw [hsub (UInt64.lt_iff_toNat_lt.mpr hlt)]
      omega

/-! ### One evaluation -/

section Evaluation

variable {reports : ServerID → Option AppliedReport} {leaderIdx : UInt64} {now : Time}
  {before : ServerID → Option Time}

/-- What the loop over the servers `visited` has done to the entries `before`. -/
structure Swept (p : Promotion) (reports : ServerID → Option AppliedReport) (leaderIdx : UInt64)
    (now : Time) (before : ServerID → Option Time) (visited : List Server) (acc : Sweep) : Prop where
  listed : ∀ id, acc.seen id = true → ∃ s ∈ visited, s.id = id ∧ s.voter = false
  since : ∀ id t, acc.caughtUp id = some t → before id = some t ∨ t = now
  current : ∀ id t, acc.caughtUp id = some t → acc.seen id = true →
    current p (reports id) leaderIdx now = true
  due : ∀ s ∈ acc.due, s ∈ visited ∧ s.voter = false ∧
    Promote.current p (reports s.id) leaderIdx now = true ∧
    ∃ t, before s.id = some t ∧ p.stabilization ≤ now - t

/-- What one turn does to the entry of its own server is all it does. -/
private theorem Swept.turn {visited : List Server} {acc : Sweep} {s : Server}
    {caughtUp : ServerID → Option Time} {due : List Server}
    (h : Swept p reports leaderIdx now before visited acc) (hs : s.voter = false)
    (hother : ∀ id, id ≠ s.id → caughtUp id = acc.caughtUp id)
    (hown : ∀ t, caughtUp s.id = some t → (before s.id = some t ∨ t = now) ∧
      Promote.current p (reports s.id) leaderIdx now = true)
    (hdue : ∀ s' ∈ due, s' ∈ acc.due ∨ s' = s ∧
      Promote.current p (reports s.id) leaderIdx now = true ∧
      ∃ t, before s.id = some t ∧ p.stabilization ≤ now - t) :
    Swept p reports leaderIdx now before (visited ++ [s])
      ⟨caughtUp, Function.update acc.seen s.id true, due⟩ where
  listed id hseen := by
    by_cases hid : id = s.id
    · exact ⟨s, by simp, hid.symm, hs⟩
    · dsimp only at hseen
      rw [Function.update_of_ne hid] at hseen
      obtain ⟨s', hmem, hrest⟩ := h.listed id hseen
      exact ⟨s', List.mem_append_left _ hmem, hrest⟩
  since id t hentry := by
    by_cases hid : id = s.id
    · subst hid
      exact (hown t hentry).1
    · exact h.since id t ((hother id hid).symm.trans hentry)
  current id t hentry hseen := by
    by_cases hid : id = s.id
    · subst hid
      exact (hown t hentry).2
    · dsimp only at hseen
      rw [Function.update_of_ne hid] at hseen
      exact h.current id t ((hother id hid).symm.trans hentry) hseen
  due s' hs' := by
    rcases hdue s' hs' with hmem | ⟨rfl, hcurrent, hsince⟩
    · obtain ⟨hvisited, hrest⟩ := h.due s' hmem
      exact ⟨List.mem_append_left _ hvisited, hrest⟩
    · exact ⟨by simp, hs, hcurrent, hsince⟩

theorem Swept.visit (hpos : 0 < p.stabilization) {visited : List Server} {acc : Sweep}
    (h : Swept p reports leaderIdx now before visited acc) (s : Server) :
    Swept p reports leaderIdx now before (visited ++ [s])
      (visit p reports leaderIdx now acc s) := by
  unfold Promote.visit
  split_ifs with hvoter hcurrent
  · exact ⟨fun id hseen => (h.listed id hseen).imp fun _ h => ⟨List.mem_append_left _ h.1, h.2⟩,
      h.since, h.current, fun s' hs' => (h.due s' hs').imp_left (List.mem_append_left _)⟩
  · have hs : s.voter = false := by simpa using hvoter
    dsimp only
    cases hentry : acc.caughtUp s.id with
    | none =>
      refine h.turn hs (fun id hid => Function.update_of_ne hid _ _) ?_ fun s' hs' => .inl hs'
      intro t ht
      rw [Function.update_self, Option.some.injEq] at ht
      exact ⟨.inr ht.symm, hcurrent⟩
    | some since =>
      have hbefore := h.since s.id since hentry
      dsimp only
      split_ifs with hwindow
      · refine h.turn hs (fun _ _ => rfl) ?_ fun s' hs' => .inl hs'
        intro t ht
        exact ⟨h.since s.id t ht, hcurrent⟩
      · refine h.turn hs (fun id hid => Function.update_of_ne hid _ _) ?_ ?_
        · intro t ht
          rw [Function.update_self] at ht
          cases ht
        · intro s' hs'
          rw [List.mem_append, List.mem_singleton] at hs'
          refine hs'.imp_right fun heq => ⟨heq, hcurrent, since, ?_, Int.not_lt.mp hwindow⟩
          -- an entry of this very evaluation is not old enough
          refine hbefore.resolve_right fun hnow => hwindow ?_
          rw [hnow, Int.sub_self]
          exact hpos
  · refine h.turn (by simpa using hvoter) (fun id hid => Function.update_of_ne hid _ _) ?_
      fun s' hs' => .inl hs'
    intro t ht
    rw [Function.update_self] at ht
    cases ht

theorem swept_foldl (hpos : 0 < p.stabilization) (servers : List Server) :
    Swept p reports leaderIdx now before servers
      (servers.foldl (visit p reports leaderIdx now) ⟨before, fun _ => false, []⟩) := by
  induction servers using List.reverseRecOn with
  | nil =>
    exact ⟨fun _ h => (by cases h), fun _ _ h => .inl h, fun _ _ _ h => (by cases h), fun _ h => (by cases h)⟩
  | append_singleton visited s ih =>
    rw [List.foldl_append]
    exact ih.visit hpos s

/-- An entry that an evaluation leaves was there before, or is of this evaluation. -/
theorem evaluate_caughtUp (hpos : 0 < p.stabilization) {st : Promoter} {r : Reading} {t : Time}
    (h : (st.evaluate p r).1.caughtUp id = some t) :
    r.leader = true ∧
      ((∃ e, r.configuration = .error e) ∧ st.caughtUp id = some t ∨
        ∃ servers, r.configuration = .ok servers ∧ (∃ s ∈ servers, s.id = id ∧ s.voter = false) ∧
          current p (st.reports id) r.lastIndex r.now = true ∧
          (st.caughtUp id = some t ∨ t = r.now)) := by
  unfold Promoter.evaluate at h
  split_ifs at h with hleader
  · refine ⟨hleader, ?_⟩
    cases hcfg : r.configuration with
    | error e =>
      rw [hcfg] at h
      exact .inl ⟨⟨e, rfl⟩, h⟩
    | ok servers =>
      rw [hcfg] at h
      have hswept : Swept p st.reports r.lastIndex r.now st.caughtUp servers _ :=
        swept_foldl hpos servers
      dsimp only at h
      split_ifs at h with hseen
      · exact .inr ⟨servers, rfl, hswept.listed id hseen, hswept.current id t h hseen,
          hswept.since id t h⟩

/-- Who is due is a listed non-voter, caught up, whose entry is as old as it must be. -/
theorem evaluate_due (hpos : 0 < p.stabilization) {st : Promoter} {r : Reading} {s : Server}
    (h : s ∈ (st.evaluate p r).2) :
    r.leader = true ∧ ∃ servers, r.configuration = .ok servers ∧ s ∈ servers ∧ s.voter = false ∧
      current p (st.reports s.id) r.lastIndex r.now = true ∧
      ∃ t, st.caughtUp s.id = some t ∧ p.stabilization ≤ r.now - t := by
  unfold Promoter.evaluate at h
  split_ifs at h with hleader
  · refine ⟨hleader, ?_⟩
    cases hcfg : r.configuration with
    | error e =>
      rw [hcfg] at h
      cases h
    | ok servers =>
      rw [hcfg] at h
      exact ⟨servers, rfl, (swept_foldl hpos servers).due s h⟩
  · cases h

theorem evaluate_reports (st : Promoter) (r : Reading) :
    (st.evaluate p r).1.reports = st.reports ∧ (st.evaluate p r).1.due = st.due := by
  unfold Promoter.evaluate
  split_ifs
  · cases r.configuration <;> exact ⟨rfl, rfl⟩
  · exact ⟨rfl, rfl⟩

end Evaluation

/-! ### Runs -/

section Runs

variable {es : List Event} {st : Promoter}

theorem latestReport_append (es : List Event) (e : Event) (id : ServerID) :
    latestReport (es ++ [e]) id = (e.report id).or (latestReport es id) := by
  unfold latestReport
  rw [List.filterMap_append]
  cases h : e.report id with
  | none => simp [h]
  | some rep => simp [h]

/-- What a steady stretch goes on with is any event that does not break it. -/
theorem Steady.append {since : Time} {e : Event} (h : Steady p id since es)
    (he : Unbroken p id es e) : Steady p id since (es ++ [e]) := by
  obtain ⟨first, e₀, between, r₀, rfl, haction, hnow, hgood, hbetween⟩ := h
  refine ⟨first, e₀, between ++ [e], r₀, by simp, haction, hnow, hgood, ?_⟩
  exact Run.throughout_append.mpr ⟨hbetween, he⟩

/-- The server was due at an evaluation that a steady stretch of the period led to. -/
def Earned (p : Promotion) (s : Server) (es : List Event) : Prop :=
  ∃ earlier e later r since, es = earlier ++ e :: later ∧ e.action = .promoteOnce r ∧ s ∈ e.due ∧
    Good p s.id earlier r ∧ Steady p s.id since earlier ∧ p.stabilization ≤ r.now - since

theorem Earned.append {s : Server} (h : Earned p s es) (e : Event) : Earned p s (es ++ [e]) := by
  obtain ⟨earlier, e', later, r, since, rfl, hrest⟩ := h
  exact ⟨earlier, e', later ++ [e], r, since, by simp, hrest⟩

/-- What the promoter remembers, in terms of the history. -/
structure Remembers (p : Promotion) (es : List Event) (st : Promoter) : Prop where
  reports : ∀ id rep, st.reports id = some rep → latestReport es id = some rep
  caughtUp : ∀ id t, st.caughtUp id = some t → Steady p id t es
  due : ∀ s ∈ st.due, Earned p s es
  handed : Run.Throughout (fun earlier e => ∀ s, e.handed = some s → Earned p s earlier) es

theorem caughtUp_of_current {r : Reading} {servers : List Server} (h : Remembers p es st)
    (hlisted : ∃ s ∈ servers, s.id = id ∧ s.voter = false)
    (hcurrent : current p (st.reports id) r.lastIndex r.now = true) :
    CaughtUp p es r servers id := by
  obtain ⟨rep, hrep, hfresh, hclose⟩ := current_iff.mp hcurrent
  exact ⟨hlisted, rep, h.reports id rep hrep, hfresh, hclose⟩

theorem unbroken_of_ne {e : Event} (h : ∀ r, e.action ≠ .promoteOnce r) : Unbroken p id es e :=
  fun r hr => absurd hr (h r)

private theorem Remembers.handed_append (h : Remembers p es st) {e : Event}
    (he : ∀ s, e.handed = some s → s ∈ st.due) :
    Run.Throughout (fun earlier e => ∀ s, e.handed = some s → Earned p s earlier) (es ++ [e]) :=
  Run.throughout_append.mpr ⟨h.handed, fun s hs => h.due s (he s hs)⟩

private theorem Remembers.reported (h : Remembers p es st) (index : UInt64) (now : Time) :
    Remembers p (es ++ [st.step p (.reportApplied id index now)]) (st.reportApplied id index now) where
  reports id' rep hrep := by
    rw [latestReport_append]
    by_cases hid : id' = id
    · subst hid
      have hnew : some ⟨index, now⟩ = some rep := (Function.update_self id' _ _).symm.trans hrep
      simp [Event.report, Promoter.step, hnew]
    · replace hrep : st.reports id' = some rep := (Function.update_of_ne hid _ _).symm.trans hrep
      simp [Event.report, Promoter.step, Ne.symm hid, h.reports id' rep hrep]
  caughtUp id' t ht := (h.caughtUp id' t ht).append (unbroken_of_ne (by nofun))
  due s hs := (h.due s hs).append _
  handed := h.handed_append (by nofun)

private theorem Remembers.evaluated (hpos : 0 < p.stabilization) (h : Remembers p es st)
    (r : Reading) :
    Remembers p (es ++ [st.step p (.promoteOnce r)]) (st.step p (.promoteOnce r)).after where
  reports id rep hrep := by
    rw [latestReport_append]
    have hold : st.reports id = some rep := (congrFun (evaluate_reports st r).1 id).symm.trans hrep
    exact h.reports id rep hold
  caughtUp id t ht := by
    obtain ⟨hleader, hfailed | ⟨servers, hcfg, hlisted, hcurrent, hsince⟩⟩ := evaluate_caughtUp hpos ht
    · obtain ⟨⟨e, hcfg⟩, hentry⟩ := hfailed
      refine (h.caughtUp id t hentry).append ?_
      rintro r' ⟨⟩
      refine ⟨hleader, fun servers hservers => ?_⟩
      rw [hcfg] at hservers
      cases hservers
    · have hup : CaughtUp p es r servers id := caughtUp_of_current h hlisted hcurrent
      rcases hsince with hentry | rfl
      · refine (h.caughtUp id t hentry).append ?_
        rintro r' ⟨⟩
        refine ⟨hleader, fun servers' hservers => ?_⟩
        rw [hcfg] at hservers
        cases hservers
        exact hup
      · exact ⟨es, _, [], r, rfl, rfl, rfl, ⟨hleader, servers, hcfg, hup⟩, Run.throughout_nil⟩
  due s hs := by
    have hmem : s ∈ st.due ∨ s ∈ (st.evaluate p r).2 := by
      rw [← (evaluate_reports (p := p) st r).2]
      exact List.mem_append.mp hs
    rcases hmem with hold | hnew
    · exact (h.due s hold).append _
    · obtain ⟨hleader, servers, hcfg, hservers, hvoter, hcurrent, t, hentry, hold⟩ :=
        evaluate_due hpos hnew
      exact ⟨es, _, [], r, t, rfl, rfl, hnew,
        ⟨hleader, servers, hcfg, caughtUp_of_current h ⟨s, hservers, rfl, hvoter⟩ hcurrent⟩,
        h.caughtUp s.id t hentry, hold⟩
  handed := h.handed_append (by nofun)

private theorem Remembers.added (h : Remembers p es st) (added : Bool) :
    Remembers p (es ++ [st.step p (.addVoter added)]) (st.step p (.addVoter added)).after := by
  have hbroken : ∀ id, Unbroken p id es (st.step p (.addVoter added)) :=
    fun id => unbroken_of_ne (by nofun)
  have hlatest : ∀ id, latestReport (es ++ [st.step p (.addVoter added)]) id = latestReport es id :=
    fun id => latestReport_append es _ id
  cases hdue : st.due with
  | nil =>
    have hafter : (st.step p (.addVoter added)).after = st := by
      simp [Promoter.step, Promoter.addVoter, hdue]
    have hnone : (st.step p (.addVoter added)).handed = none := by
      simp [Promoter.step, Promoter.addVoter, hdue]
    rw [hafter]
    refine ⟨fun id rep hrep => (hlatest id).trans (h.reports id rep hrep),
      fun id t ht => (h.caughtUp id t ht).append (hbroken id), fun s hs => (h.due s hs).append _,
      h.handed_append fun s hs => ?_⟩
    rw [hnone] at hs
    cases hs
  | cons next rest =>
    have hafter : (st.step p (.addVoter added)).after =
        { st with
          due := rest
          reports := if added then Function.update st.reports next.id none else st.reports } := by
      simp [Promoter.step, Promoter.addVoter, hdue]
    have hnext : (st.step p (.addVoter added)).handed = some next := by
      simp [Promoter.step, Promoter.addVoter, hdue]
    rw [hafter]
    refine ⟨fun id rep hrep => (hlatest id).trans (h.reports id rep ?_),
      fun id t ht => (h.caughtUp id t ht).append (hbroken id), fun s hs => ?_,
      h.handed_append fun s hs => ?_⟩
    · dsimp only at hrep
      split_ifs at hrep
      · by_cases hid : id = next.id
        · rw [hid, Function.update_self] at hrep
          cases hrep
        · rwa [Function.update_of_ne hid] at hrep
      · exact hrep
    · exact (h.due s (hdue ▸ List.mem_cons_of_mem _ hs)).append _
    · rw [hnext] at hs
      cases hs
      rw [hdue]
      exact List.mem_cons_self

theorem Remembers.step (hpos : 0 < p.stabilization) (h : Remembers p es st) (action : Action) :
    Remembers p (es ++ [st.step p action]) (st.step p action).after := by
  cases action with
  | reportApplied id index now => exact h.reported index now
  | promoteOnce r => exact h.evaluated hpos r
  | addVoter added => exact h.added added

theorem remembers_run (hpos : 0 < p.stabilization) (actions : List Action) :
    Remembers p (events p actions) (Run.final (Promoter.step p) Event.after Promoter.new actions) := by
  refine Run.holds ?_ (fun es st action h => h.step hpos action) actions
  exact ⟨fun _ _ h => (by cases h), fun _ _ h => (by cases h), fun _ h => (by cases h),
    Run.throughout_nil⟩

end Runs

-- with the defaults, a node that keeps up is handed over at the first evaluation ten seconds on
example :
    (events (Promotion.filled ⟨0, 0, 0, 0⟩)
      [.reportApplied [1] 100 0,
       .promoteOnce ⟨0, true, .ok [⟨[1], [9], false⟩], 116⟩,
       .reportApplied [1] 200 (9 * second),
       .promoteOnce ⟨9 * second, true, .ok [⟨[1], [9], false⟩], 216⟩,
       .promoteOnce ⟨10 * second, true, .ok [⟨[1], [9], false⟩], 216⟩,
       .addVoter true]).map Event.handed
      = [none, none, none, none, none, some ⟨[1], [9], false⟩] := by decide +kernel

end UbixVault.Raft.Promote
