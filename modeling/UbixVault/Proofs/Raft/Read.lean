/-
A consistent read reflects every write acknowledged before it began.

The newest leader has all the entries of earlier terms in its log, but perhaps not
applied; a barrier of its own term lies behind them all.  So a node that has passed
one has applied every entry of an earlier term, and it has applied the acknowledged
writes of its own term because it proposed them.
-/
import UbixVault.Raft.Read

namespace UbixVault.Raft.Read

variable {ι ρ : Type}

/-! ### The invariant -/

/-- The node led in the term, and has applied all that was committed in terms before. -/
structure Ready (c : Cluster ι ρ) (i : ι) (t : Nat) : Prop where
  led : c.leader t = some i
  le : t ≤ c.newest
  applied : ∀ k e, c.log[k]? = some e → e.term < t → k < (c.replica i).applied

/-- Every write of the floor is acknowledged, and of the term or an earlier one. -/
def Below (c : Cluster ι ρ) (floor : List Nat) (t : Nat) : Prop :=
  ∀ k ∈ floor, k ∈ c.acked ∧ ∃ e, c.log[k]? = some e ∧ e.term ≤ t

/-- What a call in progress has established. -/
def Call.Ok (c : Cluster ι ρ) (i : ι) (x : Call) : Prop :=
  match x.stage with
  | .verify => ∀ k ∈ x.floor, k ∈ c.acked
  | .term => Below c x.floor (c.replica i).term ∧ 0 < (c.replica i).term
  | .compare t | .barrier t => Below c x.floor t ∧ 0 < t ∧ t ≤ (c.replica i).term
  | .applied t n => Below c x.floor t ∧ 0 < t ∧
      ∃ e, c.log[n]? = some e ∧ e.node = i ∧ t ≤ e.term ∧ e.term ≤ (c.replica i).term
  | .verifyAgain t | .sameTerm t => Below c x.floor t ∧ 0 < t ∧
      ∃ s, Ready c i s ∧ t ≤ s ∧ s ≤ (c.replica i).term
  | .store t => Below c x.floor t ∧ Ready c i t
  | .get => ∀ k ∈ x.floor, k < (c.replica i).applied

structure Sound (c : Cluster ι ρ) : Prop where
  sorted : c.log.Pairwise (·.term ≤ ·.term)
  entry : ∀ e ∈ c.log, e.term ≤ c.newest ∧ c.leader e.term = some e.node
  leads : ∀ i, (c.replica i).leads = true → c.leader (c.replica i).term = some i ∧
    0 < (c.replica i).term ∧ (c.replica i).term ≤ c.newest
  acked : ∀ k ∈ c.acked, ∃ e, c.log[k]? = some e ∧ k < (c.replica e.node).applied
  ready : ∀ i, 0 < (c.replica i).readyTerm → Ready c i (c.replica i).readyTerm
  call : ∀ i q x, (c.replica i).call q = some x → x.Ok c i
  applied : ∀ i, (c.replica i).applied ≤ c.log.length
  result : ∀ x ∈ c.results, ∃ n ≤ c.log.length, x.value = (stateAt c.log n).lookup x.key ∧
    ∀ k ∈ x.floor, k < n

/-- **A node that is ready has applied every acknowledged write of its term or before.** -/
theorem Ready.floor {c : Cluster ι ρ} (h : Sound c) {i : ι} {t : Nat} (hready : Ready c i t)
    {floor : List Nat} (hfloor : Below c floor t) : ∀ k ∈ floor, k < (c.replica i).applied := by
  intro k hk
  obtain ⟨hacked, e, he, hle⟩ := hfloor k hk
  rcases Nat.lt_or_eq_of_le hle with hlt | rfl
  · exact hready.applied k e he hlt
  · -- An entry of the term itself was proposed by the node.
    obtain ⟨e', he', happlied⟩ := h.acked k hacked
    rw [he] at he'
    cases he'
    have hleader := (h.entry e (List.mem_of_getElem? he)).2
    rw [hready.led] at hleader
    cases hleader
    exact happlied

/-- A barrier of the node behind which everything is applied. -/
theorem ready_of_barrier {c : Cluster ι ρ} (h : Sound c) {i : ι} {n : Nat} {e : Entry ι}
    (he : c.log[n]? = some e) (hnode : e.node = i) (happlied : n < (c.replica i).applied) :
    Ready c i e.term := by
  obtain ⟨hle, hleader⟩ := h.entry e (List.mem_of_getElem? he)
  refine ⟨hnode ▸ hleader, hle, fun k e' he' hlt => ?_⟩
  -- The log is sorted, so an earlier term is at an earlier place.
  refine Nat.lt_trans (Nat.lt_of_not_le fun hnk => ?_) happlied
  obtain ⟨hn, rfl⟩ := List.getElem?_eq_some_iff.mp he
  obtain ⟨hk, rfl⟩ := List.getElem?_eq_some_iff.mp he'
  rcases Nat.lt_or_eq_of_le hnk with hnk | rfl
  · exact absurd (List.pairwise_iff_getElem.mp h.sorted n k hn hk hnk) (Nat.not_le_of_lt hlt)
  · exact absurd hlt (Nat.lt_irrefl _)

/-! ### Nothing established is undone -/

/-- The log grows at its end, by entries of the newest term; terms and what is applied grow. -/
structure Grows (c c' : Cluster ι ρ) : Prop where
  log : c.log <+: c'.log
  new : ∀ k e, c'.log[k]? = some e → c.log.length ≤ k → c.newest ≤ e.term
  newest : c.newest ≤ c'.newest
  leader : ∀ t ≤ c.newest, c'.leader t = c.leader t
  term : ∀ i, (c.replica i).term ≤ (c'.replica i).term
  applied : ∀ i, (c.replica i).applied ≤ (c'.replica i).applied
  acked : ∀ k ∈ c.acked, k ∈ c'.acked

variable {c c' : Cluster ι ρ} {i : ι}

theorem Grows.getElem? (hg : Grows c c') {k : Nat} {e : Entry ι} (he : c.log[k]? = some e) :
    c'.log[k]? = some e := by
  obtain ⟨t, ht⟩ := hg.log
  rw [← ht, List.getElem?_append_left (List.getElem?_eq_some_iff.mp he).1, he]

theorem Ready.mono {t : Nat} (h : Ready c i t) (hg : Grows c c') : Ready c' i t where
  led := by rw [hg.leader t h.le, h.led]
  le := Nat.le_trans h.le hg.newest
  applied k e he hlt := by
    rcases Nat.lt_or_ge k c.log.length with hk | hk
    · have hold : c.log[k]? = some e := by
        obtain ⟨t, ht⟩ := hg.log
        rwa [← ht, List.getElem?_append_left hk] at he
      exact Nat.lt_of_lt_of_le (h.applied k e hold hlt) (hg.applied i)
    · have hnew := hg.new k e he hk
      have hle := h.le
      omega

theorem Below.mono {floor : List Nat} {t t' : Nat} (h : Below c floor t) (hg : Grows c c')
    (ht : t ≤ t') : Below c' floor t' := by
  intro k hk
  obtain ⟨hacked, e, he, hle⟩ := h k hk
  exact ⟨hg.acked k hacked, e, hg.getElem? he, Nat.le_trans hle ht⟩

theorem Call.Ok.mono {x : Call} (h : x.Ok c i) (hg : Grows c c') : x.Ok c' i := by
  have hterm := hg.term i
  unfold Call.Ok at h ⊢
  cases hstage : x.stage with
  | verify =>
    rw [hstage] at h
    exact fun k hk => hg.acked k (h k hk)
  | term =>
    rw [hstage] at h
    exact ⟨h.1.mono hg hterm, Nat.lt_of_lt_of_le h.2 hterm⟩
  | compare t =>
    rw [hstage] at h
    exact ⟨h.1.mono hg (Nat.le_refl _), h.2.1, Nat.le_trans h.2.2 hterm⟩
  | barrier t =>
    rw [hstage] at h
    exact ⟨h.1.mono hg (Nat.le_refl _), h.2.1, Nat.le_trans h.2.2 hterm⟩
  | applied t n =>
    rw [hstage] at h
    obtain ⟨hfloor, hpos, e, he, hnode, hle, hle'⟩ := h
    exact ⟨hfloor.mono hg (Nat.le_refl _), hpos, e, hg.getElem? he, hnode, hle,
      Nat.le_trans hle' hterm⟩
  | verifyAgain t =>
    rw [hstage] at h
    obtain ⟨hfloor, hpos, s, hready, hle, hle'⟩ := h
    exact ⟨hfloor.mono hg (Nat.le_refl _), hpos, s, hready.mono hg, hle, Nat.le_trans hle' hterm⟩
  | sameTerm t =>
    rw [hstage] at h
    obtain ⟨hfloor, hpos, s, hready, hle, hle'⟩ := h
    exact ⟨hfloor.mono hg (Nat.le_refl _), hpos, s, hready.mono hg, hle, Nat.le_trans hle' hterm⟩
  | store t =>
    rw [hstage] at h
    exact ⟨h.1.mono hg (Nat.le_refl _), h.2.mono hg⟩
  | get =>
    rw [hstage] at h
    exact fun k hk => Nat.lt_of_lt_of_le (h k hk) (hg.applied i)

theorem stateAt_of_prefix_log {log log' : List (Entry ι)} {n : Nat} (h : log <+: log') (hn : n ≤ log.length) :
    stateAt log' n = stateAt log n := by
  obtain ⟨t, rfl⟩ := h
  rw [stateAt, List.take_append_of_le_length hn]
  rfl

/-- What a step has to show: only what is new in it. -/
theorem Sound.of_grows (h : Sound c) (hg : Grows c c') (hsorted : c'.log.Pairwise (·.term ≤ ·.term))
    (hentry : ∀ e ∈ c'.log, e ∈ c.log ∨ e.term ≤ c'.newest ∧ c'.leader e.term = some e.node)
    (hleads : ∀ i, (c'.replica i).leads = true →
      (c'.replica i).term = (c.replica i).term ∧ (c.replica i).leads = true ∨
      c'.leader (c'.replica i).term = some i ∧ 0 < (c'.replica i).term ∧
        (c'.replica i).term ≤ c'.newest)
    (hacked : ∀ k ∈ c'.acked, k ∈ c.acked ∨ ∃ e, c'.log[k]? = some e ∧ k < (c'.replica e.node).applied)
    (hready : ∀ i, (c'.replica i).readyTerm = (c.replica i).readyTerm ∨ Ready c' i (c'.replica i).readyTerm)
    (hcall : ∀ i q x, (c'.replica i).call q = some x → (c.replica i).call q = some x ∨ x.Ok c' i)
    (happlied : ∀ i, (c'.replica i).applied ≤ c'.log.length)
    (hresult : ∀ x ∈ c'.results, x ∈ c.results ∨ ∃ n ≤ c'.log.length,
      x.value = (stateAt c'.log n).lookup x.key ∧ ∀ k ∈ x.floor, k < n) : Sound c' where
  sorted := hsorted
  entry e he := by
    rcases hentry e he with he | he
    · obtain ⟨hle, hleader⟩ := h.entry e he
      exact ⟨Nat.le_trans hle hg.newest, by rw [hg.leader _ hle, hleader]⟩
    · exact he
  leads j hj := by
    rcases hleads j hj with ⟨hterm, hold⟩ | hnew
    · obtain ⟨hleader, hpos, hle⟩ := h.leads j hold
      rw [hterm, hg.leader _ hle]
      exact ⟨hleader, hpos, Nat.le_trans hle hg.newest⟩
    · exact hnew
  acked k hk := by
    rcases hacked k hk with hk | hk
    · obtain ⟨e, he, hlt⟩ := h.acked k hk
      exact ⟨e, hg.getElem? he, Nat.lt_of_lt_of_le hlt (hg.applied e.node)⟩
    · exact hk
  ready j hpos := by
    rcases hready j with heq | hnew
    · rw [heq] at hpos ⊢
      exact (h.ready j hpos).mono hg
    · exact hnew
  call j q x hx := by
    rcases hcall j q x hx with hold | hnew
    · exact (h.call j q x hold).mono hg
    · exact hnew
  applied := happlied
  result x hx := by
    rcases hresult x hx with hold | hnew
    · obtain ⟨n, hn, hvalue, hfloor⟩ := h.result x hold
      refine ⟨n, Nat.le_trans hn hg.log.length_le, ?_, hfloor⟩
      rw [stateAt_of_prefix_log hg.log hn, hvalue]
    · exact hnew

/-! ### Steps -/

theorem Sound.init : Sound (Cluster.init ι ρ) := by
  constructor <;> simp [Cluster.init]

theorem grows_append (c : Cluster ι ρ) (i : ι) (cmd : Option Command) :
    Grows c { c with log := c.log ++ [⟨c.newest, i, cmd⟩] } := by
  refine ⟨List.prefix_append _ _, fun k e he hk => ?_, Nat.le_refl _, fun _ _ => rfl,
    fun _ => Nat.le_refl _, fun _ => Nat.le_refl _, fun _ hk => hk⟩
  dsimp only at he
  rw [List.getElem?_append_right hk] at he
  have hmem := List.mem_of_getElem? he
  rw [List.mem_singleton] at hmem
  rw [hmem]

/-- The newest leader adds an entry. -/
theorem Sound.append (h : Sound c) (hleads : c.Leads i) (cmd : Option Command) :
    Sound { c with log := c.log ++ [⟨c.newest, i, cmd⟩] } := by
  have hg := grows_append c i cmd
  refine h.of_grows hg ?_ ?_ (fun j hj => .inl ⟨rfl, hj⟩) (fun k hk => .inl hk) (fun _ => .inl rfl)
    (fun _ _ _ hx => .inl hx) ?_ fun x hx => .inl hx
  · rw [List.pairwise_append]
    refine ⟨h.sorted, List.pairwise_singleton _ _, fun e he e' he' => ?_⟩
    rw [List.mem_singleton] at he'
    rw [he']
    exact (h.entry e he).1
  · intro e he
    rcases List.mem_append.mp he with he | he
    · exact .inl he
    · rw [List.mem_singleton] at he
      subst he
      refine .inr ⟨Nat.le_refl _, ?_⟩
      have hleader := (h.leads i hleads.1).1
      rwa [hleads.2] at hleader
  · intro j
    have := h.applied j
    dsimp only
    rw [List.length_append]
    omega

/-- What is only noted about the log. -/
theorem Sound.note (h : Sound c) {acked : List Nat} {results : List Result}
    (hacked : ∀ k ∈ acked, k ∈ c.acked ∨ ∃ e, c.log[k]? = some e ∧ k < (c.replica e.node).applied)
    (hkeep : ∀ k ∈ c.acked, k ∈ acked)
    (hresult : ∀ x ∈ results, x ∈ c.results ∨ ∃ n ≤ c.log.length,
      x.value = (stateAt c.log n).lookup x.key ∧ ∀ k ∈ x.floor, k < n) :
    Sound { c with acked, results } :=
  have hg : Grows c { c with acked, results } :=
    ⟨List.prefix_refl _, fun _ _ he hk => absurd (List.getElem?_eq_some_iff.mp he).1
      (Nat.not_lt_of_le hk), Nat.le_refl _, fun _ _ => rfl, fun _ => Nat.le_refl _,
      fun _ => Nat.le_refl _, hkeep⟩
  h.of_grows hg h.sorted (fun _ he => .inl he) (fun _ hj => .inl ⟨rfl, hj⟩) hacked (fun _ => .inl rfl)
    (fun _ _ _ hx => .inl hx) h.applied hresult

variable [DecidableEq ι]

theorem replica_set_self (c : Cluster ι ρ) (i : ι) (r : Replica ρ) : (c.set i r).replica i = r := by
  simp [Cluster.set]

theorem replica_set_of_ne (c : Cluster ι ρ) {i j : ι} (hj : j ≠ i) (r : Replica ρ) :
    (c.set i r).replica j = c.replica j := by simp [Cluster.set, hj]

theorem grows_set {r : Replica ρ} (hterm : (c.replica i).term ≤ r.term)
    (happlied : (c.replica i).applied ≤ r.applied) : Grows c (c.set i r) := by
  refine ⟨List.prefix_refl _, fun k e he hk => ?_, Nat.le_refl _, fun _ _ => rfl, fun j => ?_,
    fun j => ?_, fun _ hk => hk⟩
  · exact absurd (List.getElem?_eq_some_iff.mp he).1 (Nat.not_lt_of_le hk)
  · by_cases hj : j = i
    · subst hj
      rwa [replica_set_self]
    · rw [replica_set_of_ne c hj]
  · by_cases hj : j = i
    · subst hj
      rwa [replica_set_self]
    · rw [replica_set_of_ne c hj]

/-- One node changes. -/
theorem Sound.set (h : Sound c) {r : Replica ρ} (hterm : (c.replica i).term ≤ r.term)
    (happlied : (c.replica i).applied ≤ r.applied) (hlength : r.applied ≤ c.log.length)
    (hleads : r.leads = true → r.term = (c.replica i).term ∧ (c.replica i).leads = true)
    (hready : r.readyTerm = (c.replica i).readyTerm ∨ Ready c i r.readyTerm)
    (hcall : ∀ q x, r.call q = some x → (c.replica i).call q = some x ∨ x.Ok c i) :
    Sound (c.set i r) := by
  have hg := grows_set hterm happlied
  refine h.of_grows hg h.sorted (fun e he => .inl he) (fun j hj => ?_) (fun k hk => .inl hk)
    (fun j => ?_) (fun j q x hx => ?_) (fun j => ?_) fun x hx => .inl hx
  · by_cases hji : j = i
    · subst hji
      rw [replica_set_self] at hj ⊢
      exact .inl (hleads hj)
    · rw [replica_set_of_ne c hji] at hj ⊢
      exact .inl ⟨rfl, hj⟩
  · by_cases hji : j = i
    · subst hji
      rw [replica_set_self]
      exact hready.imp_right fun hr => hr.mono hg
    · rw [replica_set_of_ne c hji]
      exact .inl rfl
  · by_cases hji : j = i
    · subst hji
      rw [replica_set_self] at hx
      exact (hcall q x hx).imp_right fun hx => hx.mono hg
    · rw [replica_set_of_ne c hji] at hx
      exact .inl hx
  · by_cases hji : j = i
    · subst hji
      rwa [replica_set_self]
    · rw [replica_set_of_ne c hji]
      exact h.applied j

theorem Sound.elect (h : Sound c) {t : Nat} (hnewest : c.newest < t)
    (hterm : (c.replica i).term ≤ t) :
    Sound { c.set i { c.replica i with term := t, leads := true } with
      newest := t, leader := Function.update c.leader t (some i) } := by
  have hset := grows_set (c := c) (i := i) (r := { c.replica i with term := t, leads := true }) hterm
    (Nat.le_refl _)
  have hg : Grows c { c.set i { c.replica i with term := t, leads := true } with
      newest := t, leader := Function.update c.leader t (some i) } :=
    ⟨hset.log, hset.new, Nat.le_of_lt hnewest, fun s hs => Function.update_of_ne (by omega) _ _,
      hset.term, hset.applied, hset.acked⟩
  refine h.of_grows hg h.sorted (fun e he => .inl he) (fun j hj => ?_) (fun k hk => .inl hk)
    (fun j => ?_) (fun j q x hx => ?_) (fun j => ?_) fun x hx => .inl hx
  · dsimp only at hj ⊢
    by_cases hji : j = i
    · subst hji
      rw [replica_set_self]
      exact .inr ⟨Function.update_self _ _ _, by dsimp only; omega, Nat.le_refl _⟩
    · rw [replica_set_of_ne c hji] at hj ⊢
      exact .inl ⟨rfl, hj⟩
  · dsimp only
    by_cases hji : j = i
    · subst hji
      rw [replica_set_self]
      exact .inl rfl
    · rw [replica_set_of_ne c hji]
      exact .inl rfl
  · dsimp only at hx
    by_cases hji : j = i
    · subst hji
      rw [replica_set_self] at hx
      exact .inl hx
    · rw [replica_set_of_ne c hji] at hx
      exact .inl hx
  · dsimp only
    by_cases hji : j = i
    · subst hji
      rw [replica_set_self]
      exact h.applied j
    · rw [replica_set_of_ne c hji]
      exact h.applied j

variable [DecidableEq ρ] {q : ρ} {x : Call}

/-- Where a call goes, and perhaps the term that is remembered. -/
theorem Sound.move (h : Sound c) (y : Option Call) (t : Nat) (hy : ∀ x, y = some x → x.Ok c i)
    (hready : t = (c.replica i).readyTerm ∨ Ready c i t) :
    Sound (c.set i ({ c.replica i with readyTerm := t }.setCall q y)) := by
  refine h.set (Nat.le_refl _) (Nat.le_refl _) (h.applied i) (fun hl => ⟨rfl, hl⟩) hready ?_
  intro q' x hx
  by_cases hq : q' = q
  · subst hq
    exact .inr (hy x (by simpa [Replica.setCall] using hx))
  · exact .inl (by simpa [Replica.setCall, hq] using hx)

theorem Sound.goto (h : Sound c) {s : Stage} (hx : { x with stage := s }.Ok c i) :
    Sound (c.goto i q x s) :=
  h.move (some { x with stage := s }) (c.replica i).readyTerm (by rintro y ⟨⟩; exact hx) (.inl rfl)

/-- **A step of a call establishes what its stage promises.** -/
theorem Sound.callStep (h : Sound c) (hstep : CallStep c i q c') : Sound c' := by
  cases hstep with
  | start key hidle hkey => exact h.goto fun k hk => hk
  | verify x hx hstage hleads =>
    have hok := h.call i q x hx
    rw [Call.Ok, hstage] at hok
    refine h.goto ⟨fun k hk => ⟨hok k hk, ?_⟩, (h.leads i hleads.1).2.1⟩
    obtain ⟨e, he, -⟩ := h.acked k (hok k hk)
    refine ⟨e, he, ?_⟩
    rw [hleads.2]
    exact (h.entry e (List.mem_of_getElem? he)).1
  | term x hx hstage =>
    have hok := h.call i q x hx
    rw [Call.Ok, hstage] at hok
    exact h.goto ⟨hok.1, hok.2, Nat.le_refl _⟩
  | ready x t hx hstage hready =>
    have hok := h.call i q x hx
    rw [Call.Ok, hstage] at hok
    have hr := h.ready i (hready ▸ hok.2.1)
    rw [hready] at hr
    exact h.goto (hr.floor h hok.1)
  | notReady x t hx hstage hready =>
    have hok := h.call i q x hx
    rw [Call.Ok, hstage] at hok
    exact h.goto hok
  | barrier x t hx hstage hleads =>
    have hok := h.call i q x hx
    rw [Call.Ok, hstage] at hok
    have hg := grows_append c i none
    have hterm : (c.replica i).term = c.newest := hleads.2
    have hend : (c.log ++ [⟨c.newest, i, none⟩])[c.log.length]? = some ⟨c.newest, i, none⟩ := by simp
    refine (h.append hleads none).goto ⟨hok.1.mono hg (Nat.le_refl _), hok.2.1, _, hend, rfl, ?_, ?_⟩
    · rw [← hterm]
      exact hok.2.2
    · exact Nat.le_of_eq hterm.symm
  | applied x t n hx hstage happlied =>
    have hok := h.call i q x hx
    rw [Call.Ok, hstage] at hok
    obtain ⟨hfloor, hpos, e, he, hnode, hle, hle'⟩ := hok
    exact h.goto ⟨hfloor, hpos, e.term, ready_of_barrier h he hnode happlied, hle, hle'⟩
  | verifyAgain x t hx hstage hleads =>
    have hok := h.call i q x hx
    rw [Call.Ok, hstage] at hok
    exact h.goto hok
  | sameTerm x t hx hstage hterm =>
    have hok := h.call i q x hx
    rw [Call.Ok, hstage] at hok
    obtain ⟨hfloor, -, s, hready, hle, hle'⟩ := hok
    have heq : s = t := by omega
    exact h.goto ⟨hfloor, heq ▸ hready⟩
  | store x t hx hstage =>
    have hok := h.call i q x hx
    rw [Call.Ok, hstage] at hok
    refine h.move (some { x with stage := .get }) t ?_ (.inr hok.2)
    rintro y ⟨⟩
    exact hok.2.floor h hok.1
  | get x hx hstage =>
    have hok := h.call i q x hx
    rw [Call.Ok, hstage] at hok
    have hmove := h.move (i := i) (q := q) none (c.replica i).readyTerm (by nofun) (.inl rfl)
    refine hmove.note (fun k hk => .inl hk) (fun k hk => hk) fun y hy => ?_
    rcases List.mem_append.mp hy with hy | hy
    · exact .inl hy
    · rw [List.mem_singleton] at hy
      subst hy
      exact .inr ⟨(c.replica i).applied, h.applied i, rfl, hok⟩
  | fail => exact h.move none (c.replica i).readyTerm (by nofun) (.inl rfl)

/-- **Every step keeps the invariant.** -/
theorem Sound.step {e : Event ι ρ} (h : Sound c) (hstep : Step c e c') : Sound c' := by
  cases hstep with
  | elect i t hnewest hterm => exact h.elect hnewest hterm
  | follow i t hterm =>
    exact h.set hterm (Nat.le_refl _) (h.applied i) (by nofun) (.inl rfl) fun _ _ hx => .inl hx
  | write i cmd hleads => exact h.append hleads cmd
  | apply i hlt =>
    exact h.set (Nat.le_refl _) (Nat.le_succ _) hlt (fun hl => ⟨rfl, hl⟩) (.inl rfl)
      fun _ _ hx => .inl hx
  | ack n e he happlied =>
    refine h.note (fun k hk => ?_) (fun k hk => List.mem_cons_of_mem _ hk) fun x hx => .inl hx
    rcases List.mem_cons.mp hk with rfl | hk
    · exact .inr ⟨e, he, happlied⟩
    · exact .inl hk
  | call _ i q hcall => exact h.callStep hcall

/--
**Linearizable reads.**  Whatever elections, writes and reads went on, a read returned
what the key held after some prefix of the log, and the prefix reaches past every write
that had been acknowledged anywhere when the read began.
-/
theorem consistent_get_reflects_acked (c : Cluster ι ρ)
    (hrun : Run.Reachable Step (fun _ _ => True) (Cluster.init ι ρ) c) (x : Result)
    (hx : x ∈ c.results) :
    ∃ n ≤ c.log.length, x.value = (stateAt c.log n).lookup x.key ∧ ∀ k ∈ x.floor, k < n :=
  (hrun.invariant Sound.init fun _ _ _ h _ hstep => h.step hstep).result x hx

/-! ### Runs that can be followed -/

instance decidableLeads (c : Cluster ι ρ) (i : ι) : Decidable (c.Leads i) :=
  inferInstanceAs (Decidable (_ ∧ _))

/-- A call for the key begins or goes on, and meets no error. -/
def Cluster.callOn (key : Key) (c : Cluster ι ρ) (i : ι) (q : ρ) : Option {c' // CallStep c i q c'} :=
  match h : (c.replica i).call q with
  | none => if hkey : checkKey key = true then some ⟨_, .start key h hkey⟩ else none
  | some x =>
    match hx : x.stage with
    | .verify => if hleads : c.Leads i then some ⟨_, .verify x h hx hleads⟩ else none
    | .term => some ⟨_, .term x h hx⟩
    | .compare t =>
      if hready : (c.replica i).readyTerm = t then some ⟨_, .ready x t h hx hready⟩
      else some ⟨_, .notReady x t h hx hready⟩
    | .barrier t => if hleads : c.Leads i then some ⟨_, .barrier x t h hx hleads⟩ else none
    | .applied t n =>
      if happlied : n < (c.replica i).applied then some ⟨_, .applied x t n h hx happlied⟩ else none
    | .verifyAgain t => if hleads : c.Leads i then some ⟨_, .verifyAgain x t h hx hleads⟩ else none
    | .sameTerm t => if hterm : (c.replica i).term = t then some ⟨_, .sameTerm x t h hx hterm⟩ else none
    | .store t => some ⟨_, .store x t h hx⟩
    | .get => some ⟨_, .get x h hx⟩

/-- What an event leads to, if it is possible and all calls are for one key. -/
def Cluster.next (key : Key) (c : Cluster ι ρ) : ∀ e : Event ι ρ, Option {c' // Step c e c'}
  | .elect i t =>
    if h : c.newest < t ∧ (c.replica i).term ≤ t then some ⟨_, .elect c i t h.1 h.2⟩ else none
  | .follow i t => if h : (c.replica i).term ≤ t then some ⟨_, .follow c i t h⟩ else none
  | .write i cmd => if hleads : c.Leads i then some ⟨_, .write c i cmd hleads⟩ else none
  | .apply i => if h : (c.replica i).applied < c.log.length then some ⟨_, .apply c i h⟩ else none
  | .ack n =>
    match he : c.log[n]? with
    | some e => if h : n < (c.replica e.node).applied then some ⟨_, .ack c n e he h⟩ else none
    | none => none
  | .call i q => (c.callOn key i q).map fun ⟨c', h⟩ => ⟨c', .call c c' i q h⟩

/--
A write at one node is acknowledged, and another node is elected that has not applied it.
A read there passes a barrier first, and returns what was written.
-/
theorem consistent_get_reflects_acked_elsewhere :
    ∃ c : Cluster Bool Unit, Run.Reachable Step (fun _ _ => True) (Cluster.init Bool Unit) c ∧
      ∃ x ∈ c.results, x.floor = [0] ∧ x.value = some [1] ∧
        ∃ n, 0 < n ∧ x.value = (stateAt c.log n).lookup (str "a") := by
  have hrun : (Run.path (Cluster.next (str "a")) (fun _ _ => True) (.init Bool Unit)
      ([.elect true 1, .write true (some ⟨.put, str "a", [1], 0⟩), .apply true, .ack 0,
          .elect false 2] ++
        List.replicate 5 (.call false ()) ++ [.apply false, .apply false] ++
        List.replicate 5 (.call false ()))).map
          (fun c => c.results.map fun x => (x.key, x.floor, x.value))
      = some [(str "a", [0], some [1])] := by decide +kernel
  obtain ⟨c, hreach, hc⟩ := Run.Reachable.exists_of_path hrun
  obtain ⟨x, hx, hseen⟩ := List.mem_map.mp (hc ▸ List.mem_singleton_self (str "a", [0], some [1]))
  simp only [Prod.mk.injEq] at hseen
  obtain ⟨hkey, hfloor, hvalue⟩ := hseen
  obtain ⟨n, -, hn, hpast⟩ := consistent_get_reflects_acked c hreach x hx
  rw [hkey] at hn
  exact ⟨c, hreach, x, hx, hfloor, hvalue, n, hpast 0 (by simp [hfloor]), hn⟩

end UbixVault.Raft.Read
