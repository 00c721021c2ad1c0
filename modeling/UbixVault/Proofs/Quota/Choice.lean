/-
Which quota applies to a request.

The loop keeps the quota with the longest path that matches.  Over a list this is a
maximum, and of two quotas whose paths match one request and are equally long the paths
are equal.  So the order of the map decides between quotas with one path, and only
between those.
-/
import Mathlib.Data.List.MinMax
import UbixVault.Proofs.Basic
import UbixVault.Proofs.Quota.Load

namespace UbixVault.Quota

open Program

/-! ### The loop -/

section Choice

variable {α : Type} {path : α → Bytes} {reqPath : Bytes}

theorem pathMatches_iff {quotaPath : Bytes} : pathMatches quotaPath reqPath = true ↔
    quotaPath <+: reqPath := by
  unfold pathMatches
  rw [Bool.or_eq_true, decide_eq_true_eq, decide_eq_true_eq]
  constructor
  · intro h
    rcases h with rfl | h
    · exact List.nil_prefix
    · exact h
  · exact .inr

/-- The two variables of the loop, from the best quota so far. -/
def progress (path : α → Bytes) : Option α → Option α × Int
  | none => (none, -1)
  | some q => (some q, (path q).length)

/-- The loop computes a maximum over the quotas that match. -/
theorem foldl_better (order : List α) (best : Option α) :
    order.foldl (better path reqPath) (progress path best)
      = progress path ((order.filter fun q => pathMatches (path q) reqPath).foldl
          (List.argAux fun b c => (path c).length < (path b).length) best) := by
  induction order generalizing best with
  | nil => rfl
  | cons q rest ih =>
    cases hmatch : pathMatches (path q) reqPath with
    | false =>
      have hstep : better path reqPath (progress path best) q = progress path best := by
        simp [better, hmatch]
      rw [List.foldl_cons, hstep, ih, List.filter_cons_of_neg (by simp [hmatch])]
    | true =>
      have hstep : better path reqPath (progress path best) q
          = progress path (List.argAux (fun b c => (path c).length < (path b).length) best q) := by
        cases best with
        | none =>
          have hlt : (-1 : Int) < (path q).length := by omega
          simp [better, progress, hmatch, List.argAux, hlt]
        | some b =>
          by_cases hlt : (path b).length < (path q).length
          · simp [better, progress, hmatch, List.argAux, hlt]
          · simp [better, progress, hmatch, List.argAux, hlt]
      rw [List.foldl_cons, hstep, ih, List.filter_cons_of_pos (by simpa using hmatch), List.foldl_cons]

theorem mostSpecific_eq_argmax (order : List α) :
    mostSpecific path reqPath order
      = (order.filter fun q => pathMatches (path q) reqPath).argmax fun q => (path q).length := by
  show (order.foldl (better path reqPath) (progress path none)).1 = _
  rw [foldl_better, List.argmax]
  cases List.foldl _ none (order.filter fun q => pathMatches (path q) reqPath) <;> rfl

/-- Quotas with different paths are told apart in whatever order they come. -/
theorem mostSpecific_perm {order order' : List α} (hperm : order.Perm order')
    (hinj : ∀ q ∈ order, ∀ q' ∈ order, path q = path q' → q = q') :
    mostSpecific path reqPath order = mostSpecific path reqPath order' := by
  rw [mostSpecific_eq_argmax, mostSpecific_eq_argmax]
  have hfilter := hperm.filter fun q => pathMatches (path q) reqPath
  cases hmax : (order.filter fun q => pathMatches (path q) reqPath).argmax fun q => (path q).length with
  | none =>
    rw [List.argmax_eq_none] at hmax
    rw [hmax] at hfilter
    rw [hfilter.nil_eq.symm, List.argmax_nil]
  | some q =>
    cases hmax' : (order'.filter fun q => pathMatches (path q) reqPath).argmax fun q => (path q).length with
    | none =>
      rw [List.argmax_eq_none] at hmax'
      rw [hmax'] at hfilter
      rw [hfilter.eq_nil, List.argmax_nil] at hmax
      exact absurd hmax nofun
    | some q' =>
      have hmem := List.argmax_mem hmax
      have hmem' := hfilter.mem_iff.mpr (List.argmax_mem hmax')
      have hle := List.le_of_mem_argmax hmem' hmax
      have hle' := List.le_of_mem_argmax (hfilter.mem_iff.mp hmem) hmax'
      obtain ⟨hin, hpfx⟩ := List.mem_filter.mp hmem
      obtain ⟨hin', hpfx'⟩ := List.mem_filter.mp hmem'
      have hpath : path q = path q' := by
        refine List.IsPrefix.eq_of_length ?_ (le_antisymm hle' hle)
        exact List.prefix_of_prefix_length_le (pathMatches_iff.mp hpfx) (pathMatches_iff.mp hpfx') hle'
      rw [hinj q hin q' hin' hpath]

/-- No path that matches is longer than the request's, so the first quota with that path stays. -/
theorem mostSpecific_cons_self (q : α) (rest : List α) :
    mostSpecific path (path q) (q :: rest) = some q := by
  have hstep : better path (path q) (none, -1) q = progress path (some q) := by
    have hlt : (-1 : Int) < (path q).length := by omega
    simp [better, progress, pathMatches_iff.mpr List.prefix_rfl, hlt]
  have hfixed : ∀ q', better path (path q) (progress path (some q)) q' = progress path (some q) := by
    intro q'
    unfold better
    refine if_neg fun h => ?_
    rw [Bool.and_eq_true, decide_eq_true_eq] at h
    have hle := (pathMatches_iff.mp h.1).length_le
    have hlt : ((path q').length : Int) > (path q).length := h.2
    omega
  unfold mostSpecific
  rw [List.foldl_cons, hstep, List.foldl_fixed' hfixed]
  rfl

end Choice

/-! ### What the calls accept -/

section Accepted

variable (E : Encoding)

/-- Managers whose quotas came in by calls that write them. -/
inductive Accepted : Manager → Prop
  | new : Accepted .new
  | set {m m' : Manager} {env : Env} {q : RateLimitQuota} {w w' : World} {r : Except Err Unit} :
      Accepted m → execState env.answer (set E q) m w = ((r, m'), w') → Accepted m'
  | setLeaseCount {m m' : Manager} {env : Env} {q : LeaseCountQuota} {w w' : World} {r : Except Err Unit} :
      Accepted m → execState env.answer (setLeaseCount E q) m w = ((r, m'), w') → Accepted m'

/-- Quotas are kept under their names. -/
structure Manager.Named (m : Manager) : Prop where
  quotas : ∀ name q, m.quotas.lookup name = some q → q.spec.name = name
  leaseQuotas : ∀ name q, m.leaseQuotas.lookup name = some q → q.name = name

variable {E} {env : Env} {m m' : Manager} {w w' : World} {r : Except Err Unit}

/-- A call that stores a record and then keeps it in memory does both, or leaves the memory alone. -/
theorem persist_cases {x : Act Unit} {g : Manager → Manager}
    (h : execState env.answer (do Program.stateless x; modify g) m w = ((r, m'), w')) :
    m' = m ∨ m' = g m := by
  rcases hx : exec env.answer x w with ⟨r₁, w₁⟩
  cases r₁ with
  | ok u =>
    rw [execState_bind_ok _ (execState_stateless_eq _ hx m), execState_modify] at h
    exact .inr (congrArg (fun y => y.1.2) h).symm
  | error e =>
    rw [execState_bind_error _ (execState_stateless_eq _ hx m)] at h
    exact .inl (congrArg (fun y => y.1.2) h).symm

theorem rejected {e : Err} (h : execState env.answer (throw e : QuotaM Unit) m w = ((r, m'), w')) : m' = m :=
  (congrArg (fun y => y.1.2) h).symm

theorem set_cases {q : RateLimitQuota} (h : execState env.answer (set E q) m w = ((r, m'), w')) :
    m' = m ∨ m' = { m with quotas := m.quotas.insert q.name q.live } := by
  unfold set at h
  split_ifs at h
  · exact .inl (rejected h)
  · exact .inl (rejected h)
  · exact .inl (rejected h)
  · exact persist_cases h

theorem setLeaseCount_cases {q : LeaseCountQuota}
    (h : execState env.answer (setLeaseCount E q) m w = ((r, m'), w')) :
    m' = m ∨ m' = { m with leaseQuotas := m.leaseQuotas.insert q.name q } := by
  unfold setLeaseCount at h
  split_ifs at h
  · exact .inl (rejected h)
  · exact .inl (rejected h)
  · exact .inl (rejected h)
  · exact persist_cases h

/-- A map of records by their names stays one when a record is put under its name. -/
theorem named_insert {β : Type} {M : Finmap fun _ : Bytes => β} {nameOf : β → Bytes}
    (h : ∀ name q, M.lookup name = some q → nameOf q = name) {name₀ : Bytes} {q₀ : β}
    (h₀ : nameOf q₀ = name₀) :
    ∀ name q, (M.insert name₀ q₀).lookup name = some q → nameOf q = name := by
  intro name q hq
  by_cases hname : name = name₀
  · subst hname
    rw [Finmap.lookup_insert] at hq
    rw [← Option.some.inj hq, h₀]
  · rw [Finmap.lookup_insert_of_ne _ hname] at hq
    exact h name q hq

theorem Accepted.named (h : Accepted E m) : m.Named := by
  induction h with
  | new => exact ⟨fun name q hq => absurd hq (by simp [Manager.new]),
      fun name q hq => absurd hq (by simp [Manager.new])⟩
  | set _ hrun ih =>
    rcases set_cases hrun with rfl | rfl
    · exact ih
    · exact ⟨named_insert ih.quotas rfl, ih.leaseQuotas⟩
  | setLeaseCount _ hrun ih =>
    rcases setLeaseCount_cases hrun with rfl | rfl
    · exact ih
    · exact ⟨ih.quotas, named_insert ih.leaseQuotas rfl⟩

end Accepted

/-! ### Orders of a map -/

section Orders

variable {β : Type} {M : Finmap fun _ : Bytes => β} {path : β → Bytes}

/-- Two entries with different names never have one path. -/
def DistinctPaths (path : β → Bytes) (M : Finmap fun _ : Bytes => β) : Prop :=
  ∀ name name' q q', M.lookup name = some q → M.lookup name' = some q' → path q = path q' → name = name'

theorem mostSpecific_order (hdistinct : DistinctPaths path M) {order order' : List ((_ : Bytes) × β)}
    (ho : IsOrder M order) (ho' : IsOrder M order') (reqPath : Bytes) :
    mostSpecific path reqPath (order.map Sigma.snd) = mostSpecific path reqPath (order'.map Sigma.snd) := by
  have hperm : order.Perm order' := Multiset.coe_eq_coe.mp (ho.trans ho'.symm)
  refine mostSpecific_perm (hperm.map _) ?_
  have hlookup : ∀ e ∈ order, M.lookup e.1 = some e.2 := fun e => ho.mem_iff.mp
  intro q hq q' hq' hpath
  obtain ⟨e, he, rfl⟩ := List.mem_map.mp hq
  obtain ⟨e', he', rfl⟩ := List.mem_map.mp hq'
  have hname := hdistinct _ _ _ _ (hlookup e he) (hlookup e' he') hpath
  have hsame := hlookup e' he'
  rw [← hname, hlookup e he] at hsame
  exact Option.some.inj hsame

/-- Where no order changes the name of what is chosen, two names never have one path. -/
theorem distinctPaths_of_choice {nameOf : β → Bytes}
    (hnamed : ∀ name q, M.lookup name = some q → nameOf q = name)
    (hsame : ∀ order order' reqPath q q', IsOrder M order → IsOrder M order' →
      mostSpecific path reqPath (order.map Sigma.snd) = some q →
      mostSpecific path reqPath (order'.map Sigma.snd) = some q' → nameOf q = nameOf q') :
    DistinctPaths path M := by
  intro name name' q q' hq hq' hpath
  obtain ⟨rest, horder⟩ := exists_order_cons hq
  obtain ⟨rest', horder'⟩ := exists_order_cons hq'
  have hfirst : mostSpecific path (path q) (List.map Sigma.snd (⟨name, q⟩ :: rest)) = some q :=
    mostSpecific_cons_self q _
  have hfirst' : mostSpecific path (path q) (List.map Sigma.snd (⟨name', q'⟩ :: rest')) = some q' := by
    rw [hpath]
    exact mostSpecific_cons_self q' _
  rw [← hnamed name q hq, ← hnamed name' q' hq']
  exact hsame _ _ _ _ _ horder horder' hfirst hfirst'

/-- Whether paths differ can be told from the names there are. -/
theorem distinctPaths_of_keys (h : ∀ name ∈ M.keys.inOrder, ∀ name' ∈ M.keys.inOrder,
    (M.lookup name).map path = (M.lookup name').map path → name = name') : DistinctPaths path M := by
  intro name name' q q' hq hq' hpath
  exact h name (Finmap.mem_inOrder_of_lookup hq) name' (Finmap.mem_inOrder_of_lookup hq')
    (by rw [hq, hq', Option.map_some, Option.map_some, hpath])

end Orders

/-! ### The choice -/

section Selection

/-- The quota that applies to a request does not depend on the order of the map. -/
structure SelectionWellDefined (m : Manager) : Prop where
  allow : ∀ order order', IsOrder m.quotas order → IsOrder m.quotas order' →
    ∀ now path client, m.allow order now path client = m.allow order' now path client
  matchLeaseCount : ∀ order order', IsOrder m.leaseQuotas order → IsOrder m.leaseQuotas order' →
    ∀ path, matchLeaseCount order path = matchLeaseCount order' path

/-- No two quotas of a kind have one path. -/
structure Manager.PathsDiffer (m : Manager) : Prop where
  quotas : DistinctPaths (fun q => q.spec.path) m.quotas
  leaseQuotas : DistinctPaths LeaseCountQuota.path m.leaseQuotas

variable {E : Encoding} {m : Manager}

/-- The quota that applies is named in the answer. -/
theorem allow_quota {order : List ((_ : Bytes) × LiveQuota)} {path : Bytes} {q : LiveQuota}
    (h : matchQuota order path = some q) (now : ℚ) (client : Bytes) :
    (m.allow order now path client).1.quota = q.spec.name := by
  unfold Manager.allow
  rw [h]

theorem SelectionWellDefined.pathsDiffer (h : SelectionWellDefined m) (hnamed : m.Named) :
    m.PathsDiffer where
  quotas := distinctPaths_of_choice hnamed.quotas fun order order' path q q' ho ho' hq hq' => by
    have hsame := congrArg (fun y => y.1.quota) (h.allow order order' ho ho' 0 path [])
    rwa [allow_quota hq, allow_quota hq'] at hsame
  leaseQuotas := distinctPaths_of_choice hnamed.leaseQuotas
    fun order order' path q q' ho ho' hq hq' => by
      have hsame := hq.symm.trans ((h.matchLeaseCount order order' ho ho' path).trans hq')
      rw [Option.some.inj hsame]

/-- Which quota applies is well defined just when no two quotas of a kind have one path. -/
theorem selectionWellDefined_iff (h : Accepted E m) : SelectionWellDefined m ↔ m.PathsDiffer := by
  constructor
  · exact fun hdefined => hdefined.pathsDiffer h.named
  · intro hdiffer
    constructor
    · intro order order' ho ho' now path client
      have hchoice : matchQuota order path = matchQuota order' path :=
        mostSpecific_order hdiffer.quotas ho ho' path
      unfold Manager.allow
      rw [hchoice]
    · intro order order' ho ho' path
      exact mostSpecific_order hdiffer.leaseQuotas ho ho' path

end Selection

/-! ### Two quotas with one path -/

/-- Five requests a second below a path. -/
def perSecond (name path : Bytes) : RateLimitQuota := ⟨name, path, 5, 5⟩

/-- The manager after a quota has been set. -/
def Manager.withQuota (m : Manager) (q : RateLimitQuota) : Manager :=
  (execState Env.faultless.answer (set Encoding.transparent q) m ⟨∅, 0⟩).1.2

/-- Quotas `a` and `b` on two paths. -/
def twoQuotas (path path' : Bytes) : Manager :=
  (Manager.new.withQuota (perSecond (str "a") path)).withQuota (perSecond (str "b") path')

theorem accepted_twoQuotas (path path' : Bytes) :
    Accepted Encoding.transparent (twoQuotas path path') := .set (.set .new rfl) rfl

/-- Quotas `a` and `b` with one path are accepted, and either of them may apply. -/
theorem choice_by_map_order :
    Accepted Encoding.transparent (twoQuotas (str "kv/") (str "kv/")) ∧
    ¬ SelectionWellDefined (twoQuotas (str "kv/") (str "kv/")) ∧
    ∃ order order', IsOrder (twoQuotas (str "kv/") (str "kv/")).quotas order ∧
      IsOrder (twoQuotas (str "kv/") (str "kv/")).quotas order' ∧
      ((twoQuotas (str "kv/") (str "kv/")).allow order 0 (str "kv/") []).1.quota = str "a" ∧
      ((twoQuotas (str "kv/") (str "kv/")).allow order' 0 (str "kv/") []).1.quota = str "b" := by
  have haccepted := accepted_twoQuotas (str "kv/") (str "kv/")
  have hstored : ∀ name ∈ [str "a", str "b"],
      ((twoQuotas (str "kv/") (str "kv/")).quotas.lookup name).map LiveQuota.spec
        = some (perSecond name (str "kv/")) := by decide +kernel
  obtain ⟨a, ha, hspec⟩ := Option.map_eq_some_iff.mp (hstored (str "a") (by simp))
  obtain ⟨b, hb, hspec'⟩ := Option.map_eq_some_iff.mp (hstored (str "b") (by simp))
  have hpath : a.spec.path = str "kv/" := by rw [hspec]; rfl
  have hpath' : b.spec.path = str "kv/" := by rw [hspec']; rfl
  refine ⟨haccepted, fun h => ?_, ?_⟩
  · have hname := (h.pathsDiffer haccepted.named).quotas _ _ _ _ ha hb (hpath.trans hpath'.symm)
    exact absurd hname (by decide +kernel)
  · obtain ⟨rest, horder⟩ := exists_order_cons ha
    obtain ⟨rest', horder'⟩ := exists_order_cons hb
    have hfirst : matchQuota (⟨str "a", a⟩ :: rest) a.spec.path = some a :=
      mostSpecific_cons_self a _
    have hfirst' : matchQuota (⟨str "b", b⟩ :: rest') b.spec.path = some b :=
      mostSpecific_cons_self b _
    rw [hpath] at hfirst
    rw [hpath'] at hfirst'
    refine ⟨_, _, horder, horder', ?_, ?_⟩
    · rw [allow_quota hfirst, hspec]
      rfl
    · rw [allow_quota hfirst', hspec']
      rfl

/-- Quotas on two paths are told apart. -/
theorem selectionWellDefined_twoQuotas :
    Accepted Encoding.transparent (twoQuotas (str "kv/") (str "kv/team/")) ∧
      SelectionWellDefined (twoQuotas (str "kv/") (str "kv/team/")) := by
  have haccepted := accepted_twoQuotas (str "kv/") (str "kv/team/")
  refine ⟨haccepted, (selectionWellDefined_iff haccepted).mpr ⟨?_, ?_⟩⟩
  · exact distinctPaths_of_keys (by decide +kernel)
  · exact distinctPaths_of_keys (by decide +kernel)

end UbixVault.Quota
