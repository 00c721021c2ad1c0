/-
A handle that was released lets no write through.

An entry stays in `held` after `Release` only if its acquisition is lost: the node
has failed, or is in a later term, or will lead again only in a later one.  A write
that begins then does not commit, whatever happens while it goes on.
-/
import UbixVault.Proofs.Raft.Lock

namespace UbixVault.Raft.Lock

variable {ι ℓ ω : Type} {newest : Nat} {r r' : Replica ℓ ω} {l : ℓ} {w : ω} {t : Nat}

/-! ### Acquisitions -/

/-- What an `Acquire` in progress has seen of the node's term and its elections. -/
def Acquiring.Seen (current : Nat) (led : List Nat) : Acquiring → Prop
  | idle | term => True
  | barrier t | isLeader t => t ≤ current
  -- The node was elected in that term or, by now, in a later one.
  | sameTerm t => ∃ s ∈ led, t ≤ s
  | record t | isLeaderAgain t | sameTermAgain t | hold t | monitor t => t ∈ led

/-- What holds of a node. -/
structure Replica.Sound (newest : Nat) (r : Replica ℓ ω) : Prop where
  led_pos : ∀ t ∈ r.led, 0 < t
  led_le : ∀ t ∈ r.led, t ≤ newest ∧ t ≤ r.term
  leads : r.leads = true → r.term ∈ r.led
  held : ∀ l t, r.held l = some t → t ∈ r.led
  acquiring : ∀ l, (r.lock l).acquiring.Seen r.term r.led

/-- Nothing that was seen is undone by a later term. -/
theorem Acquiring.Seen.mono {a : Acquiring} {current current' : Nat} {led led' : List Nat}
    (h : a.Seen current led) (hterm : current ≤ current') (hled : ∀ t ∈ led, t ∈ led') :
    a.Seen current' led' := by
  cases a with
  | idle => trivial
  | term => trivial
  | barrier t => exact Nat.le_trans h hterm
  | isLeader t => exact Nat.le_trans h hterm
  | sameTerm t =>
    obtain ⟨s, hs, hle⟩ := h
    exact ⟨s, hled s hs, hle⟩
  | record t => exact hled t h
  | isLeaderAgain t => exact hled t h
  | sameTermAgain t => exact hled t h
  | hold t => exact hled t h
  | monitor t => exact hled t h

section Handles

variable [DecidableEq ℓ]

/-- A handle may change if what its `Acquire` has seen stays right. -/
theorem Replica.Sound.setLock (h : r.Sound newest) {x : Handle} (hx : x.acquiring.Seen r.term r.led) :
    (r.setLock l x).Sound newest where
  led_pos := h.led_pos
  led_le := h.led_le
  leads := h.leads
  held := h.held
  acquiring l' := by
    by_cases hl : l' = l
    · subst hl
      simpa [Replica.setLock] using hx
    · simpa [Replica.setLock, hl] using h.acquiring l'

theorem Replica.Sound.setHeld (h : r.Sound newest) {x : Option Nat} (hx : ∀ t, x = some t → t ∈ r.led) :
    (r.setHeld l x).Sound newest where
  led_pos := h.led_pos
  led_le := h.led_le
  leads := h.leads
  held l' t ht := by
    by_cases hl : l' = l
    · subst hl
      exact hx t (by simpa [Replica.setHeld] using ht)
    · exact h.held l' t (by simpa [Replica.setHeld, hl] using ht)
  acquiring := h.acquiring

theorem Replica.Sound.acquire (h : r.Sound newest) (hstep : AcquireStep r l r') : r'.Sound newest := by
  have hseen := h.acquiring l
  cases hstep with
  | start hidle htaken hleads => exact h.setLock trivial
  | term hterm => exact h.setLock (Nat.le_refl _)
  | barrier t ht hleads =>
    rw [ht] at hseen
    exact h.setLock hseen
  | isLeader t ht hleads =>
    rw [ht] at hseen
    exact h.setLock ⟨r.term, h.leads hleads, hseen⟩
  | sameTerm t ht hterm =>
    rw [ht] at hseen
    obtain ⟨s, hs, hle⟩ := hseen
    have heq : s = t := Nat.le_antisymm (hterm ▸ (h.led_le s hs).2) hle
    exact h.setLock (heq ▸ hs)
  | record t ht hfailed hleads =>
    rw [ht] at hseen
    exact h.setLock hseen
  | isLeaderAgain t ht hleads =>
    rw [ht] at hseen
    exact h.setLock hseen
  | sameTermAgain t ht hterm =>
    rw [ht] at hseen
    exact h.setLock hseen
  | hold t ht hmu =>
    rw [ht] at hseen
    have hheld : ∀ s, some t = some s → s ∈ r.led := by
      rintro s ⟨⟩
      exact hseen
    exact (h.setHeld hheld).setLock hseen
  | monitor t ht => exact h.setLock trivial
  | giveUp hnot => exact h.setLock trivial

theorem Replica.Sound.drop (h : r.Sound newest) (hstep : DropStep r l t r') : r'.Sound newest := by
  cases hstep with
  | notice hmem hlost => exact h.setLock (h.acquiring l)
  | forget hmem hmu =>
    refine (h.setHeld fun s hs => ?_).setLock (h.acquiring l)
    split_ifs at hs
    exact h.held l s hs

theorem Replica.Sound.release (h : r.Sound newest) (hstep : ReleaseStep r l r') : r'.Sound newest := by
  cases hstep with
  | start hidle htaken hheld => exact h.setLock (h.acquiring l)
  | nothing hidle htaken hheld => exact h.setLock (h.acquiring l)
  | fence hfence hmu => exact (h.setHeld fun s hs => by cases hs).setLock (h.acquiring l)
  | rest hrest => exact h.setLock (h.acquiring l)

end Handles

theorem Replica.Sound.write [DecidableEq ω] {out : Option (Option (Admission ℓ) × Bool)}
    (h : r.Sound newest) (hstep : WriteStep r w r' out) : r'.Sound newest := by
  obtain ⟨hpos, hle, hleads, hheld, hacq⟩ := h
  cases hstep <;> exact ⟨hpos, hle, hleads, hheld, hacq⟩

theorem Replica.Sound.init : (Replica.init ℓ ω).Sound 0 :=
  ⟨by simp [Replica.init], by simp [Replica.init], by simp [Replica.init], by simp [Replica.init],
    fun _ => trivial⟩

theorem Replica.Sound.mono {newest' : Nat} (h : r.Sound newest) (hle : newest ≤ newest') :
    r.Sound newest' :=
  ⟨h.led_pos, fun t ht => ⟨Nat.le_trans (h.led_le t ht).1 hle, (h.led_le t ht).2⟩, h.leads, h.held,
    h.acquiring⟩

/-- **Every move keeps what holds of a node.** -/
theorem Replica.Sound.move [DecidableEq ℓ] [DecidableEq ω] (h : r.Sound newest) {i : ι}
    {e : Event ι ℓ ω} {newest' : Nat}
    {commits : List (Commit ι ℓ)} (hm : Move i newest r e newest' r' commits) : r'.Sound newest' := by
  cases hm with
  | elect _ hnewest hterm =>
    have hgrow : ∀ s ∈ r.led, s ∈ newest' :: r.led := fun _ hs => List.mem_cons_of_mem _ hs
    refine ⟨fun s hs => ?_, fun s hs => ?_, fun _ => List.mem_cons_self,
      fun l s hs => hgrow s (h.held l s hs), fun l => (h.acquiring l).mono hterm hgrow⟩
    · rcases List.mem_cons.mp hs with rfl | hs
      · exact Nat.zero_lt_of_lt hnewest
      · exact h.led_pos s hs
    rcases List.mem_cons.mp hs with rfl | hs
    · exact ⟨Nat.le_refl _, Nat.le_refl _⟩
    · exact ⟨Nat.le_trans (h.led_le s hs).1 (Nat.le_of_lt hnewest),
        Nat.le_trans (h.led_le s hs).2 hterm⟩
  | follow t hterm =>
    exact ⟨h.led_pos, fun s hs => ⟨(h.led_le s hs).1, Nat.le_trans (h.led_le s hs).2 hterm⟩, by nofun,
      h.held, fun l => (h.acquiring l).mono hterm fun _ hs => hs⟩
  | fail => exact ⟨h.led_pos, h.led_le, h.leads, h.held, h.acquiring⟩
  | take hmu => exact ⟨h.led_pos, h.led_le, h.leads, h.held, h.acquiring⟩
  | acquire l _ hs => exact h.acquire hs
  | drop l t _ hs => exact h.drop hs
  | release l _ hs => exact h.release hs
  | write w _ out hs => exact h.write hs

/-! ### Acquisitions that are lost -/

/-- The node will not lead in the term again, or has failed. -/
def Replica.Lost (r : Replica ℓ ω) (t : Nat) : Prop :=
  r.failed = true ∨ t < r.term ∨ t = r.term ∧ r.leads = false

/-- What holds of the one handle of a node. -/
structure Handle.Fenced (r : Replica Unit ω) (h : Handle) : Prop where
  monitors : ∀ t ∈ h.monitors, t ∈ r.led
  dropping : ∀ t ∈ h.dropping, t ∈ r.led ∧ r.Lost t
  held : ∀ t, r.held () = some t →
    h.term = t ∨ t ∈ h.dropping ∨ h.acquiring = .monitor t ∨ h.releasing = .fence
  monitor : ∀ t, h.acquiring = .monitor t → r.held () = none ∨ r.held () = some t
  releasing : h.releasing ≠ .idle → r.haTaken = true ∧ h.term = 0 ∧ h.acquiring = .idle
  released : h.released = true → r.haTaken = true ∧ h.term = 0 ∧ h.acquiring = .idle ∧ h.releasing = .idle

/-- A write that began when the handle was released will not commit. -/
def Write.Harmless (r : Replica Unit ω) : Write Unit → Prop
  | isLeader true => ∀ t, r.held () = some t → r.Lost t
  | term true => ∀ t, r.held () = some t → r.failed = true ∨ t < r.term
  | propose _ true => r.failed = true
  | _ => True

/-- The write has the mutex. -/
def Write.Checking : Write ℓ → Prop
  | isLeader _ | term _ => True
  | _ => False

structure Replica.Fenced (r : Replica Unit ω) : Prop where
  handle : (r.lock ()).Fenced r
  mutex : ∀ w, (r.write w).Checking → r.haMu = some w
  late : ∀ w, (r.write w).Harmless r

theorem Replica.Fenced.init : (Replica.init Unit ω).Fenced := by
  refine ⟨?_, by nofun, fun _ => trivial⟩
  constructor <;> simp [Replica.init, Handle.init]

section Released

variable {r r' : Replica Unit ω}

/-- A late write stays harmless as long as the entry in `held` stays. -/
theorem Write.Harmless.mono {x : Write Unit} (h : x.Harmless r) (hheld : r'.held () = r.held ())
    (hfailed : r.failed = true → r'.failed = true) (hterm : r.term ≤ r'.term)
    (hlost : ∀ t, r.held () = some t → r.Lost t → r'.Lost t) : x.Harmless r' := by
  match x, h with
  | .idle, _ => trivial
  | .isLeader false, _ => trivial
  | .term false, _ => trivial
  | .propose _ false, _ => trivial
  | .isLeader true, h =>
    intro t ht
    rw [hheld] at ht
    exact hlost t ht (h t ht)
  | .term true, h =>
    intro t ht
    rw [hheld] at ht
    exact (h t ht).imp hfailed fun hlt => Nat.lt_of_lt_of_le hlt hterm
  | .propose _ true, h => exact hfailed h

/-- Outside of the mutex nothing depends on `held`. -/
theorem Write.Harmless.of_not_checking {x : Write Unit} (h : x.Harmless r) (hx : ¬ x.Checking)
    (hfailed : r'.failed = r.failed) : x.Harmless r' := by
  match x, h with
  | .idle, _ => trivial
  | .isLeader _, _ => exact absurd trivial hx
  | .term _, _ => exact absurd trivial hx
  | .propose _ false, _ => trivial
  | .propose _ true, h => exact hfailed.trans h

/-- What the library does to a node leaves acquisitions lost that are. -/
theorem Replica.Fenced.of_library (h : r.Fenced) (hlock : r'.lock = r.lock) (hheld : r'.held = r.held)
    (hwrite : r'.write = r.write) (hmu : r'.haMu = r.haMu) (hterm : r.term ≤ r'.term)
    (hled : ∀ t ∈ r.led, t ∈ r'.led) (hfailed : r.failed = true → r'.failed = true)
    (htaken : r.haTaken = true → r'.haTaken = true) (hsound : r.Sound newest)
    (hlost : ∀ t ∈ r.led, r.Lost t → r'.Lost t) : r'.Fenced where
  handle := by
    rw [hlock]
    refine ⟨fun t ht => hled t (h.handle.monitors t ht), fun t ht => ?_, hheld ▸ h.handle.held,
      hheld ▸ h.handle.monitor, fun hr => ?_, fun hr => ?_⟩
    · obtain ⟨hmem, hl⟩ := h.handle.dropping t ht
      exact ⟨hled t hmem, hlost t hmem hl⟩
    · obtain ⟨ht, hrest⟩ := h.handle.releasing hr
      exact ⟨htaken ht, hrest⟩
    · obtain ⟨ht, hrest⟩ := h.handle.released hr
      exact ⟨htaken ht, hrest⟩
  mutex := by
    rw [hwrite, hmu]
    exact h.mutex
  late w := by
    rw [hwrite]
    exact (h.late w).mono (by rw [hheld]) hfailed hterm fun t ht => hlost t (hsound.held () t ht)

theorem Replica.Fenced.setLock (h : r.Fenced) {x : Handle} (hx : x.Fenced r) : (r.setLock () x).Fenced where
  handle := by
    have hself : (r.setLock () x).lock () = x := by simp [Replica.setLock]
    rw [hself]
    exact ⟨hx.monitors, hx.dropping, hx.held, hx.monitor, hx.releasing, hx.released⟩
  mutex := h.mutex
  late w := (h.late w).mono rfl id (Nat.le_refl _) fun _ _ hl => hl

/-- The entry in `held` changes only when no write has the mutex. -/
theorem Replica.Fenced.setHeld (h : r.Fenced) (hmu : r.haMu = none) {x : Option Nat} {y : Handle}
    (hy : y.Fenced (r.setHeld () x)) : ((r.setHeld () x).setLock () y).Fenced where
  handle := by
    have hself : ((r.setHeld () x).setLock () y).lock () = y := by simp [Replica.setLock]
    rw [hself]
    exact ⟨hy.monitors, hy.dropping, hy.held, hy.monitor, hy.releasing, hy.released⟩
  mutex := h.mutex
  late w := by
    refine (h.late w).of_not_checking (fun hw => ?_) rfl
    have hmutex := h.mutex w hw
    rw [hmu] at hmutex
    cases hmutex

/-- Another stage of `Acquire`, before the entry is set. -/
theorem Handle.Fenced.setAcquiring {x : Handle} (h : x.Fenced r) {a : Acquiring}
    (hidle : x.releasing = .idle) (hx : ∀ t, x.acquiring ≠ .monitor t) (ha : ∀ t, a ≠ .monitor t)
    (hreleased : x.released = true → a = .idle) : Handle.Fenced r { x with acquiring := a } where
  monitors := h.monitors
  dropping := h.dropping
  held t ht := by
    rcases h.held t ht with hterm | hdrop | hmonitor | hfence
    · exact .inl hterm
    · exact .inr (.inl hdrop)
    · exact absurd hmonitor (hx t)
    · exact .inr (.inr (.inr hfence))
  monitor t ht := absurd ht (ha t)
  releasing hr := absurd hidle hr
  released hr := by
    obtain ⟨htaken, hterm, -, -⟩ := h.released hr
    exact ⟨htaken, hterm, hreleased hr, hidle⟩

/-- A handle that `Acquire` is busy with is not released. -/
theorem Handle.Fenced.not_released {x : Handle} (h : x.Fenced r) {a : Acquiring} (hx : x.acquiring = a)
    (ha : a ≠ .idle) {p : Prop} (hr : x.released = true) : p := by
  obtain ⟨-, -, hidle, -⟩ := h.released hr
  exact absurd (hx.symm.trans hidle) ha

theorem Replica.Fenced.setAcquiring (h : r.Fenced) {a b : Acquiring}
    (hidle : (r.lock ()).releasing = .idle) (ha : (r.lock ()).acquiring = a) (hne : a ≠ .idle)
    (hmonitor : ∀ t, a ≠ .monitor t) (hmonitor' : ∀ t, b ≠ .monitor t) :
    (r.setAcquiring () b).Fenced :=
  h.setLock (h.handle.setAcquiring hidle (fun t => ha ▸ hmonitor t) hmonitor'
    (h.handle.not_released ha hne))

theorem Replica.Fenced.acquire (h : r.Fenced) (hsound : r.Sound newest)
    (hidle : (r.lock ()).releasing = .idle) (hstep : AcquireStep r () r') : r'.Fenced := by
  have hx := h.handle
  cases hstep with
  | start hacq htaken hleads =>
    have hfresh : Handle.Fenced r { r.lock () with released := false } :=
      ⟨hx.monitors, hx.dropping, hx.held, hx.monitor, hx.releasing, by simp⟩
    exact h.setLock (hfresh.setAcquiring hidle (fun t ht => by cases hacq.symm.trans ht) (by simp)
      (by simp))
  | term hacq => exact h.setAcquiring hidle hacq (by simp) (by simp) (by simp)
  | barrier t hacq hleads => exact h.setAcquiring hidle hacq (by simp) (by simp) (by simp)
  | isLeader t hacq hleads => exact h.setAcquiring hidle hacq (by simp) (by simp) (by simp)
  | sameTerm t hacq hterm => exact h.setAcquiring hidle hacq (by simp) (by simp) (by simp)
  | record t hacq hfailed hleads => exact h.setAcquiring hidle hacq (by simp) (by simp) (by simp)
  | isLeaderAgain t hacq hleads => exact h.setAcquiring hidle hacq (by simp) (by simp) (by simp)
  | sameTermAgain t hacq hterm => exact h.setAcquiring hidle hacq (by simp) (by simp) (by simp)
  | hold t hacq hmu =>
    have hself : (r.setHeld () (some t)).held () = some t := by simp [Replica.setHeld]
    refine h.setHeld hmu ⟨hx.monitors, hx.dropping, fun s hs => ?_, fun s hs => ?_, fun hr =>
      absurd hidle hr, hx.not_released hacq (by simp)⟩
    · rw [hself] at hs
      cases hs
      exact .inr (.inr (.inl rfl))
    · cases hs
      exact .inr hself
  | monitor t hacq =>
    have hseen := hsound.acquiring ()
    rw [hacq] at hseen
    refine h.setLock ⟨fun s hs => ?_, hx.dropping, fun s hs => ?_, by simp, fun hr =>
      absurd hidle hr, hx.not_released hacq (by simp)⟩
    · rcases List.mem_cons.mp hs with rfl | hs
      · exact hseen
      · exact hx.monitors s hs
    · rcases hx.monitor t hacq with hnone | hsome
      · rw [hnone] at hs
        cases hs
      · rw [hsome] at hs
        cases hs
        exact .inl rfl
  | giveUp hacq => exact h.setLock (hx.setAcquiring hidle hacq (by simp) fun _ => rfl)

theorem Replica.Fenced.drop (h : r.Fenced) (hsound : r.Sound newest) (hstep : DropStep r () t r') :
    r'.Fenced := by
  have hx := h.handle
  cases hstep with
  | notice hmem hlost =>
    have hled := hx.monitors t hmem
    have hle := (hsound.led_le t hled).2
    have hlost' : r.Lost t := by
      rcases hlost with hfailed | hleads | hterm
      · exact .inl hfailed
      · exact .inr ((Nat.lt_or_eq_of_le hle).imp_right fun heq => ⟨heq, hleads⟩)
      · exact .inr (.inl (Nat.lt_of_le_of_ne hle (Ne.symm hterm)))
    refine h.setLock ⟨fun s hs => hx.monitors s (List.mem_of_mem_erase hs), fun s hs => ?_,
      fun s hs => ?_, hx.monitor, fun hr => ?_, fun hr => ?_⟩
    · rcases List.mem_cons.mp hs with rfl | hs
      · exact ⟨hled, hlost'⟩
      · exact hx.dropping s hs
    · rcases hx.held s hs with hterm | hdrop | hrest
      · by_cases hst : s = t
        · subst hst
          exact .inr (.inl List.mem_cons_self)
        · exact .inl (by rw [hterm, if_neg hst])
      · exact .inr (.inl (List.mem_cons_of_mem _ hdrop))
      · exact .inr (.inr hrest)
    · obtain ⟨htaken, hterm, hacq⟩ := hx.releasing hr
      exact ⟨htaken, by simp [hterm], hacq⟩
    · obtain ⟨htaken, hterm, hrest⟩ := hx.released hr
      exact ⟨htaken, by simp [hterm], hrest⟩
  | forget hmem hmu =>
    -- The entry that is left is another's, and stays accounted for.
    have hother : ∀ s, (r.setHeld () (if r.held () = some t then none else r.held ())).held () = some s →
        r.held () = some s ∧ s ≠ t := by
      intro s hs
      simp only [Replica.setHeld, Function.update_self] at hs
      split_ifs at hs with heq
      exact ⟨hs, fun hst => heq (hst ▸ hs)⟩
    refine h.setHeld hmu ⟨hx.monitors, fun s hs => hx.dropping s (List.mem_of_mem_erase hs),
      fun s hs => ?_, fun s hs => ?_, hx.releasing, hx.released⟩
    · obtain ⟨hheld, hne⟩ := hother s hs
      rcases hx.held s hheld with hterm | hdrop | hrest
      · exact .inl hterm
      · exact .inr (.inl ((List.mem_erase_of_ne hne).mpr hdrop))
      · exact .inr (.inr hrest)
    · cases hheld : (r.setHeld () (if r.held () = some t then none else r.held ())).held () with
      | none => exact .inl rfl
      | some u =>
        rcases hx.monitor s hs with hnone | hsome
        · cases hnone.symm.trans (hother u hheld).1
        · exact .inr ((hother u hheld).1.symm.trans hsome)

theorem Replica.Fenced.release (h : r.Fenced) (hidle : (r.lock ()).acquiring = .idle)
    (hstep : ReleaseStep r () r') : r'.Fenced := by
  have hx := h.handle
  cases hstep with
  | start hrel htaken hheld =>
    refine h.setLock ⟨hx.monitors, hx.dropping, fun _ _ => .inr (.inr (.inr rfl)), hx.monitor,
      fun _ => ⟨htaken, rfl, hidle⟩, fun hr => ?_⟩
    exact absurd (hx.released hr).2.1 hheld
  | nothing hrel htaken hheld =>
    exact h.setLock ⟨hx.monitors, hx.dropping, hx.held, hx.monitor, hx.releasing,
      fun _ => ⟨htaken, hheld, hidle, hrel⟩⟩
  | fence hrel hmu =>
    have hself : (r.setHeld () none).held () = none := by simp [Replica.setHeld]
    have hrel' := hx.releasing (by simp [hrel])
    refine h.setHeld hmu ⟨hx.monitors, hx.dropping, fun s hs => ?_, fun _ _ => .inl hself,
      fun _ => hrel', fun hr => ?_⟩
    · rw [hself] at hs
      cases hs
    · exact absurd (hrel.symm.trans (hx.released hr).2.2.2) (by simp)
  | rest hrel =>
    obtain ⟨htaken, hterm, hacq⟩ := hx.releasing (by simp [hrel])
    refine h.setLock ⟨hx.monitors, hx.dropping, fun s hs => ?_, hx.monitor, by simp,
      fun _ => ⟨htaken, hterm, hacq, rfl⟩⟩
    rcases hx.held s hs with hterm | hdrop | hmonitor | hfence
    · exact .inl hterm
    · exact .inr (.inl hdrop)
    · exact .inr (.inr (.inl hmonitor))
    · cases hrel.symm.trans hfence

/-! ### Writes -/

variable [DecidableEq ω]

theorem Replica.Fenced.setWrite (h : r.Fenced) {x : Write Unit} {mu : Option ω}
    (hothers : ∀ w', w' ≠ w → (r.write w').Checking → mu = some w') (hself : x.Checking → mu = some w)
    (hx : x.Harmless r) : ((r.setWrite w x).setMutex mu).Fenced where
  handle := ⟨h.handle.monitors, h.handle.dropping, h.handle.held, h.handle.monitor, h.handle.releasing,
    h.handle.released⟩
  mutex w' hw' := by
    by_cases hw : w' = w
    · subst hw
      exact hself (by simpa [Replica.setWrite, Replica.setMutex] using hw')
    · exact hothers w' hw (by simpa [Replica.setWrite, Replica.setMutex, hw] using hw')
  late w' := by
    by_cases hw : w' = w
    · subst hw
      have hupdate : ((r.setWrite w' x).setMutex mu).write w' = x := by
        simp [Replica.setWrite, Replica.setMutex]
      rw [hupdate]
      exact hx.mono rfl id (Nat.le_refl _) fun _ _ hl => hl
    · have hupdate : ((r.setWrite w x).setMutex mu).write w' = r.write w' := by
        simp [Replica.setWrite, Replica.setMutex, hw]
      rw [hupdate]
      exact (h.late w').mono rfl id (Nat.le_refl _) fun _ _ hl => hl

/-- A write goes on without giving the mutex back, or without having it. -/
theorem Replica.Fenced.setWrite_same (h : r.Fenced) {x : Write Unit}
    (hself : x.Checking → r.haMu = some w) (hx : x.Harmless r) : (r.setWrite w x).Fenced :=
  h.setWrite (fun w' _ => h.mutex w') hself hx

/-- A write gives the mutex back. -/
theorem Replica.Fenced.unlock (h : r.Fenced) (hw : (r.write w).Checking) {x : Write Unit}
    (hself : ¬ x.Checking) (hx : x.Harmless r) : ((r.setWrite w x).setMutex none).Fenced := by
  refine h.setWrite (fun w' hne hw' => ?_) (fun hc => absurd hc hself) hx
  cases (h.mutex w hw).symm.trans (h.mutex w' hw')
  exact absurd rfl hne

omit [DecidableEq ω] in
/-- When the handle is released, an entry that stays is that of a lost acquisition. -/
theorem Replica.Fenced.lost (h : r.Fenced) (hsound : r.Sound newest)
    (hreleased : (r.lock ()).released = true) (hheld : r.held () = some t) : r.Lost t := by
  obtain ⟨-, hterm, hacq, hrel⟩ := h.handle.released hreleased
  rcases h.handle.held t hheld with hcur | hdrop | hmonitor | hfence
  · have hpos := hsound.led_pos t (hsound.held () t hheld)
    omega
  · exact (h.handle.dropping t hdrop).2
  · cases hacq.symm.trans hmonitor
  · cases hrel.symm.trans hfence

/-- A write that began when the handle was released does not commit. -/
theorem Replica.Fenced.write (h : r.Fenced) (hsound : r.Sound newest)
    {out : Option (Option (Admission Unit) × Bool)} (hstep : WriteStep r w r' out) :
    r'.Fenced ∧ ∀ a late, out = some (a, late) → late = false := by
  have hw' := h.late w
  cases hstep with
  | enter late hidle hmu htaken hlate =>
    refine ⟨h.setWrite (fun w' _ hc => ?_) (fun _ => rfl) ?_, by nofun⟩
    · cases hmu.symm.trans (h.mutex w' hc)
    · cases late with
      | false => trivial
      | true => exact fun t ht => h.lost hsound (hlate.mp rfl ()) ht
  | free late hidle hmu htaken hlate =>
    refine ⟨h.setWrite_same (by nofun) ?_, by nofun⟩
    cases late with
    | false => trivial
    | true => cases htaken.symm.trans (h.handle.released (hlate.mp rfl ())).1
  | isLeader late hw hleads =>
    rw [hw] at hw'
    refine ⟨h.setWrite_same (fun _ => h.mutex w (by rw [hw]; trivial)) ?_, by nofun⟩
    cases late with
    | false => trivial
    | true =>
      intro t ht
      rcases hw' t ht with hfailed | hlt | ⟨-, hfollows⟩
      · exact .inl hfailed
      · exact .inr hlt
      · cases hleads.symm.trans hfollows
  | notLeader late hw hleads => exact ⟨h.unlock (by rw [hw]; trivial) (by nofun) trivial, by nofun⟩
  | term late l hw hheld =>
    rw [hw] at hw'
    refine ⟨h.unlock (by rw [hw]; trivial) (by nofun) ?_, by nofun⟩
    cases late with
    | false => trivial
    | true => exact (hw' r.term hheld).resolve_right (Nat.lt_irrefl _)
  | otherTerm late hw hheld => exact ⟨h.unlock (by rw [hw]; trivial) (by nofun) trivial, by nofun⟩
  | propose a late hw hfailed hleads =>
    rw [hw] at hw'
    refine ⟨h.setWrite_same (by nofun) trivial, ?_⟩
    rintro a' late' ⟨⟩
    cases late with
    | false => rfl
    | true => cases hfailed.symm.trans hw'
  | refused a late hw => exact ⟨h.setWrite_same (by nofun) trivial, by nofun⟩

end Released

/-! ### The cluster -/

/-- **No write commits that began after `Release` and before the next `Acquire`.** -/
theorem late_commits_never [DecidableEq ι] [DecidableEq ω] {c : Cluster ι Unit ω}
    (hrun : Run.Reachable Step Sequential (Cluster.init ι Unit ω) c) :
    ∀ e ∈ c.commits, e.late = false := by
  refine (invariant_of_move (P := fun newest r => r.Sound newest ∧ r.Fenced)
    (K := fun e => e.late = false) ⟨.init, .init⟩ (fun _ _ _ hle h => ⟨h.1.mono hle, h.2⟩) ?_ hrun).2
  rintro c i e newest r commits ⟨hsound, h⟩ he hm
  refine ⟨⟨hsound.move hm, ?_⟩, ?_⟩
  · cases hm with
    | elect _ hnewest hterm =>
      refine h.of_library rfl rfl rfl rfl hterm (fun _ ht => List.mem_cons_of_mem _ ht) id id hsound ?_
      intro t ht _
      -- The new term is newer than any in which the node was elected.
      exact .inr (.inl (Nat.lt_of_le_of_lt (hsound.led_le t ht).1 hnewest))
    | follow t hterm =>
      refine h.of_library rfl rfl rfl rfl hterm (fun _ ht => ht) id id hsound ?_
      rintro s hs -
      have hle : s ≤ t := Nat.le_trans (hsound.led_le s hs).2 hterm
      exact .inr ((Nat.lt_or_eq_of_le hle).imp_right fun heq => ⟨heq, rfl⟩)
    | fail =>
      exact h.of_library rfl rfl rfl rfl (Nat.le_refl _) (fun _ ht => ht) (fun _ => rfl) id hsound
        fun _ _ _ => .inl rfl
    | take hmu =>
      exact h.of_library rfl rfl rfl rfl (Nat.le_refl _) (fun _ ht => ht) id (fun _ => rfl) hsound
        fun _ _ hl => hl
    | acquire l _ hs => exact h.acquire hsound he hs
    | drop l t _ hs => exact h.drop hsound hs
    | release l _ hs => exact h.release he hs
    | write w _ out hs => exact (h.write hsound hs).1
  · cases hm with
    | write w _ out hs =>
      intro x hx
      obtain ⟨⟨a, late⟩, hmem, rfl⟩ := List.mem_map.mp hx
      exact (h.write hsound hs).2 a late (Option.mem_toList.mp hmem)
    | _ => nofun

end UbixVault.Raft.Lock
