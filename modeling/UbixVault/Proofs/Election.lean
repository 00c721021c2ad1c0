/-
The discipline of the election loop.

What the loop writes into its log is decided by where it is: `Writes` is the table
of it, and every step either writes by the table or stays within one phase of an
acquisition.  That carries the order of hooks, flag and lock.

The second invariant is about wake-ups.  A channel that the loop waits on was taken
before it looked at the barrier.  So if the barrier has changed since, whoever
changed it has closed the channel, or still has the mutex and is about to.  An
initialization that seals the barrier again does not close the channel, but none can
run while the loop is past its first wait: the vault was initialized by then.
-/
import UbixVault.Election
import Mathlib.Data.List.Chain
import Mathlib.Tactic.SplitIfs

namespace UbixVault.Election

variable {s s' : State} {e : Event} {m : Mark}

/-! ### Phases of an acquisition -/

/-- What the acquisition in progress has left in the log. -/
def Pc.term : Pc → List Mark
  | .recaptureHeld | .recheckHeld _ | .releaseSealed | .dropStepDown _ | .hookActive _ => [.acquired]
  | .hookingActive _ => [.acquired, .onActive]
  | .setActive _ => [.acquired, .onActive, .onActiveDone]
  | .active _ | .clearActive _ => [.acquired, .onActive, .onActiveDone, .activeSet]
  | .hookStandby _ => [.acquired, .onActive, .onActiveDone, .activeSet, .activeCleared]
  | .hookingStandby _ => [.acquired, .onActive, .onActiveDone, .activeSet, .activeCleared, .onStandby]
  | .release _ =>
    [.acquired, .onActive, .onActiveDone, .activeSet, .activeCleared, .onStandby, .onStandbyDone]
  | _ => []

/-- Which marks the loop writes, and where. -/
inductive Writes : Pc → Mark → Pc → Prop
  | acquired (ch : Nat) : Writes (.acquire ch) .acquired .recaptureHeld
  | unused : Writes .releaseSealed .released .capture
  | onActive (ch : Nat) : Writes (.hookActive ch) .onActive (.hookingActive ch)
  | onActiveDone (ch : Nat) : Writes (.hookingActive ch) .onActiveDone (.setActive ch)
  | activeSet (ch : Nat) : Writes (.setActive ch) .activeSet (.active ch)
  | activeCleared (hold : Bool) : Writes (.clearActive hold) .activeCleared (.hookStandby hold)
  | onStandby (hold : Bool) : Writes (.hookStandby hold) .onStandby (.hookingStandby hold)
  | onStandbyDone (hold : Bool) : Writes (.hookingStandby hold) .onStandbyDone (.release hold)
  | released (hold : Bool) : Writes (.release hold) .released (.afterRelease hold)

/-- What the lock is after a mark. -/
def Mark.held : Mark → Bool → Bool
  | .acquired, _ => true
  | .released, _ => false
  | _, held => held

/-- What the flag is after a mark. -/
def Mark.active : Mark → Bool → Bool
  | .activeSet, _ => true
  | .activeCleared, _ => false
  | _, active => active

/-- What a step does to the log, the lock and the flag. -/
inductive Effect (s s' : State) : Prop
  | quiet (hterm : s'.pc.term = s.pc.term) (hlog : s'.log = s.log) (hheld : s'.held = s.held)
      (hactive : s'.active = s.active)
  | writes (m : Mark) (hw : Writes s.pc m s'.pc) (hlog : s'.log = s.log ++ [m])
      (hheld : s'.held = m.held s.held) (hactive : s'.active = m.active s.active)

/-! ### Changes of the barrier -/

/-- Another thread changes the barrier and nothing else. -/
structure Changes (s s' : State) : Prop where
  pc : s'.pc = s.pc
  log : s'.log = s.log
  held : s'.held = s.held
  active : s'.active = s.active
  /-- What has been initialized remains so. -/
  initialized : s.initialized = true → s'.initialized = true

theorem Changes.effect (h : Changes s s') : Effect s s' :=
  .quiet (by rw [h.pc]) h.log h.held h.active

theorem begins_changes {op : Sealing} (h : s.begins op = some s') : Changes s s' := by
  unfold State.begins at h
  split at h
  · cases op with
    | sealing =>
      cases h
      exact ⟨rfl, rfl, rfl, rfl, id⟩
    | unsealing =>
      obtain ⟨-, h⟩ := Option.ite_none_right_eq_some.mp h
      cases h
      exact ⟨rfl, rfl, rfl, rfl, id⟩
    | initializing auto =>
      obtain ⟨-, h⟩ := Option.ite_none_left_eq_some.mp h
      cases h
      exact ⟨rfl, rfl, rfl, rfl, fun _ => rfl⟩
  · cases h

theorem finishes_changes (h : s.finishes = some s') : Changes s s' := by
  unfold State.finishes at h
  split at h <;> cases h <;> exact ⟨rfl, rfl, rfl, rfl, id⟩

theorem begins_spec {op : Sealing} (h : s.begins op = some s') :
    s.mu = none ∧ s'.mu = some op ∧ s'.closed = s.closed ∧
      (op = .sealing ∧ s'.sealed = true ∨ op ≠ .sealing ∧ s'.initialized = true) ∧
      (∀ auto, op = .initializing auto → s.initialized = false) := by
  unfold State.begins at h
  split at h
  · cases op with
    | sealing =>
      cases h
      simpa
    | unsealing =>
      obtain ⟨hunsealed, h⟩ := Option.ite_none_right_eq_some.mp h
      cases h
      simp_all
    | initializing auto =>
      obtain ⟨hinit, h⟩ := Option.ite_none_left_eq_some.mp h
      cases h
      simp_all
  · cases h

/-- Whoever is done has closed the channel or sealed the barrier again. -/
theorem finishes_spec (h : s.finishes = some s') :
    s'.mu = none ∧
      (s.mu = some (.initializing false) ∧ s'.sealed = true ∧ s'.closed = s.closed ∨
        s'.sealed = s.sealed ∧ s'.closed = s.closed + 1) := by
  unfold State.finishes at h
  split at h
  all_goals cases h
  all_goals simp_all [State.notify]

/-! ### Steps of the loop -/

/-- The channel the loop has taken. -/
@[simp] def Pc.channel : Pc → Option Nat
  | .check ch | .waitUnseal ch | .recheck ch | .acquire ch | .recheckHeld ch | .dropStepDown ch
  | .hookActive ch | .hookingActive ch | .setActive ch | .active ch => some ch
  | _ => none

/-- The loop has seen the barrier unsealed. -/
@[simp] def Pc.entered : Pc → Bool
  | .capture | .check _ | .waitUnseal _ | .returned => false
  | _ => true

/-- It has had the mutex since. -/
@[simp] def Pc.settled : Pc → Bool
  | .recapture => false
  | pc => pc.entered

/-- What the loop takes the barrier to be, sealed or not, until its channel is closed. -/
@[simp] def Pc.belief : Pc → Option Bool
  | .waitUnseal _ => some true
  | .dropStepDown _ | .hookActive _ | .hookingActive _ | .setActive _ | .active _ => some false
  | _ => none

theorem entered_of_settled {pc : Pc} (h : pc.settled = true) : pc.entered = true := by
  cases pc with
  | recapture => rfl
  | _ => exact h

theorem settled_of_belief {pc : Pc} (h : false ∈ pc.belief) : pc.settled = true := by
  cases pc with
  | waitUnseal ch => cases h
  | dropStepDown ch | hookActive ch | hookingActive ch | setActive ch | active ch => rfl
  | _ => cases h

/-- A step that leaves the barrier alone: the loop looks before it believes. -/
structure Careful (s s' : State) : Prop where
  sealed : s'.sealed = s.sealed
  initialized : s.initialized = true → s'.initialized = true
  mu : s'.mu = s.mu
  closed : s'.closed = s.closed
  entered : s'.pc.entered = true → s.pc.entered = true ∨ s.sealed = false
  settled : s'.pc.settled = true → s.pc.settled = true ∨ s.mu = none
  channel : ∀ ch ∈ s'.pc.channel, ch ∈ s.pc.channel ∨ ch = s.closed
  belief : ∀ b ∈ s'.pc.belief, b ∈ s.pc.belief ∧ s'.pc.channel = s.pc.channel ∨ s.sealed = b

/-- So does a step of others that leaves the loop alone as well. -/
theorem Careful.of_pc (hpc : s'.pc = s.pc) (hsealed : s'.sealed = s.sealed)
    (hinit : s.initialized = true → s'.initialized = true) (hmu : s'.mu = s.mu)
    (hclosed : s'.closed = s.closed) : Careful s s' where
  sealed := hsealed
  initialized := hinit
  mu := hmu
  closed := hclosed
  entered h := .inl (hpc ▸ h)
  settled h := .inl (hpc ▸ h)
  channel _ h := .inl (hpc ▸ h)
  belief _ h := .inl ⟨hpc ▸ h, by rw [hpc]⟩

/-- What a step is that does not change the barrier for another thread. -/
inductive Turn (s s' : State) : Prop
  /-- The loop seals the vault, as any other thread does. -/
  | seals (s₁ : State) (pc : Pc) (hchange : s.begins .sealing = some s₁ ∨ s.finishes = some s₁)
      (hs' : s' = s₁.goto pc) (hterm : pc.term = s.pc.term) (hentered : s.pc.settled = true)
      (hchannel : pc.channel = none)
  | moves (heffect : Effect s s') (hcareful : Careful s s')

theorem turn_next (h : s.next = some s') : Turn s s' := by
  unfold State.next at h
  cases hpc : s.pc with
  | sealSelf =>
    rw [hpc] at h
    obtain ⟨s₁, hbegins, rfl⟩ := Option.map_eq_some_iff.mp h
    exact .seals s₁ .sealingSelf (.inl hbegins) rfl (by rw [hpc]; rfl) (by rw [hpc]; rfl) rfl
  | sealingSelf =>
    rw [hpc] at h
    obtain ⟨s₁, hfinishes, rfl⟩ := Option.map_eq_some_iff.mp h
    exact .seals s₁ .capture (.inr hfinishes) rfl (by rw [hpc]; rfl) (by rw [hpc]; rfl) rfl
  | waitUnseal _ | acquire _ | backoff | active _ | holdOff | returned =>
    rw [hpc] at h
    cases h
  | capture | recapture | recaptureHeld =>
    rw [hpc] at h
    obtain ⟨hmu, h⟩ := Option.ite_none_right_eq_some.mp h
    cases h
    refine .moves (.quiet (by rw [hpc]; rfl) rfl rfl rfl) ⟨rfl, id, rfl, rfl, ?_, ?_, ?_, ?_⟩
    all_goals simp [State.goto, hpc, hmu]
  | check ch | recheck ch | recheckHeld ch =>
    rw [hpc] at h
    cases h
    cases hsealed : s.sealed
    all_goals
      refine .moves (.quiet (by rw [hpc]; rfl) rfl rfl rfl) ⟨rfl, id, rfl, rfl, ?_, ?_, ?_, ?_⟩
    all_goals simp [State.goto, hpc, hsealed]
  | acquireFailed err =>
    rw [hpc] at h
    cases h
    cases s.done <;> cases err
    all_goals
      refine .moves (.quiet (by rw [hpc]; rfl) rfl rfl rfl) ⟨rfl, id, rfl, rfl, ?_, ?_, ?_, ?_⟩
    all_goals simp [State.goto, hpc, AcquireError.handled]
  | afterRelease hold =>
    rw [hpc] at h
    cases h
    cases s.done <;> cases hold
    all_goals
      refine .moves (.quiet (by rw [hpc]; rfl) rfl rfl rfl) ⟨rfl, id, rfl, rfl, ?_, ?_, ?_, ?_⟩
    all_goals simp [State.goto, hpc]
  | dropStepDown ch =>
    rw [hpc] at h
    cases h
    refine .moves (.quiet (by rw [hpc]; rfl) rfl rfl rfl) ⟨rfl, id, rfl, rfl, ?_, ?_, ?_, ?_⟩
    all_goals simp [State.goto, hpc]
  | releaseSealed | hookActive _ | hookingActive _ | setActive _ | clearActive _ | hookStandby _
  | hookingStandby _ | release _ =>
    rw [hpc] at h
    cases h
    refine .moves (.writes _ (by rw [hpc]; constructor) rfl rfl rfl)
      ⟨rfl, id, rfl, rfl, ?_, ?_, ?_, ?_⟩
    all_goals simp [State.goto, State.write, hpc]

theorem turn_wakes (h : s.wakes e = some s') : Turn s s' := by
  unfold State.wakes at h
  split at h
  all_goals try split_ifs at h
  all_goals cases h
  case h_3 ch hpc =>
    refine .moves (.writes _ (by rw [hpc]; constructor) rfl rfl rfl)
      ⟨rfl, id, rfl, rfl, ?_, ?_, ?_, ?_⟩
    all_goals simp [State.goto, State.write, hpc]
  all_goals
    have hpc := ‹s.pc = _›
    refine .moves (.quiet (by rw [hpc]; rfl) rfl rfl rfl) ⟨rfl, id, rfl, rfl, ?_, ?_, ?_, ?_⟩
    all_goals simp [State.goto, hpc]

/-! ### The order of lock, hooks and flag -/

/-- In this acquisition the hooks have run that make the replica active, and no others. -/
def Pc.serving (pc : Pc) : Bool := hooks pc.term == [true]

/-- The flag is set. -/
def Pc.isActive (pc : Pc) : Bool :=
  pc.term == [.acquired, .onActive, .onActiveDone, .activeSet]

namespace Writes

variable {pc pc' : Pc} {log : List Mark}

theorem proper (hw : Writes pc m pc') (hterm : pc.term <:+ log) : Proper log m := by
  cases hw with
  | unused => exact .inl hterm
  | released hold => exact .inr hterm
  | activeSet ch => exact hterm
  | _ => trivial

/-- The mark is added to those of the acquisition, and the last one ends it. -/
theorem term (hw : Writes pc m pc') : pc'.term <:+ pc.term ++ [m] := by
  cases hw <;> simp [Pc.term]

theorem held (hw : Writes pc m pc') : m.held (!pc.term.isEmpty) = !pc'.term.isEmpty := by
  cases hw <;> rfl

theorem active (hw : Writes pc m pc') : m.active pc.isActive = pc'.isActive := by
  cases hw <;> rfl

/-- Hooks that run are not those that ran last. -/
theorem alternate (hw : Writes pc m pc') : ∀ b ∈ (hooks [m]).head?, pc.serving ≠ b := by
  cases hw <;> simp [hooks, Pc.serving, Pc.term]

theorem serving (hw : Writes pc m pc') : (hooks [m]).getLast?.getD pc.serving = pc'.serving := by
  cases hw <;> rfl

end Writes

/-- What the log, the lock and the flag are in every state. -/
structure Ordered (s : State) : Prop where
  proper : Run.Throughout Proper s.log
  alternate : (false :: hooks s.log).IsChain (· ≠ ·)
  last : (false :: hooks s.log).getLast? = some s.pc.serving
  term : s.pc.term <:+ s.log
  held : s.held = !s.pc.term.isEmpty
  active : s.active = s.pc.isActive

theorem hooks_append (log : List Mark) (m : Mark) : hooks (log ++ [m]) = hooks log ++ hooks [m] :=
  List.filterMap_append

theorem Ordered.of_effect (hs : Ordered s) (h : Effect s s') : Ordered s' := by
  cases h with
  | quiet hterm hlog hheld hactive =>
    constructor
    · rw [hlog]
      exact hs.proper
    · rw [hlog]
      exact hs.alternate
    · rw [hlog, Pc.serving, hterm]
      exact hs.last
    · rw [hlog, hterm]
      exact hs.term
    · rw [hheld, hterm]
      exact hs.held
    · rw [hactive, Pc.isActive, hterm]
      exact hs.active
  | writes m hw hlog hheld hactive =>
    constructor
    · rw [hlog, Run.throughout_append]
      exact ⟨hs.proper, hw.proper hs.term⟩
    · rw [hlog, hooks_append, ← List.cons_append, List.isChain_append]
      refine ⟨hs.alternate, ?_, ?_⟩
      · cases m <;> simp [hooks]
      · rintro b hb b' hb'
        rw [hs.last, Option.mem_some] at hb
        exact hb ▸ hw.alternate b' hb'
    · rw [hlog, hooks_append, ← List.cons_append, List.getLast?_append, hs.last, ← hw.serving]
      cases (hooks [m]).getLast? <;> rfl
    · rw [hlog]
      exact hw.term.trans (List.suffix_append_self_iff.mpr hs.term)
    · rw [hheld, hs.held]
      exact hw.held
    · rw [hactive, hs.active]
      exact hw.active

/-! ### Wake-ups -/

/-- What the loop knows of the barrier and of its channel in every state. -/
structure Awake (s : State) : Prop where
  unsealed : s.sealed = false → s.initialized = true
  entered : s.pc.entered = true → s.initialized = true
  /-- No initialization is under way once the loop is past its first wait. -/
  settled : s.pc.settled = true → ∀ auto, s.mu ≠ some (.initializing auto)
  channel : ∀ ch ∈ s.pc.channel, ch ≤ s.closed
  /-- What the loop believes is so, unless it is told or about to be told otherwise. -/
  belief : ∀ ch ∈ s.pc.channel, ∀ b ∈ s.pc.belief, ch < s.closed ∨ s.sealed = b ∨ s.mu ≠ none

theorem Awake.of_careful (hs : Awake s) (h : Careful s s') : Awake s' := by
  constructor
  · intro hunsealed
    exact h.initialized (hs.unsealed (h.sealed ▸ hunsealed))
  · intro hentered
    exact h.initialized ((h.entered hentered).elim hs.entered hs.unsealed)
  · intro hsettled
    rw [h.mu]
    obtain hbefore | hfree := h.settled hsettled
    · exact hs.settled hbefore
    · simp [hfree]
  · intro ch hch
    rw [h.closed]
    exact (h.channel ch hch).elim (hs.channel ch) le_of_eq
  · intro ch hch b hb
    rw [h.closed, h.sealed, h.mu]
    obtain ⟨hbefore, hsame⟩ | hsees := h.belief b hb
    · exact hs.belief ch (hsame ▸ hch) b hbefore
    · exact .inr (.inl hsees)

/-- The loop may go where it waits for nothing. -/
theorem Awake.goto (hs : Awake s) {pc : Pc} (hentered : s.pc.settled = true)
    (hchannel : pc.channel = none) : Awake (s.goto pc) where
  unsealed := hs.unsealed
  entered _ := hs.entered (entered_of_settled hentered)
  settled _ := hs.settled hentered
  channel ch hch := absurd (hchannel ▸ hch) (Option.not_mem_none ch)
  belief ch hch := absurd (hchannel ▸ hch) (Option.not_mem_none ch)

theorem Awake.begins (hs : Awake s) {op : Sealing} (h : s.begins op = some s') : Awake s' := by
  have hc := begins_changes h
  obtain ⟨hfree, hmu, hclosed, hsealed, hinit⟩ := begins_spec h
  constructor
  · intro hunsealed
    obtain ⟨-, hs'⟩ | ⟨-, hs'⟩ := hsealed
    · rw [hs'] at hunsealed
      cases hunsealed
    · exact hs'
  · intro hentered
    exact hc.initialized (hs.entered (hc.pc ▸ hentered))
  · intro hsettled auto hop
    rw [hmu, Option.some.injEq] at hop
    have hnot := hinit auto hop
    have hinitialized := hs.entered (entered_of_settled (hc.pc ▸ hsettled))
    rw [hnot] at hinitialized
    cases hinitialized
  · rw [hc.pc, hclosed]
    exact hs.channel
  · intro ch hch b hb
    exact .inr (.inr (by simp [hmu]))

theorem Awake.finishes (hs : Awake s) (h : s.finishes = some s') : Awake s' := by
  have hc := finishes_changes h
  have hinit : s.initialized = true → s'.initialized = true := hc.initialized
  obtain ⟨hmu, hspec⟩ := finishes_spec h
  constructor
  · intro hunsealed
    obtain ⟨-, hsealed, -⟩ | ⟨hsealed, -⟩ := hspec
    · rw [hsealed] at hunsealed
      cases hunsealed
    · exact hinit (hs.unsealed (hsealed ▸ hunsealed))
  · intro hentered
    exact hinit (hs.entered (hc.pc ▸ hentered))
  · simp [hmu]
  · intro ch hch
    have hle := hs.channel ch (hc.pc ▸ hch)
    omega
  · intro ch hch b hb
    rw [hc.pc] at hch hb
    obtain ⟨hop, hsealed, -⟩ | ⟨-, hclosed⟩ := hspec
    · cases b with
      | true => exact .inr (.inl hsealed)
      -- The loop would be past its first wait, with an initialization under way.
      | false => exact absurd hop (hs.settled (settled_of_belief hb) false)
    · have hle := hs.channel ch hch
      exact .inl (by omega)

/-! ### Every run -/

/-- What the loop's discipline rests on. -/
structure Invariant (s : State) : Prop where
  ordered : Ordered s
  awake : Awake s

namespace Invariant

theorem init (enabled sealed initialized : Bool) :
    Invariant (.init enabled sealed initialized) := by
  refine ⟨?_, ?_⟩
  · constructor
    all_goals
      cases enabled <;>
        simp [State.init, hooks, Pc.term, Pc.serving, Pc.isActive, Run.throughout_nil]
  · constructor
    all_goals cases enabled <;> simp [State.init]

theorem begins (hs : Invariant s) {op : Sealing} (h : s.begins op = some s') : Invariant s' :=
  ⟨hs.ordered.of_effect (begins_changes h).effect, hs.awake.begins h⟩

theorem finishes (hs : Invariant s) (h : s.finishes = some s') : Invariant s' :=
  ⟨hs.ordered.of_effect (finishes_changes h).effect, hs.awake.finishes h⟩

theorem turn (hs : Invariant s) (h : Turn s s') : Invariant s' := by
  cases h with
  | moves heffect hcareful => exact ⟨hs.ordered.of_effect heffect, hs.awake.of_careful hcareful⟩
  | seals s₁ pc hchange hs' hterm hsettled hchannel =>
    have hc : Changes s s₁ := hchange.elim begins_changes finishes_changes
    have ha : Awake s₁ := hchange.elim hs.awake.begins hs.awake.finishes
    subst hs'
    exact ⟨hs.ordered.of_effect (.quiet hterm hc.log hc.held hc.active),
      ha.goto (hc.pc ▸ hsettled) hchannel⟩

/-- **Every step of every thread keeps the invariant.** -/
theorem step (hs : Invariant s) (h : s.Step e s') : Invariant s' := by
  unfold State.Step State.step at h
  split at h
  case h_1 => exact hs.begins h
  case h_2 =>
    split_ifs at h
    exact hs.finishes h
  case h_8 => exact hs.turn (turn_next h)
  case h_9 => exact hs.turn (turn_wakes h)
  -- The rest touches neither the loop nor the barrier.
  all_goals try split_ifs at h
  all_goals
    cases h
    exact hs.turn (.moves (.quiet rfl rfl rfl rfl) (.of_pc rfl rfl (by simp) rfl rfl))

/-- Whoever has the mutex gets done with it. -/
theorem settles (hs : Invariant s) :
    Invariant s.settled ∧ s.settled.mu = none ∧ s.settled.pc = s.pc := by
  unfold State.settled
  cases h : s.finishes with
  | none =>
    refine ⟨hs, ?_, rfl⟩
    unfold State.finishes at h
    split at h
    · assumption
    all_goals cases h
  | some s' => exact ⟨hs.finishes h, (finishes_spec h).1, (finishes_changes h).pc⟩

theorem idle (hs : Invariant s) (h : s.pc.idle = true) : s.held = false := by
  rw [hs.ordered.held]
  cases hpc : s.pc with
  | waitUnseal ch | acquire ch | backoff | holdOff | returned => rfl
  | _ => simp [hpc, Pc.idle] at h

/-- **No wake-up is lost**: the channel is closed once the barrier is not what the loop believes. -/
theorem told (hs : Invariant s) {ch : Nat} {b : Bool} (hch : ch ∈ s.pc.channel)
    (hb : b ∈ s.pc.belief) (hopposite : s.settled.sealed = !b) : ch < s.settled.closed := by
  obtain ⟨hsettled, hmu, hpc⟩ := hs.settles
  obtain hlt | hsame | hbusy := hsettled.awake.belief ch (hpc ▸ hch) b (hpc ▸ hb)
  · exact hlt
  · simp [hsame] at hopposite
  · exact absurd hmu hbusy

end Invariant

/--
**The discipline of the election loop**, in every state that any interleaving reaches.
The hooks alternate, those that make the replica active first.  The flag is set and the
lock released only in their order, the flag is never set without an acquisition whose hooks
have run, and the loop has no lock while it is idle.  And where it waits, as the active
replica or for unseal, and the barrier is in the opposite state, it can wake up.
-/
theorem election_loop_disciplined (enabled sealed initialized : Bool) (s : State)
    (h : Run.Reachable State.Step (fun _ _ => True) (.init enabled sealed initialized) s) :
    (false :: hooks s.log).IsChain (· ≠ ·) ∧
    Run.Throughout Proper s.log ∧
    (s.active = true →
      s.held = true ∧ [.acquired, .onActive, .onActiveDone, .activeSet] <:+ s.log) ∧
    (s.pc.idle = true → s.held = false) ∧
    (∀ ch, s.pc = .active ch → s.settled.sealed = true → (s.settled.step .onClosed).isSome) ∧
    (∀ ch, s.pc = .waitUnseal ch → s.settled.sealed = false →
      (s.settled.step .onClosed).isSome) := by
  have hs : Invariant s := h.invariant (.init enabled sealed initialized) fun _ _ _ hs _ => hs.step
  have hpc := hs.settles.2.2
  refine ⟨hs.ordered.alternate, hs.ordered.proper, ?_, hs.idle, ?_, ?_⟩
  · intro hactive
    rw [hs.ordered.active, Pc.isActive, beq_iff_eq] at hactive
    rw [hs.ordered.held]
    exact ⟨by rw [hactive]; rfl, hactive ▸ hs.ordered.term⟩
  · intro ch hwaits hsealed
    have hlt : ch < s.settled.closed :=
      hs.told (b := false) (by rw [hwaits]; rfl) (by rw [hwaits]; rfl) hsealed
    simp [State.step, State.wakes, hpc, hwaits, hlt]
  · intro ch hwaits hsealed
    have hlt : ch < s.settled.closed :=
      hs.told (b := true) (by rw [hwaits]; rfl) (by rw [hwaits]; rfl) hsealed
    simp [State.step, State.wakes, hpc, hwaits, hlt]

/-- A replica becomes active, and the vault is sealed. -/
def sealedWhileActive : List Event :=
  [.step, .step, .step, .step, .acquired, .step, .step, .step, .step, .step, .step,
    .begin .sealing, .finish]

/-- The active replica is woken when the vault is sealed. -/
theorem election_loop_sealed_while_active :
    ∃ s, Run.Reachable State.Step (fun _ _ => True) (.init true false true) s ∧ s.pc = .active 0 ∧
      s.active = true ∧ s.settled.sealed = true ∧ s.held = true ∧
      (s.settled.step .onClosed).isSome := by
  have hrun : (Run.path (fun s e => (State.step s e).attach) (fun _ _ => True)
      (.init true false true) sealedWhileActive).map
      (fun s => (s.pc, s.active, s.settled.sealed)) = some (.active 0, true, true) := by
    decide +kernel
  obtain ⟨s, hreach, hspec⟩ := Run.Reachable.exists_of_path hrun
  simp only [Prod.mk.injEq] at hspec
  obtain ⟨hpc, hactive, hsealed⟩ := hspec
  obtain ⟨-, -, hflag, -, hwakes, -⟩ := election_loop_disciplined true false true s hreach
  exact ⟨s, hreach, hpc, hactive, hsealed, (hflag hactive).1, hwakes 0 hpc hsealed⟩

end UbixVault.Election
