/-
What a rate limiter lets through.

A limiter that forgets buckets decides as one that keeps them all: a bucket that is
forgotten is full, and a client without a bucket is treated as one with a full bucket.
So a limiter is a family of token buckets, one for each client there could be, and the
sweeps can be left out of a run.  The bound on a window is that of one token bucket.
-/
import UbixVault.Lib.TokenBucket
import UbixVault.Ratelimit

namespace UbixVault.Ratelimit

open TokenBucket

variable {l : Limiter} {lv : Bytes → Level ℚ} {now t : ℚ} {key : Bytes}

/-- The buckets of a limiter all fill alike. -/
def Limiter.meter (l : Limiter) : Meter ℚ := ⟨l.rate, l.burst⟩

/-! ### A limiter that keeps everything -/

/-- Decisions of a family of buckets, to which sweeps do nothing. -/
def decisions (m : Meter ℚ) : (Bytes → Level ℚ) → List Event → List Decision
  | _, [] => []
  | lv, ⟨time, .allow key⟩ :: rest =>
    ⟨time, key, (m.draw (lv key) time).1⟩ ::
      decisions m (Function.update lv key (m.draw (lv key) time).2) rest
  | lv, ⟨_, .sweep _⟩ :: rest => decisions m lv rest

def Event.isAllow : Event → Bool
  | ⟨_, .allow _⟩ => true
  | ⟨_, .sweep _⟩ => false

theorem decisions_filter (m : Meter ℚ) (lv : Bytes → Level ℚ) (events : List Event) :
    decisions m lv (events.filter Event.isAllow) = decisions m lv events := by
  induction events generalizing lv with
  | nil => rfl
  | cons event rest ih =>
    obtain ⟨time, operation⟩ := event
    cases operation with
    | allow key =>
      rw [List.filter_cons_of_pos rfl]
      simp only [decisions, ih]
    | sweep period =>
      rw [List.filter_cons_of_neg (by simp [Event.isAllow])]
      exact ih lv

/-- When a client was decided about. -/
def times (key : Bytes) : List Event → List ℚ
  | [] => []
  | ⟨time, .allow key'⟩ :: rest => if key' = key then time :: times key rest else times key rest
  | ⟨_, .sweep _⟩ :: rest => times key rest

theorem times_sublist (key : Bytes) (events : List Event) :
    (times key events).Sublist (events.map Event.time) := by
  induction events with
  | nil => exact List.Sublist.refl _
  | cons event rest ih =>
    obtain ⟨time, operation⟩ := event
    cases operation with
    | allow key' =>
      simp only [times, List.map_cons]
      split_ifs
      · exact ih.cons_cons _
      · exact ih.cons _
    | sweep period => exact ih.cons _

/-- The decisions about one client are those of its bucket. -/
theorem decisions_of_key (m : Meter ℚ) (lv : Bytes → Level ℚ) (key : Bytes) (events : List Event) :
    ((decisions m lv events).filter (·.key = key)).map (fun d => (d.time, d.allowed))
      = m.draws (lv key) (times key events) := by
  induction events generalizing lv with
  | nil => rfl
  | cons event rest ih =>
    obtain ⟨time, operation⟩ := event
    cases operation with
    | allow key' =>
      by_cases hkey : key' = key
      · subst hkey
        simp only [decisions, times, if_true, Meter.draws]
        rw [List.filter_cons_of_pos (by simp), List.map_cons, ih, Function.update_self]
      · simp only [decisions, times, if_neg hkey]
        rw [List.filter_cons_of_neg (by simpa using hkey), ih, Function.update_of_ne (Ne.symm hkey)]
    | sweep period => exact ih lv

/-! ### A limiter that forgets -/

/-- A bucket, or none, that behaves like a level from now on. -/
def Behaves (m : Meter ℚ) (now : ℚ) (b : Option Bucket) (level : Level ℚ) : Prop :=
  match b with
  | none => ∀ t, now ≤ t → m.amountAt level t = m.burst
  | some b => b.tokens ≤ m.burst ∧ b.last ≤ now ∧
      ∀ t, now ≤ t → m.amountAt ⟨b.tokens, b.last⟩ t = m.amountAt level t

theorem Behaves.later {m : Meter ℚ} {b : Option Bucket} {level : Level ℚ}
    (h : Behaves m now b level) (ht : now ≤ t) :
    Behaves m t b level := by
  cases b with
  | none => exact fun t' ht' => h t' (ht.trans ht')
  | some b => exact ⟨h.1, h.2.1.trans ht, fun t' ht' => h.2.2 t' (ht.trans ht')⟩

/-- Every client has the bucket it should have. -/
def Represents (l : Limiter) (now : ℚ) (lv : Bytes → Level ℚ) : Prop :=
  ∀ key, Behaves l.meter now (l.buckets.lookup key) (lv key)

/-- What `Allow` finds in the bucket of a client. -/
theorem refilled_eq (h : Behaves l.meter now (l.buckets.lookup key) (lv key)) :
    l.refilled now key = ⟨l.meter.amountAt (lv key) now, now⟩ := by
  unfold Limiter.refilled
  cases hb : l.buckets.lookup key with
  | none =>
    rw [hb] at h
    rw [h now le_rfl]
    rfl
  | some b =>
    rw [hb] at h
    obtain ⟨hle, hlast, hamount⟩ := h
    rw [← hamount now le_rfl]
    dsimp only
    split_ifs with helapsed
    · rfl
    · have hnow : b.last = now := le_antisymm hlast (by linarith)
      have hself := Meter.amountAt_self (m := l.meter) (l := ⟨b.tokens, b.last⟩) hle
      rw [← hnow, hself]

/-- `Allow` is one request to a bucket. -/
theorem allow_eq (h : Behaves l.meter now (l.buckets.lookup key) (lv key)) :
    l.allow now key = ((l.meter.draw (lv key) now).1, ⟨l.rate, l.burst, l.buckets.insert key
      ⟨(l.meter.draw (lv key) now).2.amount, (l.meter.draw (lv key) now).2.since⟩⟩) := by
  unfold Limiter.allow Meter.draw
  rw [refilled_eq h]
  dsimp only
  split_ifs <;> rfl

theorem allow_represents (key : Bytes) (h : Represents l now lv) :
    Represents (l.allow now key).2 now (Function.update lv key (l.meter.draw (lv key) now).2) := by
  rw [allow_eq (h key)]
  intro key'
  show Behaves l.meter now ((l.buckets.insert key _).lookup key') _
  by_cases hkey : key' = key
  · subst hkey
    rw [AList.lookup_insert, Function.update_self]
    exact ⟨Meter.draw_amount_le _ _, (Meter.draw_since _ _).le, fun _ _ => rfl⟩
  · rw [AList.lookup_insert_ne hkey, Function.update_of_ne hkey]
    exact h key'

/-- A sweep keeps a bucket or forgets one that is idle. -/
theorem lookup_sweep (now period : ℚ) (entries : List ((_ : Bytes) × Bucket))
    (swept : (AList fun _ : Bytes => Bucket) × Nat) (key : Bytes) :
    (entries.foldl (l.sweepOne now period) swept).1.lookup key = swept.1.lookup key ∨
      (entries.foldl (l.sweepOne now period) swept).1.lookup key = none ∧
        ∃ b, ⟨key, b⟩ ∈ entries ∧ l.idle now period b = true := by
  induction entries generalizing swept with
  | nil => exact .inl rfl
  | cons entry rest ih =>
    rw [List.foldl_cons]
    rcases ih (l.sweepOne now period swept entry) with heq | ⟨hnone, b, hb, hidle⟩
    · rw [heq]
      unfold Limiter.sweepOne
      split_ifs with hidle
      · by_cases hkey : key = entry.1
        · subst hkey
          exact .inr ⟨AList.lookup_erase _ _, entry.2, List.mem_cons_self, hidle⟩
        · exact .inl (AList.lookup_erase_ne hkey)
      · exact .inl rfl
    · exact .inr ⟨hnone, b, List.mem_cons_of_mem _ hb, hidle⟩

/-- What a sweep forgets is full, so nobody notices. -/
theorem sweep_represents (hrate : 0 ≤ l.rate) (period : ℚ) (h : Represents l now lv) :
    Represents (l.sweep now period).2 now lv := by
  intro key
  have hkey := h key
  rcases lookup_sweep (l := l) now period l.buckets.entries (l.buckets, 0) key with
    heq | ⟨hnone, b, hb, hidle⟩
  · show Behaves l.meter now ((l.buckets.entries.foldl (l.sweepOne now period) (l.buckets, 0)).1.lookup key) _
    rw [heq]
    exact hkey
  · show Behaves l.meter now ((l.buckets.entries.foldl (l.sweepOne now period) (l.buckets, 0)).1.lookup key) _
    rw [hnone]
    rw [AList.mem_lookup_iff.mpr hb] at hkey
    obtain ⟨hle, hlast, hamount⟩ := hkey
    unfold Limiter.idle at hidle
    rw [Bool.and_eq_true, decide_eq_true_iff, decide_eq_true_iff] at hidle
    intro t ht
    rw [← hamount t ht]
    refine le_antisymm (Meter.amountAt_le_burst _ _) (hidle.2.trans ?_)
    have hgrows : l.meter.amountAt ⟨b.tokens, b.last⟩ now ≤ l.meter.amountAt ⟨b.tokens, b.last⟩ t :=
      Meter.amountAt_mono hrate _ ht
    exact hgrows

/-- **A limiter decides as a family of buckets that are never forgotten.** -/
theorem run_eq_decisions (hrate : 0 ≤ l.rate) (h : Represents l now lv) {events : List Event}
    (hclock : (events.map Event.time).Pairwise (· ≤ ·)) (hnow : ∀ event ∈ events, now ≤ event.time) :
    l.run events = decisions l.meter lv events := by
  induction events generalizing l now lv with
  | nil => rfl
  | cons event rest ih =>
    obtain ⟨time, operation⟩ := event
    rw [List.map_cons, List.pairwise_cons] at hclock
    have hlater : ∀ event ∈ rest, time ≤ event.time :=
      fun event hevent => hclock.1 _ (List.mem_map_of_mem hevent)
    have hthen : Represents l time lv := fun key => (h key).later (hnow _ List.mem_cons_self)
    cases operation with
    | allow key =>
      have hstep := allow_eq (hthen key)
      have hrest := allow_represents key hthen
      rw [hstep] at hrest
      rw [Limiter.run, decisions, hstep]
      exact congrArg _ (ih (l := ⟨l.rate, l.burst, _⟩) hrate hrest hclock.2 hlater)
    | sweep period =>
      have hswept : Represents (l.sweep time period).2 time lv := sweep_represents hrate period hthen
      exact ih (l := (l.sweep time period).2) hrate hswept hclock.2 hlater

/-- A new limiter has seen nobody, and everybody has a full bucket. -/
theorem represents_new {rate : ℚ} (hrate : 0 ≤ rate) (burst now : ℚ) :
    Represents (.new rate burst) now fun _ => (Limiter.new rate burst).meter.full now :=
  fun _ _ ht => Meter.amountAt_full hrate ht

/-- A time before every event of a run. -/
theorem exists_start (events : List Event) : ∃ start, ∀ event ∈ events, start ≤ event.time := by
  induction events with
  | nil => exact ⟨0, by simp⟩
  | cons event rest ih =>
    obtain ⟨start, hstart⟩ := ih
    refine ⟨min event.time start, ?_⟩
    rw [List.forall_mem_cons]
    exact ⟨min_le_left _ _, fun event' h => (min_le_right _ _).trans (hstart event' h)⟩

/--
**A client is let through no more than its bucket allows, and sweeping is invisible.**
In a window of length `d` a client gets at most `burst + rate * d` requests through,
wherever the window begins; and a run without its sweeps comes to the same decisions.
-/
theorem allow_bounded (rate burst : ℚ) (hrate : 0 < rate) (hburst : 0 < burst) (events : List Event)
    (hclock : (events.map Event.time).Pairwise (· ≤ ·)) :
    (∀ key a d, 0 ≤ d →
      ((((Limiter.new rate burst).run events).filter fun r =>
        r.key = key ∧ r.allowed ∧ a ≤ r.time ∧ r.time ≤ a + d).length : ℚ) ≤ burst + rate * d) ∧
    (Limiter.new rate burst).run (events.filter Event.isAllow) = (Limiter.new rate burst).run events := by
  obtain ⟨start, hstart⟩ := exists_start events
  have hnew := represents_new hrate.le burst start
  have hrun := run_eq_decisions hrate.le hnew hclock hstart
  constructor
  · intro key a d hd
    have hkey := decisions_of_key (Limiter.new rate burst).meter
        (fun _ => (Limiter.new rate burst).meter.full start) key
      events
    have htimes := times_sublist key events
    have hwindow := Meter.length_window_le (m := (Limiter.new rate burst).meter)
      (l := (Limiter.new rate burst).meter.full start) (a := a) hrate.le hburst.le hburst.le
      (hclock.sublist htimes) (fun t ht => ?_) hd
    · rw [hrun]
      rw [← hkey, List.filter_map, List.length_map, List.filter_filter] at hwindow
      refine le_of_eq_of_le ?_ (hwindow.trans_eq (by rw [mul_comm]; rfl))
      congr 2
      refine List.filter_congr fun r _ => ?_
      simp [Bool.and_comm, Bool.and_assoc]
    · obtain ⟨event, hevent, rfl⟩ := List.mem_map.mp (htimes.subset ht)
      exact hstart event hevent
  · have hsub : ((events.filter Event.isAllow).map Event.time).Pairwise (· ≤ ·) :=
      hclock.sublist (List.filter_sublist.map _)
    rw [run_eq_decisions hrate.le hnew hsub fun event h => hstart event (List.mem_of_mem_filter h), hrun]
    exact decisions_filter _ _ _

/-- Two requests at once, a sweep, and one more a second later. -/
theorem allow_bounded_twice :
    let events : List Event := [⟨0, .allow []⟩, ⟨0, .allow []⟩, ⟨1, .sweep 0⟩, ⟨1, .allow []⟩]
    ((((Limiter.new 1 1).run events).filter fun r =>
      r.key = [] ∧ r.allowed ∧ 0 ≤ r.time ∧ r.time ≤ 0 + 1).length : ℚ) ≤ 1 + 1 * 1 :=
  (allow_bounded 1 1 one_pos one_pos _ (by decide)).1 [] 0 1 zero_le_one

end UbixVault.Ratelimit
