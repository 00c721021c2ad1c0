/-
Token buckets.

A bucket fills at a constant rate up to a ceiling, and every request that finds a whole
token takes one.  What is in a bucket at some time is known from what was in it at an
earlier time, so a bucket is an amount and the time it was measured.

The bound on what a bucket lets through is an invariant along the requests: what was let
through, and what could still be let through, together never exceed what was in the
bucket at the start and what has flowed in since.
-/
import Mathlib

namespace TokenBucket

variable {K : Type} [Field K] [LinearOrder K]

/-- How fast buckets fill, and how much they hold. -/
structure Meter (K : Type) where
  rate : K
  burst : K

/-- What was in a bucket at a time. -/
structure Level (K : Type) where
  amount : K
  since : K

namespace Meter

variable (m : Meter K)

/-- What is in a bucket at a later time. -/
def amountAt (l : Level K) (t : K) : K := min m.burst (l.amount + (t - l.since) * m.rate)

/-- A full bucket. -/
def full (t : K) : Level K := ⟨m.burst, t⟩

/-- A request takes a token, if there is one. -/
def draw (l : Level K) (t : K) : Bool × Level K :=
  if 1 ≤ m.amountAt l t then (true, ⟨m.amountAt l t - 1, t⟩) else (false, ⟨m.amountAt l t, t⟩)

/-- Requests one after another, each with what became of it. -/
def draws : Level K → List K → List (K × Bool)
  | _, [] => []
  | l, t :: ts => (t, (m.draw l t).1) :: draws (m.draw l t).2 ts

variable {m}

theorem amountAt_le_burst (l : Level K) (t : K) : m.amountAt l t ≤ m.burst := min_le_left _ _

/-- What is in a bucket when it is measured, if it is not more than it holds. -/
theorem amountAt_self {l : Level K} (h : l.amount ≤ m.burst) : m.amountAt l l.since = l.amount := by
  simp [amountAt, h]

theorem draw_since (l : Level K) (t : K) : (m.draw l t).2.since = t := by
  unfold draw
  split_ifs <;> rfl

/-- A request that is let through takes a token with it. -/
theorem draw_amount (l : Level K) (t : K) :
    (m.draw l t).2.amount = m.amountAt l t - if (m.draw l t).1 then 1 else 0 := by
  unfold draw
  split_ifs <;> simp_all

theorem time_of_mem_draws {l : Level K} {ts : List K} {r : K × Bool} (hr : r ∈ m.draws l ts) : r.1 ∈ ts := by
  induction ts generalizing l with
  | nil => cases hr
  | cons t ts ih =>
    rcases List.mem_cons.mp hr with rfl | hr
    · exact List.mem_cons_self
    · exact List.mem_cons_of_mem _ (ih hr)

/-- The times of the requests from the first one on. -/
theorem le_of_mem_draws {l : Level K} {ts : List K} {t : K} (hfirst : ∀ t' ∈ ts, t ≤ t') {r : K × Bool}
    (hr : r ∈ m.draws l (t :: ts)) : t ≤ r.1 := by
  rcases List.mem_cons.mp (time_of_mem_draws hr) with heq | hmem
  · exact heq.ge
  · exact hfirst r.1 hmem

/-- If the first request is too late, all of them are. -/
theorem filter_draws_eq_nil {l : Level K} {ts : List K} {t e : K} (hfirst : ∀ t' ∈ ts, t ≤ t')
    (hlate : ¬ t ≤ e) :
    (m.draws l (t :: ts)).filter (fun r => r.2 && decide (r.1 ≤ e)) = [] := by
  rw [List.filter_eq_nil_iff]
  intro r hr
  have hnot : ¬ r.1 ≤ e := fun h => hlate ((le_of_mem_draws hfirst hr).trans h)
  simp [hnot]

/-! ### What flows in and out -/

variable [IsStrictOrderedRing K]

/-- No more flows in than the rate allows. -/
theorem amountAt_le (hrate : 0 ≤ m.rate) (l : Level K) {t t' : K} (ht : t ≤ t') :
    m.amountAt l t' ≤ m.amountAt l t + (t' - t) * m.rate := by
  have hin : 0 ≤ (t' - t) * m.rate := mul_nonneg (sub_nonneg.mpr ht) hrate
  unfold amountAt
  rw [← min_add_add_right]
  refine min_le_min ?_ (le_of_eq ?_)
  · exact le_add_of_nonneg_right hin
  · ring

theorem amountAt_mono (hrate : 0 ≤ m.rate) (l : Level K) {t t' : K} (ht : t ≤ t') :
    m.amountAt l t ≤ m.amountAt l t' := by
  refine min_le_min le_rfl (add_le_add le_rfl (mul_le_mul_of_nonneg_right ?_ hrate))
  exact sub_le_sub_right ht _

theorem amountAt_full (hrate : 0 ≤ m.rate) {t t' : K} (ht : t ≤ t') : m.amountAt (m.full t) t' = m.burst := by
  unfold amountAt full
  exact min_eq_left (le_add_of_nonneg_right (mul_nonneg (sub_nonneg.mpr ht) hrate))

theorem draw_amount_nonneg {l : Level K} {t : K} (h : 0 ≤ m.amountAt l t) : 0 ≤ (m.draw l t).2.amount := by
  unfold draw
  split_ifs with hone
  · exact sub_nonneg.mpr hone
  · exact h

theorem draw_amount_le (l : Level K) (t : K) : (m.draw l t).2.amount ≤ m.burst := by
  refine le_trans ?_ (amountAt_le_burst l t)
  rw [draw_amount]
  split_ifs <;> simp

theorem amountAt_nonneg (hrate : 0 ≤ m.rate) (hburst : 0 ≤ m.burst) {l : Level K} {t : K} (hl : 0 ≤ l.amount)
    (ht : l.since ≤ t) : 0 ≤ m.amountAt l t :=
  le_min hburst (add_nonneg hl (mul_nonneg (sub_nonneg.mpr ht) hrate))

/-- What is let through until `e`, against what is in the bucket at `t` and flows in until `e`. -/
theorem length_draws_le (hrate : 0 ≤ m.rate) (hburst : 0 ≤ m.burst) {l : Level K} {ts : List K} {t e : K}
    (hl : 0 ≤ l.amount) (hsince : l.since ≤ t) (hts : ts.Pairwise (· ≤ ·)) (hge : ∀ t' ∈ ts, t ≤ t')
    (he : t ≤ e) :
    (((m.draws l ts).filter fun r => r.2 && decide (r.1 ≤ e)).length : K)
      ≤ m.amountAt l t + (e - t) * m.rate := by
  have hnonneg : 0 ≤ m.amountAt l t + (e - t) * m.rate :=
    add_nonneg (amountAt_nonneg hrate hburst hl hsince) (mul_nonneg (sub_nonneg.mpr he) hrate)
  induction ts generalizing l t with
  | nil => simpa [draws] using hnonneg
  | cons t' ts ih =>
    obtain ⟨hfirst, hts⟩ := List.pairwise_cons.mp hts
    have htt' : t ≤ t' := hge t' List.mem_cons_self
    by_cases hte : t' ≤ e
    · have hin : 0 ≤ m.amountAt l t' := amountAt_nonneg hrate hburst hl (hsince.trans htt')
      have hdrawn := draw_amount_nonneg hin
      have hself : m.amountAt (m.draw l t').2 t' = m.amountAt l t' - if (m.draw l t').1 then 1 else 0 := by
        have hmeasured := amountAt_self (m := m) (draw_amount_le l t')
        rwa [draw_since, draw_amount] at hmeasured
      have hrest := ih hdrawn (draw_since l t').le hts hfirst hte
        (add_nonneg (amountAt_nonneg hrate hburst hdrawn (draw_since l t').le)
          (mul_nonneg (sub_nonneg.mpr hte) hrate))
      rw [hself] at hrest
      have hflow := amountAt_le hrate l htt'
      have hcount : (((m.draws l (t' :: ts)).filter fun r => r.2 && decide (r.1 ≤ e)).length : K)
          = ((m.draws (m.draw l t').2 ts).filter fun r => r.2 && decide (r.1 ≤ e)).length
            + if (m.draw l t').1 then 1 else 0 := by
        simp only [draws, List.filter_cons, hte, decide_true, Bool.and_true]
        split_ifs <;> simp
      rw [hcount]
      linarith [sub_mul e t' m.rate, sub_mul e t m.rate, sub_mul t' t m.rate]
    · rw [filter_draws_eq_nil hfirst hte]
      simpa using hnonneg

/-- **No window lets more through than the ceiling and what flows in meanwhile.** -/
theorem length_window_le (hrate : 0 ≤ m.rate) (hburst : 0 ≤ m.burst) {l : Level K} {ts : List K} {a d : K}
    (hl : 0 ≤ l.amount) (hts : ts.Pairwise (· ≤ ·)) (hge : ∀ t ∈ ts, l.since ≤ t) (hd : 0 ≤ d) :
    (((m.draws l ts).filter fun r => r.2 && (decide (a ≤ r.1) && decide (r.1 ≤ a + d))).length : K)
      ≤ m.burst + d * m.rate := by
  induction ts generalizing l with
  | nil => simpa [draws] using add_nonneg hburst (mul_nonneg hd hrate)
  | cons t ts ih =>
    obtain ⟨hfirst, hts'⟩ := List.pairwise_cons.mp hts
    have hsince : l.since ≤ t := hge t List.mem_cons_self
    by_cases hat : a ≤ t
    · -- From here on every request is after the start of the window.
      have hsame : (m.draws l (t :: ts)).filter (fun r => r.2 && (decide (a ≤ r.1) && decide (r.1 ≤ a + d)))
          = (m.draws l (t :: ts)).filter fun r => r.2 && decide (r.1 ≤ a + d) := by
        refine List.filter_congr fun r hr => ?_
        have hle : a ≤ r.1 := hat.trans (le_of_mem_draws hfirst hr)
        simp [hle]
      rw [hsame]
      by_cases hte : t ≤ a + d
      · have hall : ∀ t' ∈ t :: ts, t ≤ t' := by
          intro t' ht'
          rcases List.mem_cons.mp ht' with rfl | ht'
          · exact le_rfl
          · exact hfirst t' ht'
        have hcount := length_draws_le hrate hburst hl hsince hts hall hte
        have hbound := amountAt_le_burst (m := m) l t
        have hshort : (a + d - t) * m.rate ≤ d * m.rate := by
          refine mul_le_mul_of_nonneg_right ?_ hrate
          linarith
        linarith
      · rw [filter_draws_eq_nil hfirst hte]
        simpa using add_nonneg hburst (mul_nonneg hd hrate)
    · have hskip : (m.draws l (t :: ts)).filter (fun r => r.2 && (decide (a ≤ r.1) && decide (r.1 ≤ a + d)))
          = (m.draws (m.draw l t).2 ts).filter
            fun r => r.2 && (decide (a ≤ r.1) && decide (r.1 ≤ a + d)) := by
        simp [draws, hat]
      rw [hskip]
      refine ih (draw_amount_nonneg (amountAt_nonneg hrate hburst hl hsince)) hts' ?_
      rw [draw_since]
      exact hfirst

end Meter

end TokenBucket
