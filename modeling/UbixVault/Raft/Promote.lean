/-
Promotion of non-voters.

A joined node replicates without a vote and reports how far it has applied the
log.  The leader evaluates these reports again and again and hands a node to
`AddVoter` once it has stayed caught up for the stabilization period.  `caughtUp`
holds since when it has.  The times of reports and evaluations are readings of one
process's monotonic clock, so differences between them are exact.

An evaluation works under the lock and collects who is due; `AddVoter` is called
after the lock is given up, so reports may arrive between an evaluation and the
calls it leads to.
-/
import UbixVault.Basic
import UbixVault.Lib.Run

namespace UbixVault.Raft.Promote

abbrev ServerID : Type := Bytes

structure Server where
  id : ServerID
  address : Bytes
  voter : Bool
  deriving DecidableEq

def second : Time := 1000000000

/-- How promotion is tuned. -/
structure Promotion where
  /-- How many entries a node may trail and still count as caught up. -/
  threshold : UInt64
  /-- How long it must stay caught up. -/
  stabilization : Time
  interval : Time
  /-- How old a report may be. -/
  maxReportAge : Time

/-- The settings `RunPromotion` works with; a product of durations wraps as `int64` does. -/
def Promotion.filled (p : Promotion) : Promotion :=
  let interval := if p.interval ≤ 0 then second else p.interval
  { threshold := if p.threshold = 0 then 16 else p.threshold
    stabilization := if p.stabilization ≤ 0 then 10 * second else p.stabilization
    interval
    maxReportAge := if p.maxReportAge ≤ 0 then (5 * interval).bmod (2 ^ 64) else p.maxReportAge }

structure AppliedReport where
  index : UInt64
  «at» : Time
  deriving DecidableEq

structure Promoter where
  reports : ServerID → Option AppliedReport
  caughtUp : ServerID → Option Time
  /-- The servers that evaluations found due and that await `AddVoter`. -/
  due : List Server

def Promoter.new : Promoter := ⟨fun _ => none, fun _ => none, []⟩

/-- What an evaluation is told by the consensus library, and when it takes place. -/
structure Reading where
  now : Time
  leader : Bool
  configuration : Except Err (List Server)
  lastIndex : UInt64

/-- Neither without a fresh report nor behind. -/
def current (p : Promotion) (report : Option AppliedReport) (leaderIdx : UInt64) (now : Time) :
    Bool :=
  let fresh := report.any fun rep => now - rep.at ≤ p.maxReportAge
  let index := (report.map AppliedReport.index).getD 0
  let behind := index < leaderIdx && p.threshold < leaderIdx - index
  !(!fresh || behind)

/-- What the loop over the servers has changed so far. -/
structure Sweep where
  caughtUp : ServerID → Option Time
  seen : ServerID → Bool
  due : List Server

def visit (p : Promotion) (reports : ServerID → Option AppliedReport) (leaderIdx : UInt64)
    (now : Time) (acc : Sweep) (s : Server) : Sweep :=
  if s.voter then acc
  else
    let acc := { acc with seen := Function.update acc.seen s.id true }
    if current p (reports s.id) leaderIdx now then
      match acc.caughtUp s.id with
      | none => { acc with caughtUp := Function.update acc.caughtUp s.id (some now) }
      | some since =>
        if now - since < p.stabilization then acc
        else
          { acc with
            caughtUp := Function.update acc.caughtUp s.id none
            due := acc.due ++ [s] }
    else { acc with caughtUp := Function.update acc.caughtUp s.id none }

namespace Promoter

variable (p : Promotion) (st : Promoter)

def reportApplied (id : ServerID) (index : UInt64) (now : Time) : Promoter :=
  { st with reports := Function.update st.reports id (some ⟨index, now⟩) }

/-- The part of `promoteOnce` under the lock: the new state and who is due. -/
def evaluate (r : Reading) : Promoter × List Server :=
  if r.leader then
    match r.configuration with
    | .error _ => (st, [])
    | .ok servers =>
      let sweep := servers.foldl (visit p st.reports r.lastIndex r.now)
        ⟨st.caughtUp, fun _ => false, []⟩
      ({ st with caughtUp := fun id => if sweep.seen id then sweep.caughtUp id else none },
        sweep.due)
  else ({ st with caughtUp := fun _ => none }, [])

/-- The part after it: `AddVoter` on the next server due, whose report goes if that works. -/
def addVoter (added : Bool) : Promoter × Option Server :=
  match st.due with
  | [] => (st, none)
  | s :: rest =>
    ({ st with
        due := rest
        reports := if added then Function.update st.reports s.id none else st.reports },
      some s)

end Promoter

/-! ### Runs -/

inductive Action
  | reportApplied (id : ServerID) (index : UInt64) (now : Time)
  | promoteOnce (r : Reading)
  /-- `AddVoter` on the next server due, and whether it works. -/
  | addVoter (added : Bool)

structure Event where
  action : Action
  /-- Whom an evaluation found due. -/
  due : List Server
  /-- Who was handed to `AddVoter`. -/
  handed : Option Server
  after : Promoter

def Promoter.step (p : Promotion) (st : Promoter) (action : Action) : Event :=
  match action with
  | .reportApplied id index now => ⟨action, [], none, st.reportApplied id index now⟩
  | .promoteOnce r =>
    let (st', due) := st.evaluate p r
    ⟨action, due, none, { st' with due := st'.due ++ due }⟩
  | .addVoter added =>
    let (st', handed) := st.addVoter added
    ⟨action, [], handed, st'⟩

/-- The events of a sequence of actions under the settings `p`. -/
def events (p : Promotion) (actions : List Action) : List Event :=
  Run.history (Promoter.step p) Event.after Promoter.new actions

/-! ### What a history says -/

/-- The report that an event is, if it is one of `id`. -/
def Event.report (id : ServerID) (e : Event) : Option AppliedReport :=
  match e.action with
  | .reportApplied id' index now => if id' = id then some ⟨index, now⟩ else none
  | _ => none

/-- The latest report of `id`. -/
def latestReport (es : List Event) (id : ServerID) : Option AppliedReport :=
  (es.filterMap (Event.report id)).getLast?

/-- At the evaluation `r` after `es`, `id` is a listed non-voter with a fresh report, and close. -/
structure CaughtUp (p : Promotion) (es : List Event) (r : Reading) (servers : List Server)
    (id : ServerID) : Prop where
  listed : ∃ s ∈ servers, s.id = id ∧ s.voter = false
  reported : ∃ rep, latestReport es id = some rep ∧ r.now - rep.at ≤ p.maxReportAge ∧
    r.lastIndex.toNat ≤ rep.index.toNat + p.threshold.toNat

/-- If `e` is an evaluation, the node leads and `id` is caught up in the configuration obtained. -/
def Unbroken (p : Promotion) (id : ServerID) (es : List Event) (e : Event) : Prop :=
  ∀ r, e.action = .promoteOnce r → r.leader = true ∧
    ∀ servers, r.configuration = .ok servers → CaughtUp p es r servers id

/-- The evaluation `r` after `es` obtained a configuration in which `id` is caught up. -/
def Good (p : Promotion) (id : ServerID) (es : List Event) (r : Reading) : Prop :=
  r.leader = true ∧ ∃ servers, r.configuration = .ok servers ∧ CaughtUp p es r servers id

/-- Since the evaluation at `since`, which was good, no evaluation in `es` was another. -/
def Steady (p : Promotion) (id : ServerID) (since : Time) (es : List Event) : Prop :=
  ∃ first e₀ between r₀, es = first ++ e₀ :: between ∧ e₀.action = .promoteOnce r₀ ∧
    r₀.now = since ∧ Good p id first r₀ ∧
    Run.Throughout (fun earlier e => Unbroken p id (first ++ e₀ :: earlier) e) between

end UbixVault.Raft.Promote
