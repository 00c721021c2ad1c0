/-
Writes after `Release`.

On Raft a write that begins when its replica's handle is released does not commit,
however `Release` came out.  On MySQL the fence of a replica stays what it was, and
only the row tells that the lock was given up: a write is refused then if the row
does not carry the fence, and once it does not it never will again.
-/
import UbixVault.Proofs.MysqlLock
import UbixVault.Proofs.Raft.Release

namespace UbixVault.Mysql

variable {ι ω : Type} {holder : ι → Bytes} {s s' : State ι ω} {i : ι} {w : ω} {r : Replica ω}
  {row row' : Option Row} {f : FenceToken}

/-! ### Fences that are spent -/

/-- No row, or one that does not carry the fence. -/
def Spent (row : Option Row) (f : FenceToken) : Prop := ∀ x, row = some x → ¬ x.Carries f

/-- How a row becomes another. -/
inductive Turns : Option Row → Option Row → Prop
  | same (row : Option Row) : Turns row row
  | nobody (row : Option Row) (y : Row) (h : y.holder = []) : Turns row (some y)
  | raised (x y : Row) (h : y.generation = x.generation + 1) : Turns (some x) (some y)
  | extended (x y : Row) (hholder : y.holder = x.holder) (hgen : y.generation = x.generation) :
      Turns (some x) (some y)

/-- A fence that is spent stays so: no row carries an old generation again. -/
theorem Spent.turn (h : Spent row f) (hturn : Turns row row') (hne : f.holder ≠ [])
    (hle : ∀ x, row = some x → f.gen ≤ x.generation) : Spent row' f := by
  cases hturn with
  | same => exact h
  | nobody _ y hy =>
    rintro _ ⟨⟩ ⟨hholder, -⟩
    exact hne (hholder.symm.trans hy)
  | raised x y hgen =>
    rintro _ ⟨⟩ ⟨-, hcarried⟩
    have := hle x rfl
    omega
  | extended x y hholder hgen =>
    rintro _ ⟨⟩ ⟨hcarried, hcarried'⟩
    exact h x rfl ⟨hholder.symm.trans hcarried, hgen.symm.trans hcarried'⟩

/-- What holds of a replica as to its releases. -/
structure Fenced (row : Option Row) (r : Replica ω) : Prop where
  releasing : r.releasing ≠ .idle → r.acquiring = .idle ∧ r.held = none
  released : r.released = true → r.acquiring = .idle ∧ r.releasing = .idle ∧ r.held = none ∧
    ∀ f, r.fence = some f → Spent row f
  begun : ∀ w f, r.write w = .begun f true → Spent row f
  checked : ∀ w f, r.write w ≠ .checked f true

/-- The row turns, and the replica stays as it is. -/
theorem Fenced.turn (h : Fenced row r) (hturn : ∀ f, r.fence = some f ∨ (∃ w, r.write w = .begun f true) →
    Spent row f → Spent row' f) : Fenced row' r where
  releasing := h.releasing
  released hr := by
    obtain ⟨hacq, hrel, hheld, hspent⟩ := h.released hr
    exact ⟨hacq, hrel, hheld, fun f hf => hturn f (.inl hf) (hspent f hf)⟩
  begun w f hw := hturn f (.inr ⟨w, hw⟩) (h.begun w f hw)
  checked := h.checked

/-- Another stage of `Acquire`, which the handle is busy with. -/
theorem Fenced.not_released (h : Fenced row r) {a : Acquiring} (ha : r.acquiring = a) (hne : a ≠ .idle)
    {p : Prop} (hr : r.released = true) : p :=
  absurd (ha.symm.trans (h.released hr).1) hne

theorem Fenced.setWrite [DecidableEq ω] (h : Fenced row r) {z : Write}
    (hbegun : ∀ f, z = .begun f true → Spent row f) (hchecked : ∀ f, z ≠ .checked f true) :
    Fenced row { r with write := Function.update r.write w z } where
  releasing := h.releasing
  released := h.released
  begun w' f hw' := by
    by_cases hw : w' = w
    · subst hw
      exact hbegun f (by simpa using hw')
    · exact h.begun w' f (by simpa [hw] using hw')
  checked w' f hw' := by
    by_cases hw : w' = w
    · subst hw
      exact hchecked f (by simpa using hw')
    · exact h.checked w' f (by simpa [hw] using hw')

/-! ### Steps -/

/-- A fence of a replica is of no later generation than the row. -/
theorem Sound.fence_le (h : Sound holder s) (htoken : Token s.history i (s.replica i) f) :
    ∀ x, s.row = some x → f.gen ≤ x.generation := by
  intro x hx
  rcases htoken.2 with hzero | hmem
  · omega
  · obtain ⟨y, hy, hle⟩ := h.ledger.bounded _ hmem
    cases hx.symm.trans hy
    exact hle

theorem Sound.turn (h : Sound holder s) (hname : ∀ i, holder i ≠ []) (hturn : Turns s.row row')
    (hi : Fenced s.row (s.replica i)) : Fenced row' (s.replica i) := by
  refine hi.turn fun f hf hspent => ?_
  have htoken : Token s.history i (s.replica i) f := by
    rcases hf with hf | ⟨w, hw⟩
    · obtain ⟨f', hf', htoken⟩ := (h.replica i).fence
      cases hf.symm.trans hf'
      exact htoken
    · exact (h.replica i).begun w f true hw
  refine hspent.turn hturn ?_ (h.fence_le htoken)
  rw [htoken.1, h.names]
  exact hname i

variable [DecidableEq ι]

/-- The row turns, and one replica changes. -/
theorem Sound.turn_set (h : Sound holder s) (hname : ∀ i, holder i ≠ []) (hturn : Turns s.row row')
    (hall : ∀ j, Fenced s.row (s.replica j))
    (hi : Fenced row' (s.replica i) → Fenced row' r) : ∀ j, Fenced row' ((s.set i r).replica j) := by
  intro j
  by_cases hj : j = i
  · subst hj
    rw [replica_set_self]
    exact hi (h.turn hname hturn (hall j))
  · rw [replica_set_of_ne s hj]
    exact h.turn hname hturn (hall j)

/-- The condition: if `Release` returns without having cleared the row, the row does not carry the fence. -/
def GivenUp (s : State ι ω) : Event ι ω → Prop
  | .release i .unchanged => ∀ f, (s.replica i).fence = some f → Spent s.row f
  | _ => True

theorem Sound.fenced_acquire (h : Sound holder s) (hname : ∀ i, holder i ≠ [])
    (hall : ∀ j, Fenced s.row (s.replica j)) (hidle : (s.replica i).releasing = .idle)
    (hstep : AcquireStep s i s') : ∀ j, Fenced s'.row (s'.replica j) := by
  -- While `Acquire` is busy with the handle it may go on to any stage.
  have hbusy : ∀ {row : Option Row} {a b : Acquiring}, (s.replica i).acquiring = a → a ≠ .idle →
      Fenced row (s.replica i) → Fenced row { s.replica i with acquiring := b } := fun ha hne hi =>
    ⟨fun hr => absurd hidle hr, hi.not_released ha hne, hi.begun, hi.checked⟩
  cases hstep with
  | start hacq hlost =>
    exact h.turn_set hname (.same _) hall fun hi =>
      ⟨fun hr => absurd hidle hr, by nofun, hi.begun, hi.checked⟩
  | holding x hacq hheld hlost =>
    exact h.turn_set hname (.same _) hall fun hi =>
      ⟨fun hr => absurd hidle hr, by nofun, hi.begun, hi.checked⟩
  | ensureRow hacq =>
    have hturn : Turns s.row (some (s.row.getD ⟨[], 0, 0⟩)) := by
      cases s.row with
      | none => exact .nobody _ _ rfl
      | some x => exact .same _
    exact h.turn_set hname hturn hall (hbusy hacq (by nofun))
  | update x hacq hlocks hrow hfree => exact h.turn_set hname (.same _) hall (hbusy hacq (by nofun))
  | retry hacq => exact h.turn_set hname (.same _) hall (hbusy hacq (by nofun))
  | select y hacq => exact h.turn_set hname (.same _) hall (hbusy hacq (by nofun))
  | commit y hacq =>
    obtain ⟨-, -, x, hx, hgen⟩ := (h.replica i).pending y (.inr hacq)
    exact h.turn_set hname (hx ▸ .raised x y hgen) hall (hbusy hacq (by nofun))
  | unknown y hacq =>
    obtain ⟨-, -, x, hx, hgen⟩ := (h.replica i).pending y (.inr hacq)
    exact h.turn_set hname (hx ▸ .raised x y hgen) hall (hbusy hacq (by nofun))
  | rollback y hacq =>
    refine h.turn_set hname (.same _) hall fun hi => ?_
    rcases hacq with hacq | hacq
    · exact hbusy hacq (by nofun) hi
    · exact hbusy hacq (by nofun) hi
  | hold gen hacq =>
    exact h.turn_set hname (.same _) hall fun hi =>
      ⟨fun hr => absurd hidle hr, hi.not_released hacq (by nofun), hi.begun, hi.checked⟩
  | keep gen hacq =>
    exact h.turn_set hname (.same _) hall fun hi =>
      ⟨fun hr => absurd hidle hr, hi.not_released hacq (by nofun), hi.begun, hi.checked⟩
  | giveUp hacq =>
    refine h.turn_set hname (.same _) hall fun hi => ?_
    rcases hacq with hacq | hacq
    · exact hbusy hacq (by nofun) hi
    · exact hbusy hacq (by nofun) hi

theorem Sound.fenced_renew (h : Sound holder s) (hname : ∀ i, holder i ≠ [])
    (hall : ∀ j, Fenced s.row (s.replica j)) (hstep : RenewStep s i s') :
    ∀ j, Fenced s'.row (s'.replica j) := by
  cases hstep with
  | extend x row hheld hlost hlocks hrow hcarries =>
    exact fun j => h.turn hname (hrow ▸ .extended _ _ rfl rfl) (hall j)
  | lose x hheld hlost =>
    refine h.turn_set hname (.same _) hall fun hi => ⟨fun hr => ?_, fun hr => ?_, hi.begun, hi.checked⟩
    · cases hheld.symm.trans (hi.releasing hr).2
    · cases hheld.symm.trans (hi.released hr).2.2.1

theorem Sound.fenced_release (h : Sound holder s) (hname : ∀ i, holder i ≠ []) {o : Outcome}
    (hall : ∀ j, Fenced s.row (s.replica j)) (hidle : (s.replica i).acquiring = .idle)
    (hgiven : GivenUp s (.release i o)) (hstep : ReleaseStep s i s' o) :
    ∀ j, Fenced s'.row (s'.replica j) := by
  cases hstep with
  | start x hrel hheld =>
    refine h.turn_set hname (.same _) hall
      fun hi => ⟨fun _ => ⟨hidle, rfl⟩, fun hr => ?_, hi.begun, hi.checked⟩
    cases hheld.symm.trans (hi.released hr).2.2.1
  | nothing hrel hheld =>
    exact h.turn_set hname (.same _) hall fun hi =>
      ⟨by nofun, fun _ => ⟨hidle, rfl, hheld, hgiven⟩, hi.begun, hi.checked⟩
  | update gen row hrel hlocks hrow hcarries =>
    have hheld := ((hall i).releasing (by rw [hrel]; nofun)).2
    refine h.turn_set hname (.nobody _ _ rfl) hall fun hi =>
      ⟨by nofun, fun _ => ⟨hidle, rfl, hheld, ?_⟩, hi.begun, hi.checked⟩
    -- The name that the row has now is nobody's.
    rintro f hf _ ⟨⟩ ⟨hholder, -⟩
    obtain ⟨f', hf', htoken⟩ := (h.replica i).fence
    cases hf.symm.trans hf'
    exact hname i (by rw [← h.names, ← htoken.1, ← hholder])
  | miss gen hrel =>
    have hheld := ((hall i).releasing (by rw [hrel]; nofun)).2
    exact h.turn_set hname (.same _) hall fun hi =>
      ⟨by nofun, fun _ => ⟨hidle, rfl, hheld, hgiven⟩, hi.begun, hi.checked⟩

variable [DecidableEq ω]

theorem Sound.fenced_write (h : Sound holder s) (hname : ∀ i, holder i ≠ [])
    (hall : ∀ j, Fenced s.row (s.replica j)) (hstep : WriteStep s i w s') :
    ∀ j, Fenced s'.row (s'.replica j) := by
  cases hstep with
  | start f hidle hfence =>
    refine h.turn_set hname (.same _) hall fun hi => hi.setWrite (fun f' hf' => ?_) (by nofun)
    injection hf' with hf hr
    exact hf ▸ (hi.released hr).2.2.2 f hfence
  | plain hidle hfence => exact hall
  | check f late x hw hlock hrow hcarries =>
    refine h.turn_set hname (.same _) hall fun hi => hi.setWrite (by nofun) fun f' hf' => ?_
    cases hf'
    exact hi.begun w f hw x hrow hcarries
  | fenced f late hw hrow => exact h.turn_set hname (.same _) hall fun hi => hi.setWrite (by nofun) (by nofun)
  | commit f late hw => exact h.turn_set hname (.same _) hall fun hi => hi.setWrite (by nofun) (by nofun)
  | fail f late hw => exact h.turn_set hname (.same _) hall fun hi => hi.setWrite (by nofun) (by nofun)
  | rollback f late hw => exact h.turn_set hname (.same _) hall fun hi => hi.setWrite (by nofun) (by nofun)

/-! ### Runs -/

/-- Not a write that began when its replica's handle was released, nor one before any handle. -/
def Record.InTime : Record ι → Prop
  | acquired _ _ => True
  | wrote _ _ late => late = false
  | plain _ => False

/-- A step adds nothing to the history that is late. -/
theorem Sound.inTime (h : Sound holder s) (hall : ∀ j, Fenced s.row (s.replica j)) {e : Event ι ω}
    (hstep : Step s e s') (hhistory : ∀ a ∈ s.history, a.InTime) : ∀ a ∈ s'.history, a.InTime := by
  have hadd : ∀ b : Record ι, b.InTime → ∀ a ∈ s.history ++ [b], a.InTime := by
    intro b hb a ha
    rcases List.mem_append.mp ha with ha | ha
    · exact hhistory a ha
    · exact List.mem_singleton.mp ha ▸ hb
  cases hstep with
  | tick => exact hhistory
  | acquire _ i hs =>
    cases hs with
    | commit y hacq => exact hadd _ trivial
    | unknown y hacq => exact hadd _ trivial
    | _ => exact hhistory
  | renew _ i hs => cases hs <;> exact hhistory
  | release _ i o hs => cases hs <;> exact hhistory
  | write _ i w hs =>
    cases hs with
    | plain hidle hfence =>
      obtain ⟨f, hf, -⟩ := (h.replica i).fence
      cases hfence.symm.trans hf
    | commit f late hw =>
      refine hadd _ ?_
      cases late with
      | false => rfl
      | true => exact absurd hw ((hall i).checked w f)
    | _ => exact hhistory

/-- **No write commits that began after `Release`, if `Release` left the fence spent.** -/
theorem late_writes_never {ttl : ι → Nat} (hname : ∀ i, holder i ≠ [])
    (hrun : Run.Reachable Step (fun s e => Sequential s e ∧ GivenUp s e) (State.init ω holder ttl) s) :
    ∀ a ∈ s.history, a.InTime := by
  have hinit : ∀ j, Fenced (State.init ω holder ttl).row ((State.init ω holder ttl).replica j) := by
    intro j
    constructor <;> simp [State.init]
  refine (hrun.invariant (I := fun s => Sound holder s ∧ (∀ j, Fenced s.row (s.replica j)) ∧
    ∀ a ∈ s.history, a.InTime) ⟨.init holder ttl, hinit, by simp [State.init]⟩ ?_).2.2
  rintro s e s' ⟨h, hall, hhistory⟩ ⟨hseq, hgiven⟩ hstep
  refine ⟨h.step hstep, ?_, h.inTime hall hstep hhistory⟩
  cases hstep with
  | tick => exact hall
  | acquire _ i hs => exact h.fenced_acquire hname hall hseq hs
  | renew _ i hs => exact h.fenced_renew hname hall hs
  | release _ i o hs => exact h.fenced_release hname hall hseq hgiven hs
  | write _ i w hs => exact h.fenced_write hname hall hs

end UbixVault.Mysql

namespace UbixVault

/--
**Release fences.**  Where every handle is used by one call at a time: on Raft, however
`Release` comes out, no write commits that its replica began after `Release` and before
its next `Acquire`; on MySQL, none does in a run in which every `Release` that returns
without having cleared the row leaves a row that does not carry the replica's fence.
-/
theorem release_fences {ι ω : Type} [DecidableEq ι] [DecidableEq ω] (c : Raft.Lock.Cluster ι Unit ω)
    (hraft : Run.Reachable Raft.Lock.Step Raft.Lock.Sequential (.init ι Unit ω) c)
    (holder : ι → Bytes) (ttl : ι → Nat) (hname : ∀ i, holder i ≠ []) (s : Mysql.State ι ω)
    (hmysql : Run.Reachable Mysql.Step (fun s e => Mysql.Sequential s e ∧ Mysql.GivenUp s e)
      (.init ω holder ttl) s) :
    (∀ e ∈ c.commits, e.late = false) ∧ ∀ a ∈ s.history, a.InTime :=
  ⟨Raft.Lock.late_commits_never hraft, Mysql.late_writes_never hname hmysql⟩

instance Mysql.decidableSpent (row : Option Row) (f : FenceToken) : Decidable (Spent row f) :=
  inferInstanceAs (Decidable (∀ r ∈ row, _))

instance Mysql.decidableGivenUp {ι ω : Type} (s : State ι ω) : DecidablePred (GivenUp s)
  | .release i .unchanged => inferInstanceAs (Decidable (∀ f ∈ (s.replica i).fence, Spent s.row f))
  | .release _ .goesOn | .release _ .cleared | .tick | .acquire _ | .renew _ | .write _ _ =>
    .isTrue trivial

/-- The statement of `Release` fails, and a write of the replica commits after it. -/
theorem Mysql.release_leaves_fence :
    ∃ s : State Unit Unit, Run.Reachable Step Sequential (.init Unit (fun _ => [7]) fun _ => 1) s ∧
      (s.replica ()).released = true ∧ .wrote () 1 true ∈ s.history := by
  have hrun : (Run.path State.next Sequential (.init Unit (fun _ => [7]) fun _ => 1)
      (acquires () ++ [.release () .goesOn, .release () .unchanged] ++ writes ())).map
        (fun s => ((s.replica ()).released, s.history))
      = some (true, [.acquired () 1, .wrote () 1 true]) := by decide +kernel
  obtain ⟨s, hreach, hs⟩ := Run.Reachable.exists_of_path hrun
  obtain ⟨hreleased, hhistory⟩ := Prod.mk.inj hs
  exact ⟨s, hreach, hreleased, by rw [hhistory]; simp⟩

/-- On both backends a write has committed, the lock was released and a late write has begun. -/
theorem release_fences_one :
    ∃ (c : Raft.Lock.Cluster Unit Unit Unit) (s : Mysql.State Unit Unit),
      (c.replica ()).write () = .term true ∧ c.commits ≠ [] ∧ (∀ e ∈ c.commits, e.late = false) ∧
      (s.replica ()).write () = .begun ⟨[7], 1⟩ true ∧ .wrote () 1 false ∈ s.history ∧
      ∀ a ∈ s.history, a.InTime := by
  have hraft : (Run.path Raft.Lock.Cluster.next Raft.Lock.Sequential (.init Unit Unit Unit)
      (Raft.Lock.acquires () 1 ++ List.replicate 4 (.write () ()) ++
        List.replicate 3 (.release () ()) ++ List.replicate 2 (.write () ()))).map
          (fun c => ((c.replica ()).write (), c.commits))
      = some (.term true, [⟨(), 1, some ⟨(), 1⟩, false⟩]) := by decide +kernel
  have hmysql : (Run.path Mysql.State.next (fun s e => Mysql.Sequential s e ∧ Mysql.GivenUp s e)
      (.init Unit (fun _ => [7]) fun _ => 1)
      (Mysql.acquires () ++ Mysql.writes () ++ [.release () .goesOn, .release () .cleared,
        .write () ()])).map (fun s => ((s.replica ()).write (), s.history))
      = some (.begun ⟨[7], 1⟩ true, [.acquired () 1, .wrote () 1 false]) := by decide +kernel
  obtain ⟨c, hc, hcluster⟩ :=
    Run.Reachable.exists_of_path hraft
  obtain ⟨s, hs, hstate⟩ := Run.Reachable.exists_of_path hmysql
  obtain ⟨hlate, hcommits⟩ := Prod.mk.inj hcluster
  obtain ⟨hbegun, hhistory⟩ := Prod.mk.inj hstate
  obtain ⟨hintime, hrecords⟩ := release_fences c hc (fun _ => [7]) (fun _ => 1) (by simp) s hs
  refine ⟨c, s, hlate, ?_, hintime, hbegun, ?_, hrecords⟩
  · rw [hcommits]
    exact List.cons_ne_nil _ _
  · rw [hhistory]
    simp

end UbixVault
