/-
Writes that the lock lets through commit in the term of its acquisition.

A write that was let through with a term finds its node in that term still, or no
leader, as long as no election is won in between.
-/
import UbixVault.Raft.Lock

namespace UbixVault.Raft.Lock

variable {ι ℓ ω : Type} {r r' : Replica ℓ ω} {l : ℓ} {w : ω} {t : Nat}

/-- A write that was let through finds its node in the term it was let through with, or no leader. -/
def Replica.InTerm (r : Replica ℓ ω) : Prop := ∀ w a late, r.write w = .propose (some a) late →
  r.leads = true → r.term = a.term

/-- Between being let through and its proposal. -/
def Replica.Admitted (r : Replica ℓ ω) : Prop := ∃ w a late, r.write w = .propose (some a) late

section Handles

variable [DecidableEq ℓ]

theorem AcquireStep.inTerm (hstep : AcquireStep r l r') (h : r.InTerm) : r'.InTerm := by
  cases hstep <;> exact h

theorem DropStep.inTerm (hstep : DropStep r l t r') (h : r.InTerm) : r'.InTerm := by
  cases hstep <;> exact h

theorem ReleaseStep.inTerm (hstep : ReleaseStep r l r') (h : r.InTerm) : r'.InTerm := by
  cases hstep <;> exact h

end Handles

/-! ### Writes -/

section Writes

variable [DecidableEq ω] {out : Option (Option (Admission ℓ) × Bool)}

theorem Replica.InTerm.setWrite (h : r.InTerm) {x : Write ℓ}
    (hx : ∀ a late, x = .propose (some a) late → r.leads = true → r.term = a.term) :
    (r.setWrite w x).InTerm := by
  intro w' a late hw'
  by_cases hw : w' = w
  · subst hw
    exact hx a late (by simpa [Replica.setWrite] using hw')
  · exact h w' a late (by simpa [Replica.setWrite, hw] using hw')

/-- A write that commits was let through with the term that the node is in. -/
theorem WriteStep.inTerm (hstep : WriteStep r w r' out) (h : r.InTerm) :
    r'.InTerm ∧ ∀ a late, out = some (some a, late) → r.term = a.term := by
  cases hstep with
  | enter late hidle hmu htaken hlate => exact ⟨h.setWrite (by nofun), by nofun⟩
  | free late hidle hmu htaken hlate => exact ⟨h.setWrite (by nofun), by nofun⟩
  | isLeader late hw hleads => exact ⟨h.setWrite (by nofun), by nofun⟩
  | notLeader late hw hleads => exact ⟨h.setWrite (by nofun), by nofun⟩
  | term late l hw hheld =>
    refine ⟨h.setWrite ?_, by nofun⟩
    rintro a late' ⟨⟩ -
    rfl
  | otherTerm late hw hheld => exact ⟨h.setWrite (by nofun), by nofun⟩
  | propose a late hw hfailed hleads =>
    refine ⟨h.setWrite (by nofun), ?_⟩
    rintro a' late' ⟨⟩
    exact h w a' late hw hleads
  | refused a late hw => exact ⟨h.setWrite (by nofun), by nofun⟩

end Writes

/-! ### The cluster -/

variable [DecidableEq ι] [DecidableEq ℓ] [DecidableEq ω]

/-- What a step does to the node it happens at. -/
inductive Move (i : ι) (newest : Nat) (r : Replica ℓ ω) :
    Event ι ℓ ω → Nat → Replica ℓ ω → List (Commit ι ℓ) → Prop
  | elect (t : Nat) (hnewest : newest < t) (hterm : r.term ≤ t) :
      Move i newest r (.elect i t) t (r.elected t) []
  | follow (t : Nat) (hterm : r.term ≤ t) : Move i newest r (.follow i t) newest (r.follows t) []
  | fail : Move i newest r (.fail i) newest { r with failed := true } []
  | take (hmu : r.haMu = none) : Move i newest r (.take i) newest { r with haTaken := true } []
  | acquire (l : ℓ) (r' : Replica ℓ ω) (h : AcquireStep r l r') :
      Move i newest r (.acquire i l) newest r' []
  | drop (l : ℓ) (t : Nat) (r' : Replica ℓ ω) (h : DropStep r l t r') :
      Move i newest r (.drop i l t) newest r' []
  | release (l : ℓ) (r' : Replica ℓ ω) (h : ReleaseStep r l r') :
      Move i newest r (.release i l) newest r' []
  | write (w : ω) (r' : Replica ℓ ω) (out : Option (Option (Admission ℓ) × Bool))
      (h : WriteStep r w r' out) :
      Move i newest r (.write i w) newest r'
        (out.toList.map fun (a, late) => ⟨i, r.term, a, late⟩)

/-- Every step happens at one node. -/
theorem Step.move {c c' : Cluster ι ℓ ω} {e : Event ι ℓ ω} (hstep : Step c e c') :
    ∃ i newest r commits, Move i c.newest (c.replica i) e newest r commits ∧
      c' = { c.set i r with newest, commits := c.commits ++ commits } := by
  have hnil : ∀ (i : ι) (r : Replica ℓ ω) (newest : Nat),
      { c.set i r with newest } = { c.set i r with newest, commits := c.commits ++ [] } := by
    intro i r newest
    rw [List.append_nil]
    rfl
  cases hstep with
  | elect i t hnewest hterm => exact ⟨i, _, _, _, .elect t hnewest hterm, hnil i _ _⟩
  | follow i t hterm => exact ⟨i, _, _, _, .follow t hterm, hnil i _ _⟩
  | fail i => exact ⟨i, _, _, _, .fail, hnil i _ _⟩
  | take i hmu => exact ⟨i, _, _, _, .take hmu, hnil i _ _⟩
  | acquire i l r h => exact ⟨i, _, _, _, .acquire l r h, hnil i _ _⟩
  | drop i l t r h => exact ⟨i, _, _, _, .drop l t r h, hnil i _ _⟩
  | release i l r h => exact ⟨i, _, _, _, .release l r h, hnil i _ _⟩
  | write i w r out h => exact ⟨i, _, _, _, .write w r out h, rfl⟩

/--
**Invariants of nodes.**  What every move keeps, and a newer term elsewhere does not undo,
holds of every node; and every commit is as the move that made it says.
-/
theorem invariant_of_move {A : Cluster ι ℓ ω → Event ι ℓ ω → Prop} {P : Nat → Replica ℓ ω → Prop}
    {K : Commit ι ℓ → Prop} (hinit : P 0 (.init ℓ ω))
    (hmono : ∀ newest newest' r, newest ≤ newest' → P newest r → P newest' r)
    (hmove : ∀ c i e newest r commits, P c.newest (c.replica i) → A c e →
      Move i c.newest (c.replica i) e newest r commits → P newest r ∧ ∀ x ∈ commits, K x)
    {c : Cluster ι ℓ ω} (hrun : Run.Reachable Step A (Cluster.init ι ℓ ω) c) :
    (∀ i, P c.newest (c.replica i)) ∧ ∀ x ∈ c.commits, K x := by
  refine hrun.invariant (I := fun c => (∀ i, P c.newest (c.replica i)) ∧ ∀ x ∈ c.commits, K x)
    ⟨fun _ => hinit, by simp [Cluster.init]⟩ ?_
  rintro c e c' ⟨hP, hK⟩ he hstep
  obtain ⟨i, newest, r, commits, hm, rfl⟩ := hstep.move
  obtain ⟨hr, hcommits⟩ := hmove c i e newest r commits (hP i) he hm
  have hnewest : c.newest ≤ newest := by
    cases hm with
    | elect t hlt _ => exact Nat.le_of_lt hlt
    | _ => exact Nat.le_refl _
  refine ⟨fun j => ?_, fun x hx => ?_⟩
  · unfold Cluster.set
    dsimp only
    by_cases hj : j = i
    · subst hj
      rwa [Function.update_self]
    · rw [Function.update_of_ne hj]
      exact hmono _ _ _ hnewest (hP j)
  · exact (List.mem_append.mp hx).elim (hK x) (hcommits x)

/-- The condition: no election is won while a write is between its check and its proposal. -/
def Undisturbed (c : Cluster ι ℓ ω) : Event ι ℓ ω → Prop
  | .elect i _ => ¬ (c.replica i).Admitted
  | _ => True

/--
**Write fencing.**  If no node wins an election while a write of its is between the
fence check and the proposal, every fenced write that commits does so in the term in
which the handle that let it through held the lock.
-/
theorem fenced_write_commits_in_term (c : Cluster ι ℓ ω)
    (hrun : Run.Reachable Step Undisturbed (Cluster.init ι ℓ ω) c) (e : Commit ι ℓ)
    (he : e ∈ c.commits) (a : Admission ℓ) (ha : e.admission = some a) : e.term = a.term := by
  refine (invariant_of_move (P := fun _ r => r.InTerm)
    (K := fun e => ∀ a, e.admission = some a → e.term = a.term) (by nofun) (fun _ _ _ _ h => h)
    ?_ hrun).2 e he a ha
  intro c i e newest r commits h he hm
  cases hm with
  | elect t hnewest hterm =>
    exact ⟨fun w a late hw => absurd ⟨w, a, late, hw⟩ he, by nofun⟩
  | follow t hterm => exact ⟨fun _ _ _ _ => by nofun, by nofun⟩
  | fail => exact ⟨h, by nofun⟩
  | take hmu => exact ⟨h, by nofun⟩
  | acquire l _ hs => exact ⟨hs.inTerm h, by nofun⟩
  | drop l t _ hs => exact ⟨hs.inTerm h, by nofun⟩
  | release l _ hs => exact ⟨hs.inTerm h, by nofun⟩
  | write w _ out hs =>
    obtain ⟨hnext, hout⟩ := hs.inTerm h
    refine ⟨hnext, fun x hx => ?_⟩
    obtain ⟨⟨a, late⟩, hmem, rfl⟩ := List.mem_map.mp hx
    rintro a' rfl
    exact hout a' late (Option.mem_toList.mp hmem)

/-! ### Runs that can be followed -/

/-- `Acquire` goes on, and does not give up. -/
def Replica.acquireOn (r : Replica ℓ ω) (l : ℓ) : Option {r' // AcquireStep r l r'} :=
  match h : (r.lock l).acquiring with
  | .idle =>
    if hled : r.haTaken = true ∧ r.leads = true then some ⟨_, .start h hled.1 hled.2⟩ else none
  | .term => some ⟨_, .term h⟩
  | .barrier t => if hleads : r.leads = true then some ⟨_, .barrier t h hleads⟩ else none
  | .isLeader t => if hleads : r.leads = true then some ⟨_, .isLeader t h hleads⟩ else none
  | .sameTerm t => if hterm : r.term = t then some ⟨_, .sameTerm t h hterm⟩ else none
  | .record t =>
    if hled : r.failed = false ∧ r.leads = true then some ⟨_, .record t h hled.1 hled.2⟩ else none
  | .isLeaderAgain t => if hleads : r.leads = true then some ⟨_, .isLeaderAgain t h hleads⟩ else none
  | .sameTermAgain t => if hterm : r.term = t then some ⟨_, .sameTermAgain t h hterm⟩ else none
  | .hold t => if hmu : r.haMu = none then some ⟨_, .hold t h hmu⟩ else none
  | .monitor t => some ⟨_, .monitor t h⟩

def Replica.releaseOn (r : Replica ℓ ω) (l : ℓ) : Option {r' // ReleaseStep r l r'} :=
  match h : (r.lock l).releasing with
  | .idle =>
    if htaken : r.haTaken = true then
      if hheld : (r.lock l).term = 0 then some ⟨_, .nothing h htaken hheld⟩
      else some ⟨_, .start h htaken hheld⟩
    else none
  | .fence => if hmu : r.haMu = none then some ⟨_, .fence h hmu⟩ else none
  | .rest => some ⟨_, .rest h⟩

/-- A write goes on where there is one handle, which is taken; a proposal commits if it can. -/
def Replica.writeOn (r : Replica Unit ω) (w : ω) :
    Option {p : Replica Unit ω × Option (Option (Admission Unit) × Bool) // WriteStep r w p.1 p.2} :=
  match h : r.write w with
  | .idle =>
    if hfree : r.haMu = none ∧ r.haTaken = true then
      some ⟨(_, _), .enter (r.lock ()).released h hfree.1 hfree.2 ⟨fun h _ => h, fun h => h ()⟩⟩
    else none
  | .isLeader late =>
    if hleads : r.leads = true then some ⟨(_, _), .isLeader late h hleads⟩
    else some ⟨(_, _), .notLeader late h (eq_false_of_ne_true hleads)⟩
  | .term late =>
    if hheld : r.held () = some r.term then some ⟨(_, _), .term late () h hheld⟩
    else some ⟨(_, _), .otherTerm late h fun _ => hheld⟩
  | .propose a late =>
    if hcan : r.failed = false ∧ r.leads = true then some ⟨(_, _), .propose a late h hcan.1 hcan.2⟩
    else some ⟨(_, _), .refused a late h⟩

/-- What an event leads to, if it is possible; the loss of the lock is left out. -/
def Cluster.next (c : Cluster ι Unit ω) : ∀ e : Event ι Unit ω, Option {c' // Step c e c'}
  | .elect i t =>
    if h : c.newest < t ∧ (c.replica i).term ≤ t then some ⟨_, .elect c i t h.1 h.2⟩ else none
  | .follow i t => if h : (c.replica i).term ≤ t then some ⟨_, .follow c i t h⟩ else none
  | .fail i => some ⟨_, .fail c i⟩
  | .take i => if h : (c.replica i).haMu = none then some ⟨_, .take c i h⟩ else none
  | .acquire i l => ((c.replica i).acquireOn l).map fun ⟨r, h⟩ => ⟨_, .acquire c i l r h⟩
  | .drop _ _ _ => none
  | .release i l => ((c.replica i).releaseOn l).map fun ⟨r, h⟩ => ⟨_, .release c i l r h⟩
  | .write i w => ((c.replica i).writeOn w).map fun ⟨p, h⟩ => ⟨_, .write c i w p.1 p.2 h⟩

def Write.admitted : Write ℓ → Bool
  | .propose (some _) _ => true
  | _ => false

instance decidableUndisturbed (c : Cluster ι ℓ Unit) : DecidablePred (Undisturbed c)
  | .elect i _ => decidable_of_iff (((c.replica i).write ()).admitted = false) <| by
      unfold Undisturbed Replica.Admitted Write.admitted
      split <;> simp_all
  | .follow _ _ | .fail _ | .take _ | .acquire _ _ | .drop _ _ _ | .release _ _ | .write _ _ =>
    .isTrue trivial

instance decidableSequential (c : Cluster ι ℓ ω) : DecidablePred (Sequential c)
  | .acquire i l => inferInstanceAs (Decidable (((c.replica i).lock l).releasing = .idle))
  | .release i l => inferInstanceAs (Decidable (((c.replica i).lock l).acquiring = .idle))
  | .elect _ _ | .follow _ _ | .fail _ | .take _ | .drop _ _ _ | .write _ _ => .isTrue trivial

/-- A node is elected in the term and acquires the lock. -/
def acquires (i : ι) (term : Nat) : List (Event ι Unit Unit) :=
  [.take i, .elect i term] ++ List.replicate 10 (.acquire i ())

/-- Leadership is lost and won again between the check and the proposal. -/
theorem fenced_write_commits_later :
    ∃ c : Cluster Unit Unit Unit,
      Run.Reachable Step (fun _ _ => True) (Cluster.init Unit Unit Unit) c ∧
      ∃ e ∈ c.commits, ∃ a, e.admission = some a ∧ a.term = 1 ∧ e.term = 3 := by
  have hrun : (Run.path Cluster.next (fun _ _ => True) (.init Unit Unit Unit)
      (acquires () 1 ++ List.replicate 3 (.write () ()) ++
        [.follow () 2, .elect () 3, .write () ()])).map Cluster.commits
      = some [⟨(), 3, some ⟨(), 1⟩, false⟩] := by decide +kernel
  obtain ⟨c, hreach, hcommits⟩ := Run.Reachable.exists_of_path hrun
  exact ⟨c, hreach, _, by rw [hcommits]; exact List.mem_singleton_self _, _, rfl, rfl, rfl⟩

/-- Two nodes hold the lock one after the other, and a write of each commits. -/
theorem fenced_write_commits_in_term_each :
    ∃ c : Cluster Bool Unit Unit,
      Run.Reachable Step Undisturbed (Cluster.init Bool Unit Unit) c ∧
      c.commits.map (·.node) = [true, false] ∧
      ∀ e ∈ c.commits, ∃ a, e.admission = some a ∧ e.term = a.term := by
  have hrun : (Run.path Cluster.next Undisturbed (.init Bool Unit Unit)
      (acquires true 1 ++ List.replicate 4 (.write true ()) ++ [.follow true 2] ++
        acquires false 2 ++ List.replicate 4 (.write false ()))).map Cluster.commits
      = some [⟨true, 1, some ⟨(), 1⟩, false⟩, ⟨false, 2, some ⟨(), 2⟩, false⟩] := by decide +kernel
  obtain ⟨c, hreach, hcommits⟩ := Run.Reachable.exists_of_path hrun
  refine ⟨c, hreach, by rw [hcommits]; rfl, fun e he => ?_⟩
  have hadmitted : ∀ e ∈ c.commits, e.admission.isSome = true := by
    rw [hcommits]
    decide
  obtain ⟨a, ha⟩ := Option.isSome_iff_exists.mp (hadmitted e he)
  exact ⟨a, ha, fenced_write_commits_in_term c hreach e he a ha⟩

end UbixVault.Raft.Lock
