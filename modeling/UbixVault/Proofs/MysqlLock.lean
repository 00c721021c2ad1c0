/-
Writes of an earlier acquisition never commit after a later one.

A write that was checked has the row locked, so the row keeps the generation it was
checked against.  An acquisition that has changed the row has it locked as well, so
that no write is checked, and no other acquisition goes on, before it is decided.
-/
import UbixVault.MysqlLock

namespace UbixVault.Mysql

variable {ι ω : Type} {holder : ι → Bytes} {s s' : State ι ω} {i j : ι} {w : ω} {r r' : Replica ω}
  {x y : Row}

/-! ### The history -/

def Record.IsAcquisition : Record ι → Prop
  | acquired _ _ => True
  | _ => False

/-- The order of two transactions: generations do not fall, and an acquisition raises them. -/
def Record.Before (a b : Record ι) : Prop := a.gen ≤ b.gen ∧ (b.IsAcquisition → a.gen < b.gen)

/-- What holds of the row and the history. -/
structure Ledger (row : Option Row) (history : List (Record ι)) (holder : ι → Bytes) : Prop where
  ordered : history.Pairwise Record.Before
  bounded : ∀ a ∈ history, ∃ x, row = some x ∧ a.gen ≤ x.generation
  zero : ∀ x, row = some x → x.generation = 0 → x.holder = []
  wrote : ∀ i gen late, .wrote i gen late ∈ history → .acquired i gen ∈ history ∨ holder i = []

section Ledger

variable {history : List (Record ι)}

/-- A row that keeps its generation. -/
theorem Ledger.keep (h : Ledger (some x) history holder) (hgen : y.generation = x.generation)
    (hzero : y.generation = 0 → y.holder = []) : Ledger (some y) history holder where
  ordered := h.ordered
  bounded a ha := by
    obtain ⟨_, hx, hle⟩ := h.bounded a ha
    cases hx
    exact ⟨y, rfl, hgen ▸ hle⟩
  zero z hz := by
    cases hz
    exact hzero
  wrote := h.wrote

/-- The row is created. -/
theorem Ledger.create {row : Option Row} (h : Ledger row history holder) :
    Ledger (some (row.getD ⟨[], 0, 0⟩)) history holder := by
  cases row with
  | some x => exact h
  | none =>
    refine ⟨h.ordered, fun a ha => ?_, fun z hz _ => ?_, h.wrote⟩
    · obtain ⟨_, hx, -⟩ := h.bounded a ha
      cases hx
    · cases hz
      rfl

/-- An acquisition commits. -/
theorem Ledger.acquire (h : Ledger (some x) history holder) (i : ι)
    (hgen : y.generation = x.generation + 1) :
    Ledger (some y) (history ++ [.acquired i y.generation]) holder where
  ordered := by
    refine List.pairwise_append.mpr ⟨h.ordered, List.pairwise_singleton _ _, fun a ha b hb => ?_⟩
    rw [List.mem_singleton] at hb
    subst hb
    obtain ⟨_, hx, hle⟩ := h.bounded a ha
    cases hx
    have hlt : a.gen < y.generation := by omega
    exact ⟨Nat.le_of_lt hlt, fun _ => hlt⟩
  bounded a ha := by
    refine ⟨y, rfl, ?_⟩
    rcases List.mem_append.mp ha with ha | ha
    · obtain ⟨_, hx, hle⟩ := h.bounded a ha
      cases hx
      omega
    · rw [List.mem_singleton] at ha
      subst ha
      exact Nat.le_refl _
  zero z hz hzero := by
    cases hz
    omega
  wrote j gen late hj := by
    rcases List.mem_append.mp hj with hj | hj
    · exact (h.wrote j gen late hj).imp_left fun hmem => List.mem_append_left _ hmem
    · simp at hj

/-- A write commits, with the generation of the row. -/
theorem Ledger.write (h : Ledger (some x) history holder) (i : ι) (late : Bool)
    (hi : .acquired i x.generation ∈ history ∨ holder i = []) :
    Ledger (some x) (history ++ [.wrote i x.generation late]) holder where
  ordered := by
    refine List.pairwise_append.mpr ⟨h.ordered, List.pairwise_singleton _ _, fun a ha b hb => ?_⟩
    rw [List.mem_singleton] at hb
    subst hb
    obtain ⟨_, hx, hle⟩ := h.bounded a ha
    cases hx
    exact ⟨hle, False.elim⟩
  bounded a ha := by
    rcases List.mem_append.mp ha with ha | ha
    · exact h.bounded a ha
    · rw [List.mem_singleton] at ha
      subst ha
      exact ⟨x, rfl, Nat.le_refl _⟩
  zero := h.zero
  wrote j gen late' hj := by
    rcases List.mem_append.mp hj with hj | hj
    · exact (h.wrote j gen late' hj).imp_left fun hmem => List.mem_append_left _ hmem
    · rw [List.mem_singleton] at hj
      cases hj
      exact hi.imp_left fun hmem => List.mem_append_left _ hmem

/-- Of two transactions of the history, one is before the other. -/
theorem eq_or_before (h : history.Pairwise Record.Before) {a b : Record ι}
    (ha : a ∈ history) (hb : b ∈ history) : a = b ∨ a.Before b ∨ b.Before a := by
  obtain ⟨k, hk, rfl⟩ := List.mem_iff_getElem.mp ha
  obtain ⟨l, hl, rfl⟩ := List.mem_iff_getElem.mp hb
  rw [List.pairwise_iff_getElem] at h
  rcases Nat.lt_trichotomy k l with hkl | rfl | hkl
  · exact .inr (.inl (h k l hk hl hkl))
  · exact .inl rfl
  · exact .inr (.inr (h l k hl hk hkl))

end Ledger

/-! ### Replicas -/

/-- A fence of the replica: of one of its acquisitions, or the one that nobody holds. -/
def Token (history : List (Record ι)) (i : ι) (r : Replica ω) (f : FenceToken) : Prop :=
  f.holder = r.holder ∧ (f.gen = 0 ∨ .acquired i f.gen ∈ history)

/-- An acquisition that is not decided yet. -/
def Pending (r : Replica ω) (x : Row) : Prop := r.acquiring = .select x ∨ r.acquiring = .commit x

/-- Nothing of the replica depends on the row or its locks. -/
def Quiet (r : Replica ω) : Prop :=
  (∀ x, ¬ Pending r x) ∧ ∀ w f late, r.write w ≠ .checked f late

/-- What holds of a replica. -/
structure Ok (s : State ι ω) (i : ι) (r : Replica ω) : Prop where
  fence : ∃ f, r.fence = some f ∧ Token s.history i r f
  held : ∀ h, r.held = some h → .acquired i h.gen ∈ s.history
  pending : ∀ y, Pending r y → s.exclusive = some i ∧ s.shared = [] ∧
    ∃ x, s.row = some x ∧ y.generation = x.generation + 1
  acquired : ∀ gen, r.acquiring = .hold gen ∨ r.acquiring = .keep gen → .acquired i gen ∈ s.history
  begun : ∀ w f late, r.write w = .begun f late → Token s.history i r f
  checked : ∀ w f late, r.write w = .checked f late →
    Token s.history i r f ∧ (i, w) ∈ s.shared ∧ ∃ x, s.row = some x ∧ x.Carries f

structure Sound (holder : ι → Bytes) (s : State ι ω) : Prop where
  names : ∀ i, (s.replica i).holder = holder i
  ledger : Ledger s.row s.history holder
  replica : ∀ i, Ok s i (s.replica i)

theorem Sound.init (holder : ι → Bytes) (ttl : ι → Nat) : Sound holder (State.init ω holder ttl) where
  names _ := rfl
  ledger := by constructor <;> simp [State.init]
  replica i := by constructor <;> simp [State.init, Pending, Token]

theorem Sound.quiet_of_unlocked (h : Sound holder s) (hlocks : s.Unlocked) (i : ι) : Quiet (s.replica i) := by
  refine ⟨fun x hx => ?_, fun w f late hw => ?_⟩
  · have hexcl := ((h.replica i).pending x hx).1
    rw [hlocks.1] at hexcl
    cases hexcl
  · have hmem := ((h.replica i).checked w f late hw).2.1
    rw [hlocks.2] at hmem
    cases hmem

/-- While an acquisition is pending, no other replica depends on the row. -/
theorem Sound.quiet_of_pending (h : Sound holder s) (hpending : Pending (s.replica i) x) (hj : j ≠ i) :
    Quiet (s.replica j) := by
  obtain ⟨hexcl, hshared, -⟩ := (h.replica i).pending x hpending
  refine ⟨fun y hy => ?_, fun w f late hw => ?_⟩
  · have hexcl' := ((h.replica j).pending y hy).1
    rw [hexcl] at hexcl'
    cases hexcl'
    exact hj rfl
  · have hmem := ((h.replica j).checked w f late hw).2.1
    rw [hshared] at hmem
    cases hmem

theorem Token.mono {history history' : List (Record ι)} {f : FenceToken} (h : Token history i r f)
    (hhistory : ∀ a ∈ history, a ∈ history') : Token history' i r f :=
  ⟨h.1, h.2.imp_right (hhistory _)⟩

/-- A replica that does not change, while the row or its locks may. -/
theorem Ok.frame (h : Ok s i r) (hhistory : ∀ a ∈ s.history, a ∈ s'.history)
    (hpending : ∀ y, Pending r y → s'.exclusive = some i ∧ s'.shared = [] ∧
      ∃ x, s'.row = some x ∧ y.generation = x.generation + 1)
    (hchecked : ∀ w f late, r.write w = .checked f late →
      (i, w) ∈ s'.shared ∧ ∃ x, s'.row = some x ∧ x.Carries f) : Ok s' i r where
  fence := by
    obtain ⟨f, hf, htoken⟩ := h.fence
    exact ⟨f, hf, htoken.mono hhistory⟩
  held x hx := hhistory _ (h.held x hx)
  pending := hpending
  acquired gen hgen := hhistory _ (h.acquired gen hgen)
  begun w f late hw := (h.begun w f late hw).mono hhistory
  checked w f late hw := ⟨(h.checked w f late hw).1.mono hhistory, hchecked w f late hw⟩

theorem Ok.of_quiet (h : Ok s i r) (hquiet : Quiet r) (hhistory : ∀ a ∈ s.history, a ∈ s'.history) :
    Ok s' i r :=
  h.frame hhistory (fun y hy => absurd hy (hquiet.1 y)) fun w f late hw => absurd hw (hquiet.2 w f late)

theorem Ok.of_same (h : Ok s i r) (hrow : s'.row = s.row) (hexcl : s'.exclusive = s.exclusive)
    (hshared : s'.shared = s.shared) (hhistory : s'.history = s.history) : Ok s' i r :=
  h.frame (fun a ha => hhistory ▸ ha) (by rw [hexcl, hshared, hrow]; exact h.pending) fun w f late hw => by
    rw [hshared, hrow]
    exact (h.checked w f late hw).2

/-- Another stage of `Acquire`, with no bearing on the row. -/
theorem Ok.setAcquiring (h : Ok s i r) {a : Acquiring}
    (ha : ∀ y, a ≠ .select y ∧ a ≠ .commit y)
    (hgen : ∀ gen, a = .hold gen ∨ a = .keep gen → .acquired i gen ∈ s.history) :
    Ok s i { r with acquiring := a } where
  fence := h.fence
  held := h.held
  pending y hy := by
    rcases hy with hy | hy
    · exact absurd hy (ha y).1
    · exact absurd hy (ha y).2
  acquired := hgen
  begun := h.begun
  checked := h.checked

/-- When its acquisition is decided, a replica depends on the row no more. -/
theorem Sound.settled (h : Sound holder s) (hpending : Pending (s.replica i) y)
    (hhistory : ∀ a ∈ s.history, a ∈ s'.history) :
    Ok s' i { s.replica i with acquiring := .idle } := by
  obtain ⟨-, hshared, -⟩ := (h.replica i).pending y hpending
  have hidle := (h.replica i).setAcquiring (a := .idle) (fun _ => ⟨nofun, nofun⟩) (by nofun)
  refine hidle.of_quiet ⟨fun x hx => ?_, fun w f late hw => ?_⟩ hhistory
  · rcases hx with hx | hx
    · cases hx
    · cases hx
  · have hmem := (hidle.checked w f late hw).2.1
    rw [hshared] at hmem
    cases hmem

/-- A write moves on. -/
theorem Ok.setWrite [DecidableEq ω] (h : Ok s i r) {z : Write}
    (hbegun : ∀ f late, z = .begun f late → Token s.history i r f)
    (hchecked : ∀ f late, z = .checked f late → Token s.history i r f ∧ (i, w) ∈ s.shared ∧
      ∃ x, s.row = some x ∧ x.Carries f) :
    Ok s i { r with write := Function.update r.write w z } where
  fence := h.fence
  held := h.held
  pending := h.pending
  acquired := h.acquired
  begun w' f late hw' := by
    by_cases hw : w' = w
    · subst hw
      exact hbegun f late (by simpa using hw')
    · exact h.begun w' f late (by simpa [hw] using hw')
  checked w' f late hw' := by
    by_cases hw : w' = w
    · subst hw
      exact hchecked f late (by simpa using hw')
    · exact h.checked w' f late (by simpa [hw] using hw')

/-! ### Steps -/

variable [DecidableEq ι]

theorem replica_set_self (s : State ι ω) (i : ι) (r : Replica ω) : (s.set i r).replica i = r := by
  simp [State.set]

theorem replica_set_of_ne (s : State ι ω) {i j : ι} (hj : j ≠ i) (r : Replica ω) :
    (s.set i r).replica j = s.replica j := by simp [State.set, hj]

/-- One replica changes, and what the others depend on does not, or they depend on nothing. -/
theorem Sound.set (h : Sound holder s) {row : Option Row} {exclusive : Option ι} {shared : List (ι × ω)}
    {history : List (Record ι)} (hholder : r.holder = (s.replica i).holder)
    (hledger : Ledger row history holder)
    (hi : Ok { s.set i r with row, exclusive, shared, history } i r)
    (hothers : ∀ j, j ≠ i → Ok { s.set i r with row, exclusive, shared, history } j (s.replica j)) :
    Sound holder { s.set i r with row, exclusive, shared, history } where
  names j := by
    dsimp only
    by_cases hj : j = i
    · subst hj
      rw [replica_set_self, hholder, h.names]
    · rw [replica_set_of_ne s hj, h.names]
  ledger := hledger
  replica j := by
    dsimp only
    by_cases hj : j = i
    · subst hj
      rw [replica_set_self]
      exact hi
    · rw [replica_set_of_ne s hj]
      exact hothers j hj

/-- One replica changes by itself. -/
theorem Sound.set_same (h : Sound holder s) (hholder : r.holder = (s.replica i).holder) (hi : Ok s i r) :
    Sound holder (s.set i r) :=
  h.set hholder h.ledger (hi.of_same rfl rfl rfl rfl) fun j _ => (h.replica j).of_same rfl rfl rfl rfl

theorem Sound.acquire (h : Sound holder s) (hstep : AcquireStep s i s') : Sound holder s' := by
  have hi := h.replica i
  have hgrow : ∀ {b : Record ι}, ∀ a ∈ s.history, a ∈ s.history ++ [b] := fun _ ha =>
    List.mem_append_left _ ha
  cases hstep with
  | start hidle hlost =>
    have hok : Ok s i { s.replica i with held := none, released := false } :=
      ⟨hi.fence, by nofun, hi.pending, hi.acquired, hi.begun, hi.checked⟩
    exact h.set_same rfl (hok.setAcquiring (fun _ => ⟨nofun, nofun⟩) (by nofun))
  | holding x hidle hheld hlost =>
    exact h.set_same rfl ⟨hi.fence, hi.held, hi.pending, hi.acquired, hi.begun, hi.checked⟩
  | ensureRow hstage =>
    -- A row that anyone depends on is there already.
    have hkeep : ∀ j r, Ok s j r → Ok { s.setAcquiring i .update with
        row := some (s.row.getD ⟨[], 0, 0⟩) } j r := by
      intro j r hr
      refine hr.frame (fun _ ha => ha) (fun y hy => ?_) fun w f late hw => ?_
      · obtain ⟨hexcl, hshared, x, hx, hgen⟩ := hr.pending y hy
        exact ⟨hexcl, hshared, x, by rw [hx, Option.getD_some], hgen⟩
      · obtain ⟨-, hmem, x, hx, hcarries⟩ := hr.checked w f late hw
        exact ⟨hmem, x, by rw [hx, Option.getD_some], hcarries⟩
    exact h.set rfl h.ledger.create (hkeep i _ (hi.setAcquiring (fun _ => ⟨nofun, nofun⟩) (by nofun)))
      fun j _ => hkeep j _ (h.replica j)
  | update x hstage hlocks hrow hfree =>
    refine h.set rfl h.ledger ⟨hi.fence, hi.held, ?_, by nofun, hi.begun, ?_⟩ fun j hj =>
      (h.replica j).of_quiet (h.quiet_of_unlocked hlocks j) fun _ ha => ha
    · rintro y (hy | hy)
      · cases hy
        exact ⟨rfl, hlocks.2, x, hrow, rfl⟩
      · cases hy
    · exact fun w f late hw => absurd hw ((h.quiet_of_unlocked hlocks i).2 w f late)
  | retry hstage => exact h.set_same rfl (hi.setAcquiring (fun _ => ⟨nofun, nofun⟩) (by nofun))
  | select y hstage =>
    refine h.set_same rfl ⟨hi.fence, hi.held, ?_, by nofun, hi.begun, hi.checked⟩
    rintro z (hz | hz)
    · cases hz
    · cases hz
      exact hi.pending y (.inl hstage)
  | commit y hstage =>
    obtain ⟨-, -, x, hx, hgen⟩ := hi.pending y (.inr hstage)
    have hledger := h.ledger
    rw [hx] at hledger
    refine h.set rfl (hledger.acquire i hgen) ((h.settled (.inr hstage) hgrow).setAcquiring
      (fun _ => ⟨nofun, nofun⟩) ?_) fun j hj =>
        (h.replica j).of_quiet (h.quiet_of_pending (.inr hstage) hj) hgrow
    rintro gen (hgen' | hgen')
    · cases hgen'
      exact List.mem_append_right _ (List.mem_singleton_self _)
    · cases hgen'
  | unknown y hstage =>
    obtain ⟨-, -, x, hx, hgen⟩ := hi.pending y (.inr hstage)
    have hledger := h.ledger
    rw [hx] at hledger
    exact h.set rfl (hledger.acquire i hgen) ((h.settled (.inr hstage) hgrow).setAcquiring
      (fun _ => ⟨nofun, nofun⟩) (by nofun)) fun j hj =>
        (h.replica j).of_quiet (h.quiet_of_pending (.inr hstage) hj) hgrow
  | rollback y hstage =>
    have hidle : Ok { s.setAcquiring i .ensureRow with exclusive := none } i
        { s.replica i with acquiring := .idle } := h.settled hstage fun _ ha => ha
    exact h.set rfl h.ledger (hidle.setAcquiring (fun _ => ⟨nofun, nofun⟩) (by nofun)) fun j hj =>
      (h.replica j).of_quiet (h.quiet_of_pending hstage hj) fun _ ha => ha
  | hold gen hstage =>
    have hgen := hi.acquired gen (.inl hstage)
    have hok : Ok s i { s.replica i with fence := some ⟨(s.replica i).holder, gen⟩ } :=
      ⟨⟨_, rfl, rfl, .inr hgen⟩, hi.held, hi.pending, hi.acquired, hi.begun, hi.checked⟩
    refine h.set_same rfl (hok.setAcquiring (fun _ => ⟨nofun, nofun⟩) ?_)
    rintro gen' (hgen' | hgen')
    · cases hgen'
    · cases hgen'
      exact hgen
  | keep gen hstage =>
    have hgen := hi.acquired gen (.inr hstage)
    have hok : Ok s i { s.replica i with held := some ⟨gen, false⟩ } :=
      ⟨hi.fence, fun x hx => by cases hx; exact hgen, hi.pending, hi.acquired, hi.begun, hi.checked⟩
    exact h.set_same rfl (hok.setAcquiring (fun _ => ⟨nofun, nofun⟩) (by nofun))
  | giveUp hstage => exact h.set_same rfl (hi.setAcquiring (fun _ => ⟨nofun, nofun⟩) (by nofun))

theorem Sound.renew (h : Sound holder s) (hstep : RenewStep s i s') : Sound holder s' := by
  have hi := h.replica i
  cases hstep with
  | extend x row hheld hlost hlocks hrow hcarries =>
    have hledger := h.ledger
    rw [hrow] at hledger
    exact ⟨h.names, hledger.keep rfl fun hzero => h.ledger.zero row hrow hzero, fun j =>
      (h.replica j).of_quiet (h.quiet_of_unlocked hlocks j) fun _ ha => ha⟩
  | lose x hheld hlost =>
    refine h.set_same rfl ⟨hi.fence, fun y hy => ?_, hi.pending, hi.acquired, hi.begun, hi.checked⟩
    cases hy
    exact hi.held x hheld

theorem Sound.release (h : Sound holder s) {o : Outcome} (hstep : ReleaseStep s i s' o) :
    Sound holder s' := by
  have hi := h.replica i
  cases hstep with
  | start x hidle hheld =>
    exact h.set_same rfl ⟨hi.fence, by nofun, hi.pending, hi.acquired, hi.begun, hi.checked⟩
  | nothing hidle hheld =>
    exact h.set_same rfl ⟨hi.fence, hi.held, hi.pending, hi.acquired, hi.begun, hi.checked⟩
  | update gen row hstage hlocks hrow hcarries =>
    have hledger := h.ledger
    rw [hrow] at hledger
    have hquiet := h.quiet_of_unlocked hlocks
    have hok : Ok s i { s.replica i with releasing := .idle, released := true } :=
      ⟨hi.fence, hi.held, hi.pending, hi.acquired, hi.begun, hi.checked⟩
    exact h.set rfl (hledger.keep rfl fun _ => rfl) (hok.of_quiet (hquiet i) fun _ ha => ha) fun j _ =>
      (h.replica j).of_quiet (hquiet j) fun _ ha => ha
  | miss gen hstage =>
    exact h.set_same rfl ⟨hi.fence, hi.held, hi.pending, hi.acquired, hi.begun, hi.checked⟩

variable [DecidableEq ω]

/-- A transaction that has a shared lock gives it up. -/
theorem Sound.unlock (h : Sound holder s) {f : FenceToken} {late : Bool}
    (hw : (s.replica i).write w = .checked f late) {history : List (Record ι)}
    (hledger : Ledger s.row history holder)
    (hhistory : ∀ a ∈ s.history, a ∈ history) :
    Sound holder { s.setWrite i w .idle with shared := s.shared.erase (i, w), history } := by
  have hi := h.replica i
  obtain ⟨-, hmem, -⟩ := hi.checked w f late hw
  have hpending : ∀ j y, ¬ Pending (s.replica j) y := by
    intro j y hy
    have hshared := ((h.replica j).pending y hy).2.1
    rw [hshared] at hmem
    cases hmem
  refine h.set rfl hledger ?_ fun j hj => ?_
  · refine ((hi.setWrite (w := w) (z := .idle) (by nofun) (by nofun)).frame hhistory
      (fun y hy => absurd hy (hpending i y)) fun w' f' late' hw' => ?_)
    by_cases hne : w' = w
    · subst hne
      simp at hw'
    · obtain ⟨-, hmem', hrow⟩ := hi.checked w' f' late' (by simpa [hne] using hw')
      exact ⟨(List.mem_erase_of_ne (by simp [hne])).mpr hmem', hrow⟩
  · refine (h.replica j).frame hhistory (fun y hy => absurd hy (hpending j y)) fun w' f' late' hw' => ?_
    obtain ⟨-, hmem', hrow⟩ := (h.replica j).checked w' f' late' hw'
    exact ⟨(List.mem_erase_of_ne (by simp [hj])).mpr hmem', hrow⟩

theorem Sound.write (h : Sound holder s) (hstep : WriteStep s i w s') : Sound holder s' := by
  have hi := h.replica i
  cases hstep with
  | start f hidle hfence =>
    refine h.set_same rfl (hi.setWrite (fun f' late hf' => ?_) (by nofun))
    cases hf'
    obtain ⟨f', hf', htoken⟩ := hi.fence
    rw [hfence] at hf'
    cases hf'
    exact htoken
  | plain hidle hfence =>
    obtain ⟨f, hf, -⟩ := hi.fence
    rw [hfence] at hf
    cases hf
  | check f late x hw hlock hrow hcarries =>
    have hpending : ∀ j y, ¬ Pending (s.replica j) y := by
      intro j y hy
      have hexcl := ((h.replica j).pending y hy).1
      rw [hlock] at hexcl
      cases hexcl
    have hkeep : ∀ j, Ok { s.setWrite i w (.checked f late) with shared := (i, w) :: s.shared } j
        (s.replica j) := fun j =>
      (h.replica j).frame (fun _ ha => ha) (fun y hy => absurd hy (hpending j y)) fun w' f' late' hw' =>
        ⟨List.mem_cons_of_mem _ ((h.replica j).checked w' f' late' hw').2.1,
          ((h.replica j).checked w' f' late' hw').2.2⟩
    refine h.set rfl h.ledger ((hkeep i).setWrite (by nofun) fun f' late' hf' => ?_) fun j _ => hkeep j
    cases hf'
    exact ⟨hi.begun w f late hw, List.mem_cons_self, x, hrow, hcarries⟩
  | fenced f late hw hrow => exact h.set_same rfl (hi.setWrite (by nofun) (by nofun))
  | commit f late hw =>
    obtain ⟨⟨hholder, htoken⟩, -, x, hx, hcarries⟩ := hi.checked w f late hw
    have hledger := h.ledger
    rw [hx] at hledger
    have hwrote := hledger.write i late (by
      rcases htoken with hzero | hmem
      · -- Nobody holds generation zero.
        refine .inr ?_
        rw [← h.names, ← hholder, ← hcarries.1]
        exact h.ledger.zero x hx (hcarries.2.trans hzero)
      · rw [hcarries.2]
        exact .inl hmem)
    rw [hcarries.2, ← hx] at hwrote
    exact h.unlock hw hwrote fun _ ha => List.mem_append_left _ ha
  | fail f late hw => exact h.set_same rfl (hi.setWrite (by nofun) (by nofun))
  | rollback f late hw => exact h.unlock hw h.ledger fun _ ha => ha

/-- **Every step keeps the invariant.** -/
theorem Sound.step (h : Sound holder s) {e : Event ι ω} (hstep : Step s e s') : Sound holder s' := by
  cases hstep with
  | tick => exact ⟨h.names, h.ledger, fun j => (h.replica j).of_same rfl rfl rfl rfl⟩
  | acquire _ i hs => exact h.acquire hs
  | renew _ i hs => exact h.renew hs
  | release _ i o hs => exact h.release hs
  | write _ i w hs => exact h.write hs

/--
**Fencing.**  In every run: of two transactions, the later one has no smaller generation,
and a larger one if it is an acquisition, so that a write of an earlier acquisition never
commits after a later acquisition; each generation is acquired by one replica, which is
the one that holds it; and a write carries a generation that its own replica has
acquired, unless the replica goes by the empty name, which stands for nobody.
-/
theorem generations_in_order (holder : ι → Bytes) (ttl : ι → Nat) (s : State ι ω)
    (hrun : Run.Reachable Step (fun _ _ => True) (State.init ω holder ttl) s) :
    s.history.Pairwise Record.Before ∧
    (∀ i j gen, .acquired i gen ∈ s.history → .acquired j gen ∈ s.history → i = j) ∧
    (∀ i h, (s.replica i).held = some h → .acquired i h.gen ∈ s.history) ∧
    ∀ i gen late, .wrote i gen late ∈ s.history → .acquired i gen ∈ s.history ∨ holder i = [] := by
  have h : Sound holder s := hrun.invariant (Sound.init holder ttl) fun _ _ _ h _ hstep => h.step hstep
  refine ⟨h.ledger.ordered, fun i j gen hi hj => ?_, fun i x hx => (h.replica i).held x hx,
    h.ledger.wrote⟩
  rcases eq_or_before h.ledger.ordered hi hj with heq | hbefore | hbefore
  · cases heq
    rfl
  · exact absurd (hbefore.2 trivial) (Nat.lt_irrefl gen)
  · exact absurd (hbefore.2 trivial) (Nat.lt_irrefl gen)

/-! ### Runs that can be followed -/

instance decidableCarries (r : Row) (f : FenceToken) : Decidable (r.Carries f) :=
  inferInstanceAs (Decidable (_ ∧ _))

instance decidableUnlocked (s : State ι ω) : Decidable s.Unlocked :=
  inferInstanceAs (Decidable (_ ∧ _))

/-- `Acquire` goes on; no statement of it fails. -/
def State.acquireOn (s : State ι ω) (i : ι) : Option {s' // AcquireStep s i s'} :=
  match h : (s.replica i).acquiring with
  | .idle =>
    match hheld : (s.replica i).held with
    | none => some ⟨_, .start h fun _ hx => nomatch hheld.symm.trans hx⟩
    | some x =>
      if hlost : x.lost = true then
        some ⟨_, .start h fun _ hx => Option.some.inj (hheld.symm.trans hx) ▸ hlost⟩
      else some ⟨_, .holding x h hheld (eq_false_of_ne_true hlost)⟩
  | .ensureRow => some ⟨_, .ensureRow h⟩
  | .update =>
    match hrow : s.row with
    | none => none
    | some r =>
      if hfree : s.Unlocked ∧ (r.holder = [] ∨ r.expiresAt < s.now) then
        some ⟨_, .update r h hfree.1 hrow hfree.2⟩
      else some ⟨_, .retry h⟩
  | .select r => some ⟨_, .select r h⟩
  | .commit r => some ⟨_, .commit r h⟩
  | .hold gen => some ⟨_, .hold gen h⟩
  | .keep gen => some ⟨_, .keep gen h⟩

/-- `Release` goes on, with this outcome. -/
def State.releaseOn (s : State ι ω) (i : ι) (o : Outcome) : Option {s' // ReleaseStep s i s' o} :=
  match o, h : (s.replica i).releasing with
  | .goesOn, .idle =>
    match hheld : (s.replica i).held with
    | some x => some ⟨_, .start x h hheld⟩
    | none => none
  | .cleared, .update gen =>
    match hrow : s.row with
    | some r =>
      if hown : s.Unlocked ∧ r.Carries ⟨(s.replica i).holder, gen⟩ then
        some ⟨_, .update gen r h hown.1 hrow hown.2⟩
      else none
    | none => none
  | .unchanged, .update gen => some ⟨_, .miss gen h⟩
  | _, _ => none

/-- A write of a replica that has taken a handle goes on. -/
def State.writeOn (s : State ι ω) (i : ι) (w : ω) : Option {s' // WriteStep s i w s'} :=
  match h : (s.replica i).write w with
  | .idle =>
    match hfence : (s.replica i).fence with
    | some f => some ⟨_, .start f h hfence⟩
    | none => none
  | .begun f late =>
    match hrow : s.row with
    | some r =>
      if hcarries : r.Carries f then
        if hlock : s.exclusive = none then some ⟨_, .check f late r h hlock hrow hcarries⟩ else none
      else some ⟨_, .fenced f late h fun _ hr => Option.some.inj (hrow.symm.trans hr) ▸ hcarries⟩
    | none => none
  | .checked f late => some ⟨_, .commit f late h⟩

/-- What an event leads to, if it is possible; renewals are left out. -/
def State.next (s : State ι ω) : ∀ e : Event ι ω, Option {s' // Step s e s'}
  | .tick => some ⟨_, .tick s⟩
  | .acquire i => (s.acquireOn i).map fun ⟨s', h⟩ => ⟨s', .acquire s s' i h⟩
  | .renew _ => none
  | .release i o => (s.releaseOn i o).map fun ⟨s', h⟩ => ⟨s', .release s s' i o h⟩
  | .write i w => (s.writeOn i w).map fun ⟨s', h⟩ => ⟨s', .write s s' i w h⟩

instance decidableSequential (s : State ι ω) : DecidablePred (Sequential s)
  | .acquire i => inferInstanceAs (Decidable ((s.replica i).releasing = .idle))
  | .release i _ => inferInstanceAs (Decidable ((s.replica i).acquiring = .idle))
  | .tick | .renew _ | .write _ _ => .isTrue trivial

/-- `Acquire` from its start to its end. -/
def acquires (i : ι) : List (Event ι Unit) := List.replicate 7 (.acquire i)

/-- A write from its start to its end. -/
def writes (i : ι) : List (Event ι Unit) := List.replicate 3 (.write i ())

/-- Replicas whose lease lasts for one tick. -/
def named : Bool → Bytes
  | true => [7]
  | false => [8]

/-- The lease of a replica runs out while it writes, and the other acquires the lock. -/
theorem generations_in_order_both :
    ∃ s : State Bool Unit, Run.Reachable Step (fun _ _ => True) (State.init Unit named fun _ => 1) s ∧
      s.history = [.acquired true 1, .wrote true 1 false, .acquired false 2, .wrote false 2 false] ∧
      s.history.Pairwise Record.Before ∧
      (s.replica true).write () = .idle ∧ (s.replica true).held.map HeldLock.gen = some 1 := by
  have hrun : (Run.path State.next (fun _ _ => True) (State.init Unit named fun _ => 1)
      (acquires true ++ writes true ++ [.write true (), .tick, .tick] ++ acquires false ++
        [.write true ()] ++ writes false)).map
          (fun s => (s.history, (s.replica true).write (), (s.replica true).held.map HeldLock.gen))
      = some ([.acquired true 1, .wrote true 1 false, .acquired false 2, .wrote false 2 false], .idle,
          some 1) := by decide +kernel
  obtain ⟨s, hreach, hs⟩ := Run.Reachable.exists_of_path hrun
  simp only [Prod.mk.injEq] at hs
  obtain ⟨hhistory, hwrite, hheld⟩ := hs
  exact ⟨s, hreach, hhistory, (generations_in_order named (fun _ => 1) s hreach).1, hwrite, hheld⟩

end UbixVault.Mysql
