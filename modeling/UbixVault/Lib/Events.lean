/-
What happens in a schedule, as a list of events.

An event is an operation that some thread performed, with the reply it got.  Two facts
are known of the events of a run: those of one thread are a script that its program
follows, and all of them together are a script to which the handler replies.  An
argument about who did what before whom is then an argument about one list.

The second part is a lock that threads take around what they do.  Parts of a run that
are guarded by the lock do not overlap.
-/
import UbixVault.Lib.Interleave

namespace Program

variable {Op : Type} {Res : Op → Type} {α β σ ι : Type}

/-! ### Scripts, taken apart -/

namespace Follows

variable {p : Program Op Res α} {f : α → Program Op Res β} {q : Program Op Res β}
  {k l : List ((op : Op) × Res op)}

theorem of_ret {a : α} {p : Program Op Res α} (hp : Follows (.ret a) k p) : k = [] ∧ p = .ret a := by
  cases k with
  | nil => exact ⟨rfl, hp.symm⟩
  | cons step rest =>
    obtain ⟨next, hstep, -⟩ := hp
    cases hstep

/-- A program that performs something is at its start, or it performed that. -/
theorem of_step {op : Op} {next : Res op → Program Op Res α} {p : Program Op Res α}
    (hp : Follows (.step op next) k p) :
    k = [] ∧ p = .step op next ∨ ∃ r rest, k = ⟨op, r⟩ :: rest ∧ Follows (next r) rest p := by
  cases k with
  | nil => exact .inl ⟨rfl, hp.symm⟩
  | cons step rest =>
    obtain ⟨next', hstep, hrest⟩ := hp
    obtain ⟨op', r⟩ := step
    cases hstep
    exact .inr ⟨r, rest, rfl, hrest⟩

/-- A sequence is in its first part, or has left it. -/
theorem of_bind (hp : Follows (p >>= f) k q) :
    (∃ p', Follows p k p' ∧ q = p' >>= f) ∨
      ∃ a k₁ k₂, k = k₁ ++ k₂ ∧ Follows p k₁ (.ret a) ∧ Follows (f a) k₂ q := by
  induction p generalizing k with
  | ret a => exact .inr ⟨a, [], k, rfl, rfl, hp⟩
  | step op next ih =>
    rcases of_step hp with ⟨rfl, rfl⟩ | ⟨r, rest, rfl, hrest⟩
    · exact .inl ⟨_, rfl, rfl⟩
    · rcases ih r hrest with ⟨p', hp', rfl⟩ | ⟨a, k₁, k₂, rfl, hfirst, hsecond⟩
      · exact .inl ⟨p', ⟨next, rfl, hp'⟩, rfl⟩
      · exact .inr ⟨a, ⟨op, r⟩ :: k₁, k₂, rfl, ⟨next, rfl, hfirst⟩, hsecond⟩

/-- A sequence that has returned has left its first part. -/
theorem of_bind_ret {b : β} (hp : Follows (p >>= f) k (.ret b)) :
    ∃ a k₁ k₂, k = k₁ ++ k₂ ∧ Follows p k₁ (.ret a) ∧ Follows (f a) k₂ (.ret b) := by
  rcases of_bind hp with ⟨p', hp', heq⟩ | hleft
  · cases p' with
    | ret a => exact ⟨a, k, [], (List.append_nil k).symm, hp', heq.symm⟩
    | step op next => cases heq
  · exact hleft

variable {ε : Type}

theorem of_perform {op : Op} {r : Res op} (hp : Follows (Program.perform op) k (.ret r)) : k = [⟨op, r⟩] := by
  rcases of_step hp with ⟨-, heq⟩ | ⟨r', rest, rfl, hrest⟩
  · cases heq
  · obtain ⟨rfl, heq⟩ := of_ret hrest
    cases heq
    rfl

theorem of_lift_perform {op : Op} {r : Res op}
    (hp : Follows (ExceptT.lift (Program.perform op) : ExceptT ε (Program Op Res) (Res op)).run k
      (.ret (.ok r))) :
    k = [⟨op, r⟩] := by
  rcases of_step hp with ⟨-, heq⟩ | ⟨r', rest, rfl, hrest⟩
  · cases heq
  · obtain ⟨rfl, heq⟩ := of_ret hrest
    cases heq
    rfl

/-- A sequence that succeeded, with its parts. -/
theorem of_bindExcept_ok {x : ExceptT ε (Program Op Res) α} {f : α → ExceptT ε (Program Op Res) β} {b : β}
    (hp : Follows (x >>= f).run k (.ret (.ok b))) :
    ∃ a k₁ k₂, k = k₁ ++ k₂ ∧ Follows x.run k₁ (.ret (.ok a)) ∧ Follows (f a).run k₂ (.ret (.ok b)) := by
  rw [ExceptT.run_bind] at hp
  obtain ⟨r, k₁, k₂, rfl, hfirst, hsecond⟩ := of_bind_ret hp
  cases r with
  | ok a => exact ⟨a, k₁, k₂, rfl, hfirst, hsecond⟩
  | error e =>
    obtain ⟨-, heq⟩ := of_ret hsecond
    cases heq

theorem of_adapt_ok {x : ExceptT ε (Program Op Res) α} {g : ε → ε} {a : α}
    (hp : Follows (ExceptT.adapt g x : ExceptT ε (Program Op Res) α).run k (.ret (.ok a))) :
    Follows x.run k (.ret (.ok a)) := by
  rw [run_adapt] at hp
  obtain ⟨r, k₁, k₂, rfl, hfirst, hsecond⟩ := of_bind_ret hp
  obtain ⟨rfl, heq⟩ := of_ret hsecond
  cases r with
  | ok b =>
    cases heq
    rwa [List.append_nil]
  | error e => cases heq

end Follows

/-- Every operation that the program can come to is in `A`. -/
def Within (A : Op → Prop) : Program Op Res α → Prop
  | .ret _ => True
  | .step op next => A op ∧ ∀ r, Within A (next r)

namespace Within

variable {A : Op → Prop} {p : Program Op Res α} {ε : Type}

theorem bind {f : α → Program Op Res β} (hp : Within A p) (hf : ∀ a, Within A (f a)) :
    Within A (p >>= f) := by
  induction p with
  | ret a => exact hf a
  | step op next ih => exact ⟨hp.1, fun r => ih r (hp.2 r)⟩

theorem bindExcept {x : ExceptT ε (Program Op Res) α} {f : α → ExceptT ε (Program Op Res) β}
    (hx : Within A x.run) (hf : ∀ a, Within A (f a).run) : Within A (x >>= f).run := by
  rw [ExceptT.run_bind]
  refine hx.bind fun r => ?_
  cases r with
  | ok a => exact hf a
  | error e => trivial

theorem perform {op : Op} (hop : A op) : Within A (Program.perform op : Program Op Res (Res op)) :=
  ⟨hop, fun _ => trivial⟩

theorem adapt {x : ExceptT ε (Program Op Res) α} (g : ε → ε) (hx : Within A x.run) :
    Within A (ExceptT.adapt g x : ExceptT ε (Program Op Res) α).run := by
  rw [run_adapt]
  exact hx.bind fun _ => trivial

/-- A script has only operations that the program can come to. -/
theorem of_follows {k : List ((op : Op) × Res op)} {q : Program Op Res α} (hp : Within A p)
    (hk : Follows p k q) : ∀ e ∈ k, A e.1 := by
  induction k generalizing p with
  | nil => simp
  | cons step rest ih =>
    obtain ⟨next, rfl, hrest⟩ := hk
    rintro e (_ | ⟨_, he⟩)
    · exact hp.1
    · exact ih (hp.2 _) hrest e he

theorem translate {Op' : Type} {Res' : Op' → Type} {B : Op' → Prop}
    {t : (op : Op) → Program Op' Res' (Res op)}
    (hp : Within A p) (ht : ∀ op, A op → Within B (t op)) : Within B (p.translate t) := by
  induction p with
  | ret a => trivial
  | step op next ih => exact (ht op hp.1).bind fun r => ih r (hp.2 r)

theorem along {h : Handler Op Res σ} {G : σ → Op → Prop} (hp : Within A p)
    (hA : ∀ s op, A op → G s op) (s : σ) :
    Along h G p s := by
  induction p generalizing s with
  | ret a => trivial
  | step op next ih => exact ⟨hA s op hp.1, ih _ (hp.2 _) _⟩

end Within

/-- An operation that the first part cannot come to is performed by the second. -/
theorem Follows.of_mem_bindExcept {ε : Type} {x : ExceptT ε (Program Op Res) α}
    {f : α → ExceptT ε (Program Op Res) β} {k : List ((op : Op) × Res op)} {q : Program Op Res (Except ε β)}
    {A : Op → Prop} {e : (op : Op) × Res op} (hk : Follows (x >>= f).run k q) (hx : Within A x.run)
    (he : e ∈ k) (hA : ¬ A e.1) :
    ∃ a k₁ k₂, k = k₁ ++ k₂ ∧ e ∈ k₂ ∧ Follows x.run k₁ (.ret (.ok a)) ∧ Follows (f a).run k₂ q := by
  rw [ExceptT.run_bind] at hk
  rcases Follows.of_bind hk with ⟨p', hp', -⟩ | ⟨r, k₁, k₂, rfl, hfirst, hsecond⟩
  · exact absurd (hx.of_follows hp' e he) hA
  · cases r with
    | ok a =>
      refine ⟨a, k₁, k₂, rfl, (List.mem_append.mp he).resolve_left fun hmem => ?_, hfirst, hsecond⟩
      exact hA (hx.of_follows hfirst e hmem)
    | error err =>
      obtain ⟨rfl, -⟩ := Follows.of_ret hsecond
      rw [List.append_nil] at he
      exact absurd (hx.of_follows hfirst e he) hA

namespace Replies

variable {h : Handler Op Res σ} {allowed : σ → Op → Prop}

theorem of_append {k l : List ((op : Op) × Res op)} {s s'' : σ} (hkl : Replies h allowed s (k ++ l) s'') :
    ∃ s', Replies h allowed s k s' ∧ Replies h allowed s' l s'' := by
  induction k generalizing s with
  | nil => exact ⟨s, rfl, hkl⟩
  | cons step rest ih =>
    obtain ⟨hallowed, s₁, hanswer, hrest⟩ := hkl
    obtain ⟨s', hk, hl⟩ := ih hrest
    exact ⟨s', ⟨hallowed, s₁, hanswer, hk⟩, hl⟩

/-- What every answered operation of a script preserves, the script preserves. -/
theorem preserves {I : σ → Prop} {k : List ((op : Op) × Res op)} {s s' : σ} (hk : Replies h allowed s k s')
    (hstep : ∀ op r, ⟨op, r⟩ ∈ k → ∀ s s', h s op = (r, s') → I s → I s') (hs : I s) : I s' := by
  induction k generalizing s with
  | nil => exact hk ▸ hs
  | cons step rest ih =>
    obtain ⟨-, s₁, hanswer, hrest⟩ := hk
    exact ih hrest (fun op r hmem => hstep op r (List.mem_cons_of_mem _ hmem))
      (hstep _ _ List.mem_cons_self s s₁ hanswer hs)

end Replies

/-! ### Events -/

section Own

variable [DecidableEq ι]

/-- What a thread performed. -/
def own (i : ι) (events : List (ι × (op : Op) × Res op)) : List ((op : Op) × Res op) :=
  (events.filter (·.1 = i)).map Prod.snd

variable {i j : ι} {k l : List (ι × (op : Op) × Res op)} {e : (op : Op) × Res op}

@[simp] theorem own_nil : own i ([] : List (ι × (op : Op) × Res op)) = [] := rfl

@[simp] theorem own_append : own i (k ++ l) = own i k ++ own i l := by
  simp [own]

@[simp] theorem own_cons_self : own i ((i, e) :: l) = e :: own i l := by
  simp [own]

theorem own_cons_of_ne (hne : j ≠ i) : own i ((j, e) :: l) = own i l := by
  simp [own, hne]

@[simp] theorem mem_own : e ∈ own i l ↔ (i, e) ∈ l := by
  simp [own]

/-- An event of a thread, where it happened. -/
theorem exists_split_of_own (k₁ : List ((op : Op) × Res op)) {k₂ : List ((op : Op) × Res op)}
    (h : own i l = k₁ ++ e :: k₂) :
    ∃ l₁ l₂, l = l₁ ++ (i, e) :: l₂ ∧ own i l₁ = k₁ ∧ own i l₂ = k₂ := by
  induction l generalizing k₁ with
  | nil => simp at h
  | cons x rest ih =>
    obtain ⟨j, e'⟩ := x
    by_cases hj : j = i
    · subst hj
      rw [own_cons_self] at h
      cases k₁ with
      | nil =>
        rw [List.nil_append] at h
        cases h
        exact ⟨[], rest, rfl, rfl, rfl⟩
      | cons e₁ k₁ =>
        obtain ⟨rfl, hrest⟩ := List.cons.inj h
        obtain ⟨l₁, l₂, rfl, h₁, h₂⟩ := ih _ hrest
        exact ⟨(j, e') :: l₁, l₂, rfl, by rw [own_cons_self, h₁], h₂⟩
    · rw [own_cons_of_ne hj] at h
      obtain ⟨l₁, l₂, rfl, h₁, h₂⟩ := ih _ h
      exact ⟨(j, e') :: l₁, l₂, rfl, by rw [own_cons_of_ne hj, h₁], h₂⟩

end Own

namespace Pool

variable [DecidableEq ι] (h : Handler Op Res σ)

/-- What is performed along a schedule, by whom, and what is replied. -/
def events : Pool Op Res β ι σ → List ι → List (ι × (op : Op) × Res op)
  | _, [] => []
  | pool, i :: rest =>
    match pool.threads i with
    | .ret _ => events pool rest
    | .step op _ => (i, ⟨op, (h pool.state op).1⟩) :: events (pool.step h i) rest

variable {h}

theorem events_cons_none {pool : Pool Op Res β ι σ} {i : ι} {b : β} (hthread : pool.threads i = .ret b)
    (rest : List ι) : pool.events h (i :: rest) = pool.events h rest := by
  rw [events, hthread]

theorem events_cons_some {pool : Pool Op Res β ι σ} {i : ι} {op : Op} {next : Res op → Program Op Res β}
    (hthread : pool.threads i = .step op next) (rest : List ι) :
    pool.events h (i :: rest) = (i, ⟨op, (h pool.state op).1⟩) :: (pool.step h i).events h rest := by
  rw [events, hthread]

theorem step_none {pool : Pool Op Res β ι σ} {i : ι} {b : β} (hthread : pool.threads i = .ret b) :
    pool.step h i = pool := by
  rw [step, hthread]

/-- Every thread follows its program. -/
theorem follows_events (i : ι) (schedule : List ι) (pool : Pool Op Res β ι σ) :
    Follows (pool.threads i) (own i (pool.events h schedule)) ((pool.run h schedule).threads i) := by
  induction schedule generalizing pool with
  | nil => rfl
  | cons j rest ih =>
    cases hthread : pool.threads j with
    | ret b =>
      have hrun : pool.run h (j :: rest) = pool.run h rest := congrArg (Pool.run h · rest) (step_none hthread)
      rw [events_cons_none hthread, hrun]
      exact ih pool
    | step op next =>
      have hstep := step_of (h := h) hthread rfl
      have hrest := ih (pool.step h j)
      rw [events_cons_some hthread]
      by_cases hj : j = i
      · subst hj
        rw [own_cons_self, hthread]
        refine ⟨next, rfl, ?_⟩
        rw [hstep] at hrest ⊢
        dsimp only at hrest
        rw [Function.update_self] at hrest
        exact hstep ▸ hrest
      · rw [own_cons_of_ne hj]
        have hsame : (pool.step h j).threads i = pool.threads i := by
          rw [hstep]
          exact Function.update_of_ne (Ne.symm hj) _ _
        exact hsame ▸ hrest

/-- The handler gives the replies. -/
theorem replies_events {allowed : σ → Op → Prop} (schedule : List ι) (pool : Pool Op Res β ι σ)
    (hobeys : pool.Obeys h allowed schedule) :
    Replies h allowed pool.state ((pool.events h schedule).map Prod.snd) (pool.run h schedule).state := by
  induction schedule generalizing pool with
  | nil => rfl
  | cons i rest ih =>
    obtain ⟨hop, hrest⟩ := hobeys
    cases hthread : pool.threads i with
    | ret b =>
      have hrun : pool.run h (i :: rest) = pool.run h rest := congrArg (Pool.run h · rest) (step_none hthread)
      rw [events_cons_none hthread, hrun]
      rw [step_none hthread] at hrest
      exact ih pool hrest
    | step op next =>
      rw [events_cons_some hthread]
      have hnext : pool.next i = some op := by rw [Pool.next, hthread]
      refine ⟨hop op hnext, (h pool.state op).2, rfl, ?_⟩
      have hstate : (pool.step h i).state = (h pool.state op).2 := by rw [step_of hthread rfl]
      exact hstate ▸ ih (pool.step h i) hrest

end Pool

/-! ### A lock -/

/-- Operations, and taking and giving back a lock. -/
inductive Locked (Op : Type)
  | call (op : Op)
  | lock
  | unlock

namespace Locked

@[reducible] def Reply (Res : Op → Type) : Locked Op → Type
  | call op => Res op
  | lock => Unit
  | unlock => Unit

/-- The flag says whether the lock is taken. -/
def handler (h : Handler Op Res σ) : Handler (Locked Op) (Reply Res) (σ × Bool) := fun s op =>
  match op with
  | .call op => ((h s.1 op).1, ((h s.1 op).2, s.2))
  | .lock => ((), (s.1, true))
  | .unlock => ((), (s.1, false))

theorem of_handler_call {h : Handler Op Res σ} {s s' : σ × Bool} {op : Op} {r : Res op}
    (hanswer : handler h s (.call op) = (r, s')) : h s.1 op = (r, s'.1) := by
  cases hanswer
  rfl

/-- The lock is taken only when it is free. -/
def Waits (s : σ × Bool) : Locked Op → Prop
  | .lock => s.2 = false
  | _ => True

instance decidableWaits (s : σ × Bool) : ∀ op : Locked Op, Decidable (Waits s op)
  | .lock => inferInstanceAs (Decidable (s.2 = false))
  | .call _ => isTrue trivial
  | .unlock => isTrue trivial

/-- A program that does not know of the lock. -/
def lift (p : Program Op Res α) : Program (Locked Op) (Reply Res) α :=
  translate (fun op => perform (.call op)) p

/-- A program under the lock. -/
def guarded (p : Program Op Res α) : Program (Locked Op) (Reply Res) α := do
  perform lock
  let a ← lift p
  perform unlock
  return a

/-- A script, for programs with a lock. -/
def calls (k : List ((op : Op) × Res op)) : List ((op : Locked Op) × Reply Res op) :=
  k.map fun e => ⟨.call e.1, e.2⟩

variable {p : Program Op Res α} {k : List ((op : Op) × Res op)}
  {l l' : List ((op : Locked Op) × Reply Res op)}

theorem mem_calls {op : Op} {r : Res op} : ⟨.call op, r⟩ ∈ calls k ↔ ⟨op, r⟩ ∈ k := by
  unfold calls
  rw [List.mem_map]
  constructor
  · rintro ⟨⟨op', r'⟩, hmem, heq⟩
    cases heq
    exact hmem
  · exact fun hmem => ⟨_, hmem, rfl⟩

theorem lock_notMem_calls : ⟨.lock, ()⟩ ∉ calls k := by
  simp [calls]

theorem unlock_notMem_calls : ⟨.unlock, ()⟩ ∉ calls k := by
  simp [calls]

/-- What happened in a script that does not know of the lock. -/
theorem follows_lift {q : Program (Locked Op) (Reply Res) α} (hp : Follows (lift p) l q) :
    ∃ k p', l = calls k ∧ Follows p k p' ∧ q = lift p' := by
  induction p generalizing l with
  | ret a =>
    obtain ⟨rfl, rfl⟩ := Follows.of_ret hp
    exact ⟨[], .ret a, rfl, rfl, rfl⟩
  | step op next ih =>
    rcases Follows.of_step hp with ⟨rfl, rfl⟩ | ⟨r, rest, rfl, hrest⟩
    · exact ⟨[], .step op next, rfl, rfl, rfl⟩
    · obtain ⟨k, p', rfl, hk, rfl⟩ := ih r hrest
      exact ⟨⟨op, r⟩ :: k, p', rfl, ⟨next, rfl, hk⟩, rfl⟩

theorem lift_eq_ret {a : α} (hp : lift p = .ret a) : p = .ret a := by
  cases p with
  | ret b =>
    cases hp
    rfl
  | step op next => cases hp

theorem guarded_eq : guarded p = .step .lock fun _ => lift p >>= fun a => .step .unlock fun _ => .ret a := rfl

/-- How far a script under the lock can be. -/
theorem follows_guarded {q : Program (Locked Op) (Reply Res) α} (hp : Follows (guarded p) l q) :
    ((l = [] ∨ ∃ k p', l = ⟨.lock, ()⟩ :: calls k ∧ Follows p k p') ∧ ∀ a, q ≠ .ret a) ∨
      ∃ k a, l = ⟨.lock, ()⟩ :: calls k ++ [⟨.unlock, ()⟩] ∧ Follows p k (.ret a) ∧ q = .ret a := by
  rw [guarded_eq] at hp
  rcases Follows.of_step hp with ⟨rfl, rfl⟩ | ⟨⟨⟩, rest, rfl, hrest⟩
  · exact .inl ⟨.inl rfl, by nofun⟩
  rcases Follows.of_bind hrest with ⟨p', hp', rfl⟩ | ⟨a, k₁, k₂, rfl, hfirst, hsecond⟩
  · obtain ⟨k, p'', rfl, hk, -⟩ := follows_lift hp'
    refine .inl ⟨.inr ⟨k, p'', rfl, hk⟩, fun b hb => ?_⟩
    cases p' with
    | ret a => cases hb
    | step op next => cases hb
  · obtain ⟨k, p', rfl, hk, heq⟩ := follows_lift hfirst
    rcases Follows.of_step hsecond with ⟨rfl, rfl⟩ | ⟨⟨⟩, rest, rfl, hret⟩
    · exact .inl ⟨.inr ⟨k, p', by rw [List.append_nil], hk⟩, by nofun⟩
    · obtain ⟨rfl, rfl⟩ := Follows.of_ret hret
      exact .inr ⟨k, a, rfl, lift_eq_ret heq.symm ▸ hk, rfl⟩

/-- What is called under the lock is called by the program. -/
theorem of_mem_guarded {q : Program (Locked Op) (Reply Res) α} {op : Op} {r : Res op}
    (hp : Follows (guarded p) l q) (hmem : ⟨.call op, r⟩ ∈ l) : ∃ k p', Follows p k p' ∧ ⟨op, r⟩ ∈ k := by
  rcases follows_guarded hp with ⟨rfl | ⟨k, p', rfl, hk⟩, -⟩ | ⟨k, a, rfl, hk, -⟩
  · cases hmem
  · refine ⟨k, p', hk, mem_calls.mp ?_⟩
    rcases List.mem_cons.mp hmem with heq | hmem
    · cases heq
    · exact hmem
  · refine ⟨k, _, hk, mem_calls.mp ?_⟩
    rcases List.mem_cons.mp hmem with heq | hmem
    · cases heq
    · rcases List.mem_append.mp hmem with hmem | hmem
      · exact hmem
      · cases List.mem_singleton.mp hmem

theorem follows_guarded_ret {a : α} (hp : Follows (guarded p) l (.ret a)) :
    ∃ k, l = ⟨.lock, ()⟩ :: calls k ++ [⟨.unlock, ()⟩] ∧ Follows p k (.ret a) := by
  rcases follows_guarded hp with ⟨-, hne⟩ | ⟨k, b, rfl, hk, heq⟩
  · exact absurd rfl (hne a)
  · cases heq
    exact ⟨k, rfl, hk⟩

/-- The lock is taken first, if at all, and then given back last. -/
inductive Polite : List ((op : Locked Op) × Reply Res op) → Prop
  | outside (k : List ((op : Op) × Res op)) : Polite (calls k)
  | inside (k : List ((op : Op) × Res op)) : Polite (⟨.lock, ()⟩ :: calls k)
  | left (k : List ((op : Op) × Res op)) : Polite (⟨.lock, ()⟩ :: calls k ++ [⟨.unlock, ()⟩])

theorem polite_lift {q : Program (Locked Op) (Reply Res) α} (hp : Follows (lift p) l q) : Polite l := by
  obtain ⟨k, -, rfl, -, -⟩ := follows_lift hp
  exact .outside k

theorem polite_guarded {q : Program (Locked Op) (Reply Res) α} (hp : Follows (guarded p) l q) :
    Polite l := by
  rcases follows_guarded hp with ⟨rfl | ⟨k, p', rfl, -⟩, -⟩ | ⟨k, a, rfl, -, -⟩
  · exact .outside []
  · exact .inside k
  · exact .left k

/-- The lock was taken and not given back. -/
def Held (l : List ((op : Locked Op) × Reply Res op)) : Prop :=
  ⟨.lock, ()⟩ ∈ l ∧ ⟨.unlock, ()⟩ ∉ l

/-- Who gives the lock back holds it. -/
theorem Polite.held (hl : Polite (l ++ [⟨.unlock, ()⟩])) : Polite l ∧ Held l := by
  generalize hm : l ++ [(⟨.unlock, ()⟩ : (op : Locked Op) × Reply Res op)] = m at hl
  have hmem : ⟨.unlock, ()⟩ ∈ m := hm ▸ List.mem_append_right _ (List.mem_singleton_self _)
  cases hl with
  | outside k => exact absurd hmem unlock_notMem_calls
  | inside k =>
    rcases List.mem_cons.mp hmem with heq | hk
    · cases heq
    · exact absurd hk unlock_notMem_calls
  | left k =>
    obtain ⟨rfl, -⟩ := List.append_inj' hm rfl
    refine ⟨.inside k, List.mem_cons_self, ?_⟩
    rintro (_ | ⟨_, hk⟩)
    exact unlock_notMem_calls hk

theorem Polite.of_append_call {op : Op} {r : Res op} (hl : Polite (l ++ [⟨.call op, r⟩])) : Polite l := by
  generalize hm : l ++ [(⟨.call op, r⟩ : (op : Locked Op) × Reply Res op)] = m at hl
  cases hl with
  | outside k =>
    obtain ⟨k₁, k₂, rfl, rfl, -⟩ := List.map_eq_append_iff.mp hm.symm
    exact .outside k₁
  | inside k =>
    cases l with
    | nil => exact .outside []
    | cons e rest =>
      obtain ⟨rfl, hrest⟩ := List.cons.inj hm
      obtain ⟨k₁, k₂, rfl, rfl, -⟩ := List.map_eq_append_iff.mp hrest.symm
      exact .inside k₁
  | left k =>
    obtain ⟨-, heq⟩ := List.append_inj' hm rfl
    cases heq

/-- Who takes the lock has done nothing before. -/
theorem Polite.of_append_lock (hl : Polite (l ++ [⟨.lock, ()⟩])) : l = [] := by
  generalize hm : l ++ [(⟨.lock, ()⟩ : (op : Locked Op) × Reply Res op)] = m at hl
  have hmem : ⟨.lock, ()⟩ ∈ m := hm ▸ List.mem_append_right _ (List.mem_singleton_self _)
  cases hl with
  | outside k => exact absurd hmem lock_notMem_calls
  | inside k =>
    cases l with
    | nil => rfl
    | cons e rest =>
      obtain ⟨-, hrest⟩ := List.cons.inj hm
      have hlast : ⟨.lock, ()⟩ ∈ rest ++ [(⟨.lock, ()⟩ : (op : Locked Op) × Reply Res op)] :=
        List.mem_append_right _ (List.mem_singleton_self _)
      exact absurd (hrest ▸ hlast : ⟨.lock, ()⟩ ∈ calls k) lock_notMem_calls
  | left k =>
    obtain ⟨-, heq⟩ := List.append_inj' hm rfl
    cases heq

/-- What is called in a script with a lock. -/
def called (l : List ((op : Locked Op) × Reply Res op)) : List ((op : Op) × Res op) :=
  l.filterMap fun e =>
    match e with
    | ⟨.call op, r⟩ => some ⟨op, r⟩
    | _ => none

theorem mem_called {op : Op} {r : Res op} : ⟨op, r⟩ ∈ called l ↔ ⟨.call op, r⟩ ∈ l := by
  unfold called
  rw [List.mem_filterMap]
  constructor
  · rintro ⟨⟨op', r'⟩, hmem, heq⟩
    cases op' with
    | call op' =>
      cases heq
      exact hmem
    | lock => cases heq
    | unlock => cases heq
  · exact fun hmem => ⟨_, hmem, rfl⟩

/-- The lock changes nothing about the replies. -/
theorem replies_called {h : Handler Op Res σ} {s s' : σ × Bool} (hl : Replies (handler h) Waits s l s') :
    Replies h (fun _ _ => True) s.1 (called l) s'.1 := by
  induction l generalizing s with
  | nil => exact congrArg Prod.fst hl
  | cons e rest ih =>
    obtain ⟨op, r⟩ := e
    obtain ⟨-, s₁, hanswer, hrest⟩ := hl
    have hrest := ih hrest
    cases op with
    | call op =>
      cases hanswer
      exact ⟨trivial, _, rfl, hrest⟩
    | lock =>
      cases hanswer
      exact hrest
    | unlock =>
      cases hanswer
      exact hrest

section Mutex

variable [DecidableEq ι] {h : Handler Op Res σ} {s : σ} {s' : σ × Bool}
  {events : List (ι × (op : Locked Op) × Reply Res op)}

/-- At most one thread holds the lock, and then it is taken. -/
theorem held (hreplies : Replies (handler h) Waits (s, false) (events.map Prod.snd) s')
    (hpolite : ∀ i, Polite (own i events)) :
    (∀ i, Held (own i events) → s'.2 = true) ∧
      ∀ i j, Held (own i events) → Held (own j events) → i = j := by
  induction events using List.reverseRecOn generalizing s' with
  | nil => exact ⟨fun i hi => absurd hi.1 List.not_mem_nil, fun i j hi => absurd hi.1 List.not_mem_nil⟩
  | append_singleton events e ih =>
    obtain ⟨m, op, r⟩ := e
    rw [List.map_append] at hreplies
    obtain ⟨s₁, hbefore, hallowed, s₂, hanswer, rfl⟩ := Replies.of_append hreplies
    have hother : ∀ i, m ≠ i → own i (events ++ [(m, ⟨op, r⟩)]) = own i events := by
      intro i hi
      rw [own_append, own_cons_of_ne hi, own_nil, List.append_nil]
    have hmine : own m (events ++ [(m, ⟨op, r⟩)]) = own m events ++ [⟨op, r⟩] := by
      rw [own_append, own_cons_self, own_nil]
    have hm := hpolite m
    rw [hmine] at hm
    have hpolite' : Polite (own m events) → ∀ i, Polite (own i events) := by
      intro hm i
      by_cases hi : m = i
      · exact hi ▸ hm
      · exact hother i hi ▸ hpolite i
    cases op with
    | call op =>
      obtain ⟨hflag, hunique⟩ := ih hbefore (hpolite' hm.of_append_call)
      have hsame : ∀ i, Held (own i (events ++ [(m, ⟨.call op, r⟩)])) → Held (own i events) := by
        intro i hi
        by_cases hmi : m = i
        · subst hmi
          rw [hmine] at hi
          obtain ⟨hlock, hunlock⟩ := hi
          refine ⟨?_, fun hmem => hunlock (List.mem_append_left _ hmem)⟩
          rcases List.mem_append.mp hlock with hmem | hmem
          · exact hmem
          · cases List.mem_singleton.mp hmem
        · exact hother i hmi ▸ hi
      refine ⟨fun i hi => ?_, fun i j hi hj => hunique i j (hsame i hi) (hsame j hj)⟩
      cases hanswer
      exact hflag i (hsame i hi)
    | lock =>
      -- Nobody held the lock, so only who takes it does.
      have hnil := hm.of_append_lock
      obtain ⟨hflag, -⟩ := ih hbefore (hpolite' (hnil ▸ .outside []))
      have hfree : s₁.2 = false := hallowed
      have honly : ∀ i, Held (own i (events ++ [(m, ⟨.lock, r⟩)])) → m = i := by
        intro i hi
        by_contra hmi
        rw [hother i hmi] at hi
        cases (hflag i hi).symm.trans hfree
      refine ⟨fun i _ => ?_, fun i j hi hj => (honly i hi).symm.trans (honly j hj)⟩
      cases hanswer
      rfl
    | unlock =>
      -- It was the one that gives it back, so nobody does.
      obtain ⟨hpm, hheld⟩ := hm.held
      obtain ⟨-, hunique⟩ := ih hbefore (hpolite' hpm)
      have hnobody : ∀ i, ¬ Held (own i (events ++ [(m, ⟨.unlock, r⟩)])) := by
        intro i hi
        by_cases hmi : m = i
        · subst hmi
          rw [hmine] at hi
          exact hi.2 (List.mem_append_right _ (List.mem_singleton_self _))
        · rw [hother i hmi] at hi
          exact hmi (hunique m i hheld hi)
      exact ⟨fun i hi => absurd hi (hnobody i), fun i j hi => absurd hi (hnobody i)⟩

/-- A thread that took the lock before another did was through by then. -/
theorem own_eq_nil_of_lock {i j : ι} {k : List ((op : Op) × Res op)}
    {before after : List (ι × (op : Locked Op) × Reply Res op)}
    (hreplies : Replies (handler h) Waits (s, false) ((before ++ (j, ⟨.lock, ()⟩) :: after).map Prod.snd) s')
    (hpolite : ∀ i, Polite (own i before))
    (hi : own i (before ++ (j, ⟨.lock, ()⟩) :: after) = ⟨.lock, ()⟩ :: calls k ++ [⟨.unlock, ()⟩])
    (hlock : ⟨.lock, ()⟩ ∈ own i before) : own i ((j, ⟨.lock, ()⟩) :: after) = [] := by
  rw [List.map_append] at hreplies
  obtain ⟨s₁, hbefore, hallowed, -⟩ := Replies.of_append hreplies
  have hfree : s₁.2 = false := hallowed
  have hunlock : ⟨.unlock, ()⟩ ∈ own i before := by
    by_contra hnot
    cases ((held hbefore hpolite).1 i ⟨hlock, hnot⟩).symm.trans hfree
  rw [own_append] at hi
  by_contra hrest
  obtain ⟨rest, e, heq⟩ := (List.eq_nil_or_concat' _).resolve_left hrest
  rw [heq, ← List.append_assoc] at hi
  obtain ⟨hi, -⟩ := List.append_inj' hi rfl
  have hmem : ⟨.unlock, ()⟩ ∈ (⟨.lock, ()⟩ :: calls k : List ((op : Locked Op) × Reply Res op)) :=
    hi ▸ List.mem_append_left _ hunlock
  rcases List.mem_cons.mp hmem with heq | hk
  · cases heq
  · exact unlock_notMem_calls hk

/--
**What is done under the lock does not overlap**: of two threads that are through, one
was through before the other began.
-/
theorem disjoint {i j : ι} (hne : i ≠ j) {k k' : List ((op : Op) × Res op)}
    (hreplies : Replies (handler h) Waits (s, false) (events.map Prod.snd) s')
    (hpolite : ∀ before, before <+: events → ∀ i, Polite (own i before))
    (hi : own i events = ⟨.lock, ()⟩ :: calls k ++ [⟨.unlock, ()⟩])
    (hj : own j events = ⟨.lock, ()⟩ :: calls k' ++ [⟨.unlock, ()⟩]) :
    ∃ before after, events = before ++ after ∧
      (own j before = [] ∧ own i after = [] ∨ own i before = [] ∧ own j after = []) := by
  obtain ⟨a, a', ha, hai, -⟩ := exists_split_of_own [] hi
  obtain ⟨b, b', hb, hbj, -⟩ := exists_split_of_own [] hj
  -- Who took the lock first was through before the other took it.
  have hmem : ∀ {x y : List (ι × (op : Locked Op) × Reply Res op)} {i : ι} {c},
      y = x ++ (i, ⟨.lock, ()⟩) :: c → (⟨.lock, ()⟩ : (op : Locked Op) × Reply Res op) ∈ own i y := by
    rintro x y i c rfl
    exact mem_own.mpr (List.mem_append_right _ List.mem_cons_self)
  rcases List.append_eq_append_iff.mp (ha.symm.trans hb) with ⟨c, hc, hc'⟩ | ⟨c, hc, hc'⟩
  · cases c with
    | nil =>
      cases hc'
      exact absurd rfl hne
    | cons e c =>
      obtain ⟨rfl, -⟩ := List.cons.inj hc'
      refine ⟨b, (j, ⟨.lock, ()⟩) :: b', hb, .inl ⟨hbj, ?_⟩⟩
      exact own_eq_nil_of_lock (hb ▸ hreplies) (hpolite b (hb ▸ List.prefix_append _ _)) (hb ▸ hi) (hmem hc)
  · cases c with
    | nil =>
      cases hc'
      exact absurd rfl hne
    | cons e c =>
      obtain ⟨rfl, -⟩ := List.cons.inj hc'
      refine ⟨a, (i, ⟨.lock, ()⟩) :: a', ha, .inr ⟨hai, ?_⟩⟩
      exact own_eq_nil_of_lock (ha ▸ hreplies) (hpolite a (ha ▸ List.prefix_append _ _)) (ha ▸ hj) (hmem hc)

variable {pool : Pool (Locked Op) (Reply Res) β ι (σ × Bool)} {schedule : List ι}

theorem polite_events (hthreads : ∀ i, ∃ p : Program Op Res β, pool.threads i = lift p ∨
    pool.threads i = guarded p)
    {before : List (ι × (op : Locked Op) × Reply Res op)}
    (hbefore : before <+: pool.events (handler h) schedule)
    (i : ι) : Polite (own i before) := by
  obtain ⟨after, hafter⟩ := hbefore
  have hfollows := Pool.follows_events (h := handler h) i schedule pool
  rw [← hafter, own_append] at hfollows
  obtain ⟨q, hq, -⟩ := Follows.split hfollows
  obtain ⟨p, hp | hp⟩ := hthreads i
  · exact polite_lift (hp ▸ hq)
  · exact polite_guarded (hp ▸ hq)

/-- The same for a schedule. -/
theorem disjoint_events {i j : ι} (hne : i ≠ j)
    (hthreads : ∀ i, ∃ p : Program Op Res β, pool.threads i = lift p ∨ pool.threads i = guarded p)
    (hfree : pool.state.2 = false) (hobeys : pool.Obeys (handler h) Waits schedule) {p p' : Program Op Res β}
    (hi : pool.threads i = guarded p) (hj : pool.threads j = guarded p') {a b : β}
    (hireturns : (pool.run (handler h) schedule).threads i = .ret a)
    (hjreturns : (pool.run (handler h) schedule).threads j = .ret b) :
    ∃ before after, pool.events (handler h) schedule = before ++ after ∧
      (own j before = [] ∧ own i after = [] ∨ own i before = [] ∧ own j after = []) := by
  have hifollows := Pool.follows_events (h := handler h) i schedule pool
  have hjfollows := Pool.follows_events (h := handler h) j schedule pool
  rw [hi, hireturns] at hifollows
  rw [hj, hjreturns] at hjfollows
  obtain ⟨k, hk, -⟩ := follows_guarded_ret hifollows
  obtain ⟨k', hk', -⟩ := follows_guarded_ret hjfollows
  have hreplies := Pool.replies_events schedule pool hobeys
  have hstate : pool.state = (pool.state.1, false) := Prod.ext rfl hfree
  exact disjoint hne (hstate ▸ hreplies) (fun before hbefore i => polite_events hthreads hbefore i) hk hk'

end Mutex

end Locked

end Program
