/-
Running programs against the outside.

One lemma per call says what `answer` does with it.  A call that fails has stored
nothing, so for a program that stops at the first failure there is one thing to
say about every error: `Broke`, the store is as before and some call failed.  On
success the calls are counted: `Passed n` says there were `n` and none failed.
-/
import UbixVault.Lib.Yields
import UbixVault.Outside

namespace UbixVault

open Program

namespace Act

variable {α σ : Type} (h : Outside σ)

/-- Another text on the error of a program changes nothing else. -/
theorem exec_adapt (g : Err → Err) (x : Act α) (s : σ) :
    Program.exec h (ExceptT.adapt g x : Act α) s =
      match Program.exec h x s with
      | (.ok a, s') => (.ok a, s')
      | (.error e, s') => (.error (g e), s') := by
  have hrun : (ExceptT.adapt g x : Act α).run = x.run >>= fun r => pure (Except.mapError g r) := by
    show Except.mapError g <$> x.run = _
    rw [← bind_pure_comp]
  simp only [Program.exec, hrun, run_bind]
  rcases x.run.run h s with ⟨r, s'⟩
  cases r <;> rfl

theorem exec_context (text : String) (x : Act α) (s : σ) :
    Program.exec h (x.context text) s =
      match Program.exec h x s with
      | (.ok a, s') => (.ok a, s')
      | (.error e, s') => (.error (.wrap text e), s') := exec_adapt h _ x s

/-- A context never hides a success. -/
theorem exec_context_eq_ok (text : String) {x : Act α} {s s' : σ} {a : α} :
    Program.exec h (x.context text) s = (.ok a, s') ↔ Program.exec h x s = (.ok a, s') := by
  rw [exec_context]
  rcases Program.exec h x s with ⟨r, s''⟩
  cases r <;> simp

theorem exec_context_eq_error (text : String) {x : Act α} {s s' : σ} {e : Err} :
    Program.exec h (x.context text) s = (.error e, s') ↔
      ∃ e', Program.exec h x s = (.error e', s') ∧ e = .wrap text e' := by
  rw [exec_context]
  rcases Program.exec h x s with ⟨r, s''⟩
  cases r with
  | ok a => simp
  | error e' =>
    simp only [Prod.mk.injEq, Except.error.injEq]
    constructor
    · rintro ⟨rfl, rfl⟩
      exact ⟨e', ⟨rfl, rfl⟩, rfl⟩
    · rintro ⟨e'', ⟨rfl, rfl⟩, rfl⟩
      exact ⟨rfl, rfl⟩

theorem exec_optional (x : Act α) (missing : Err) (s : σ) :
    Program.exec h (Act.optional x missing) s =
      match Program.exec h x s with
      | (.ok a, s') => (.ok (some a), s')
      | (.error e, s') => (if e.is missing then .ok none else .error e, s') := by
  simp only [Program.exec, Act.optional, ExceptT.run_mk, run_bind]
  rcases x.run.run h s with ⟨r, s'⟩
  cases r with
  | ok a => rfl
  | error e =>
    dsimp only
    split_ifs <;> rfl

theorem exec_get (key : Key) (s : σ) : Program.exec h (Act.get key) s = h s (.get key) := rfl

theorem exec_put (key : Key) (value : Bytes) (s : σ) :
    Program.exec h (Act.put key value) s = h s (.put key value) := rfl

theorem exec_delete (key : Key) (s : σ) :
    Program.exec h (Act.delete key) s = h s (.delete key) := rfl

theorem exec_list (pfx : Key) (s : σ) : Program.exec h (Act.list pfx) s = h s (.list pfx) := rfl

theorem exec_randRead (n : Nat) (s : σ) :
    Program.exec h (Act.randRead n) s = h s (.randRead n) := rfl

theorem exec_randInt (bound : Nat) (s : σ) :
    Program.exec h (Act.randInt bound) s = h s (.randInt bound) := rfl

theorem exec_wrap (plaintext : Bytes) (s : σ) :
    Program.exec h (Act.wrap plaintext) s = h s (.wrap plaintext) := rfl

theorem exec_unwrap (wrapped : Bytes) (s : σ) :
    Program.exec h (Act.unwrap wrapped) s = h s (.unwrap wrapped) := rfl

theorem exec_acquireLock (s : σ) :
    Program.exec h Act.acquireLock s = h s .acquireLock := rfl

theorem exec_cleanup (id : Bytes) (s : σ) :
    Program.exec h (Act.cleanup id) s = h s (.cleanup id) := rfl

end Act

/-! ### The answers of a backend -/

@[simp] theorem World.next_store (w : World) : w.next.store = w.store := rfl

@[simp] theorem World.next_tick (w : World) : w.next.tick = w.tick + 1 := rfl

@[simp] theorem World.write_store (w : World) (store : Store) : (w.write store).store = store := rfl

/-- A call that changes nothing stored. -/
def Call.Reads (call : Call) : Prop := (∀ k v, call ≠ .put k v) ∧ ∀ k, call ≠ .delete k

namespace Env

variable {env : Env} {w : World}

theorem guarded_ok {α : Type} {call : Call} {reply : Except Err α × World}
    (hf : env.fails w.tick call = false) : env.guarded w call true reply = reply := by
  unfold guarded
  rw [if_neg (by simp [hf]), if_pos rfl]

theorem guarded_fail {α : Type} {call : Call} {valid : Bool} {reply : Except Err α × World}
    (hf : env.fails w.tick call = true) :
    env.guarded w call valid reply = (.error .outside, w.next) := by
  unfold guarded
  rw [if_pos hf]

theorem answer_get {key : Key} (hf : env.fails w.tick (.get key) = false)
    (hv : validKey key = true) : env.answer w (.get key) = (.ok (w.store.lookup key), w.next) := by
  simp only [answer, hv]
  exact guarded_ok hf

theorem answer_put {key : Key} {value : Bytes} (hf : env.fails w.tick (.put key value) = false)
    (hv : validKey key = true) :
    env.answer w (.put key value) = (.ok (), w.write (w.store.insert key value)) := by
  simp only [answer, hv]
  exact guarded_ok hf

theorem answer_delete {key : Key} (hf : env.fails w.tick (.delete key) = false)
    (hv : validKey key = true) :
    env.answer w (.delete key) = (.ok (), w.write (w.store.erase key)) := by
  simp only [answer, hv]
  exact guarded_ok hf

theorem answer_delete_store (key : Key) :
    (env.answer w (.delete key)).2.store = w.store.erase key ∨
      (env.answer w (.delete key)).2.store = w.store := by
  unfold answer guarded
  dsimp only
  split_ifs
  · exact .inr rfl
  · exact .inl rfl
  · exact .inr rfl

theorem answer_list {pfx : Key} (hf : env.fails w.tick (.list pfx) = false)
    (hv : validPrefix pfx = true) :
    env.answer w (.list pfx) = (.ok (w.store.list pfx), w.next) := by
  simp only [answer, hv]
  exact guarded_ok hf

theorem answer_randRead {n : Nat} (hf : env.fails w.tick (.randRead n) = false) :
    env.answer w (.randRead n) = (.ok (env.random w.tick n), w.next) := guarded_ok hf

/-- A call that may fail does what it should, or nothing; then it failed or its key is invalid. -/
theorem guarded_why {α : Type} (env : Env) (w : World) (call : Call) (valid : Bool)
    (reply : Except Err α × World) :
    (env.guarded w call valid reply = reply ∧ valid = true) ∨
      ∃ e, env.guarded w call valid reply = (.error e, w.next) ∧
        (env.fails w.tick call = true ∨ valid = false) := by
  unfold guarded
  split_ifs with hfails hvalid
  · exact .inr ⟨_, rfl, .inl hfails⟩
  · exact .inl ⟨rfl, hvalid⟩
  · exact .inr ⟨_, rfl, .inr (Bool.eq_false_iff.mpr hvalid)⟩

theorem guarded_cases {α : Type} (call : Call) (valid : Bool) (reply : Except Err α × World) :
    env.guarded w call valid reply = reply ∨ ∃ e, env.guarded w call valid reply = (.error e, w.next) :=
  (guarded_why env w call valid reply).imp And.left fun ⟨e, h, _⟩ => ⟨e, h⟩

theorem answer_get_cases (env : Env) (w : World) (key : Key) :
    env.answer w (.get key) = (.ok (w.store.lookup key), w.next) ∨
      ∃ e, env.answer w (.get key) = (.error e, w.next) := guarded_cases _ _ _

theorem answer_put_cases (env : Env) (w : World) (key : Key) (value : Bytes) :
    env.answer w (.put key value) = (.ok (), w.write (w.store.insert key value)) ∨
      ∃ e, env.answer w (.put key value) = (.error e, w.next) := guarded_cases _ _ _

theorem answer_delete_cases (env : Env) (w : World) (key : Key) :
    env.answer w (.delete key) = (.ok (), w.write (w.store.erase key)) ∨
      ∃ e, env.answer w (.delete key) = (.error e, w.next) := guarded_cases _ _ _

theorem answer_list_cases (env : Env) (w : World) (pfx : Key) :
    env.answer w (.list pfx) = (.ok (w.store.list pfx), w.next) ∨
      ∃ e, env.answer w (.list pfx) = (.error e, w.next) := guarded_cases _ _ _

/-- Only writing and deleting change what is stored. -/
theorem answer_reads {call : Call} (h : call.Reads) : (env.answer w call).2.store = w.store := by
  cases call with
  | put k v => exact absurd rfl (h.1 k v)
  | delete k => exact absurd rfl (h.2 k)
  | get | list | randRead | randInt | wrap | acquireLock | releaseLock | cleanup =>
    unfold answer guarded
    dsimp only
    split_ifs <;> rfl
  | now => rfl
  | unwrap wrapped =>
    unfold answer guarded
    dsimp only
    split_ifs
    · rfl
    · split <;> rfl
    · rfl

/-- Every call is counted. -/
theorem answer_tick (call : Call) : (env.answer w call).2.tick = w.tick + 1 := by
  cases call with
  | now => rfl
  | get | put | delete | list | randRead | randInt | wrap | acquireLock | releaseLock | cleanup =>
    unfold answer guarded
    dsimp only
    split_ifs <;> rfl
  | unwrap wrapped =>
    unfold answer guarded
    dsimp only
    split_ifs
    · rfl
    · split <;> rfl
    · rfl

theorem tick_le_run {α : Type} (p : Prog α) (w : World) : w.tick ≤ (p.run env.answer w).2.tick := by
  induction p generalizing w with
  | ret a => exact Nat.le_refl _
  | step call next ih =>
    have hstep := ih (env.answer w call).1 (env.answer w call).2
    rw [answer_tick] at hstep
    exact Nat.le_of_succ_le hstep

/-- A program ends no earlier than it began. -/
theorem later {α τ : Type} {x : ExceptT Err (StateT τ Prog) α} {t : τ} {ok : α → τ → World → Prop}
    {err : Err → τ → World → Prop} (hx : YieldsState env.answer x t w ok err) :
    YieldsState env.answer x t w (fun a t' w' => w.tick ≤ w'.tick ∧ ok a t' w') err := by
  have hle := env.tick_le_run (x.run.run t) w
  unfold YieldsState at hx ⊢
  rcases hrun : execState env.answer x t w with ⟨⟨r, t'⟩, w'⟩
  rw [hrun] at hx
  cases r with
  | ok a => exact ⟨(congrArg (·.2.tick) hrun) ▸ hle, hx⟩
  | error e => exact hx

end Env

/-! ### Counting calls and faults -/

/-- The `n` calls between two worlds were all answered without failing. -/
structure Passed (env : Env) (n : Nat) (w w' : World) : Prop where
  tick : w'.tick = w.tick + n
  quiet : ∀ i < n, ∃ call, env.fails (w.tick + i) call = false

/-- One of the next `n` calls fails, and it is one of the calls `S`. -/
def Faulted (env : Env) (n : Nat) (w : World) (S : Call → Prop := fun _ => True) : Prop :=
  ∃ i < n, ∃ call, S call ∧ env.fails (w.tick + i) call = true

/-- One of the next `n` calls fails, and nothing has been stored. -/
structure Broke (env : Env) (n : Nat) (w w' : World) (S : Call → Prop := fun _ => True) :
    Prop where
  store : w'.store = w.store
  faulted : Faulted env n w S

/-- Stopped by an error with nothing stored; if all was `fine`, a call had failed. -/
structure Halted (env : Env) (n : Nat) (fine : Prop) (w w' : World)
    (S : Call → Prop := fun _ => True) : Prop where
  store : w'.store = w.store
  faulted : fine → Faulted env n w S

/-- A read of the storage. -/
def Call.IsGet (call : Call) : Prop := ∃ key, call = .get key

/-- No call fails. -/
def Env.Works (env : Env) : Prop := ∀ t call, env.fails t call = false

/-- The outside in which the call number `t` fails and no other does. -/
def Env.failAt (env : Env) (t : Nat) : Env := { env with fails := fun n _ => n == t }

theorem Env.failAt_fails {env : Env} {t n : Nat} {call : Call} :
    (env.failAt t).fails n call = true ↔ n = t := beq_iff_eq

section Counting

variable {env : Env} {n m l : Nat} {w w₁ w' : World}

theorem Passed.one {call : Call} (hf : env.fails w.tick call = false) (ht : w'.tick = w.tick + 1) :
    Passed env 1 w w' := by
  refine ⟨ht, ?_⟩
  intro i hi
  have h0 : i = 0 := by omega
  subst h0
  exact ⟨call, hf⟩

theorem Passed.zero (w : World) : Passed env 0 w w :=
  ⟨rfl, fun i hi => absurd hi (Nat.not_lt_zero i)⟩

theorem Passed.trans (h : Passed env n w w₁) (h' : Passed env m w₁ w') :
    Passed env (n + m) w w' := by
  refine ⟨by rw [h'.tick, h.tick, Nat.add_assoc], ?_⟩
  intro i hi
  by_cases hlt : i < n
  · exact h.quiet i hlt
  · obtain ⟨call, hcall⟩ := h'.quiet (i - n) (by omega)
    refine ⟨call, ?_⟩
    rw [h.tick] at hcall
    rwa [show w.tick + n + (i - n) = w.tick + i by omega] at hcall

variable {S : Call → Prop} {fine fine' : Prop}

/-- A failure after `n` calls is one among more. -/
theorem Faulted.afterIn (h : Faulted env m w₁ S) (ht : w₁.tick = w.tick + n) (hle : n + m ≤ l) :
    Faulted env l w S := by
  obtain ⟨i, hi, call, hS, hf⟩ := h
  refine ⟨n + i, by omega, call, hS, ?_⟩
  rwa [ht, Nat.add_assoc] at hf

theorem Faulted.mono (h : Faulted env m w S) (hle : m ≤ l) : Faulted env l w := by
  obtain ⟨i, hi, call, -, hf⟩ := h
  exact ⟨i, by omega, call, trivial, hf⟩

theorem Faulted.after (h : Faulted env m w₁ S) (ht : w₁.tick = w.tick + n) (hle : n + m ≤ l) :
    Faulted env l w := (h.afterIn ht hle).mono (Nat.le_refl _)

/-- Some call fails. -/
def Env.Faults (env : Env) : Prop := ∃ t call, env.fails t call = true

theorem Env.Works.not_faults (h : env.Works) : ¬ env.Faults := by
  rintro ⟨t, call, hf⟩
  rw [h t call] at hf
  cases hf

theorem Faulted.faults (h : Faulted env n w S) : env.Faults := by
  obtain ⟨i, -, call, -, hf⟩ := h
  exact ⟨_, call, hf⟩

theorem Env.Works.not_faulted (h : env.Works) : ¬ Faulted env n w S := by
  rintro ⟨i, -, call, -, hf⟩
  rw [h] at hf
  exact Bool.false_ne_true hf

theorem Broke.one {call : Call} (hf : env.fails w.tick call = true) : Broke env 1 w w.next :=
  ⟨rfl, 0, Nat.one_pos, call, trivial, hf⟩

theorem Broke.mono (h : Broke env m w w' S) (hle : m ≤ l) : Broke env l w w' :=
  ⟨h.store, h.faulted.mono hle⟩

theorem Broke.after (h : Broke env m w₁ w' S) (hp : Passed env n w w₁) (hs : w₁.store = w.store)
    (hle : n + m ≤ l) : Broke env l w w' :=
  ⟨h.store.trans hs, h.faulted.after hp.tick hle⟩

theorem Broke.haltedIn (h : Broke env m w w' S) : Halted env m fine w w' S :=
  ⟨h.store, fun _ => h.faulted⟩

theorem Broke.halted (h : Broke env m w w' S) (hle : m ≤ l) : Halted env l fine w w' :=
  ⟨h.store, fun _ => h.faulted.mono hle⟩

theorem Halted.after (h : Halted env m fine w₁ w' S) (ht : w₁.tick = w.tick + n)
    (hs : w₁.store = w.store) (hle : n + m ≤ l) (hfine : fine' → fine) :
    Halted env l fine' w w' :=
  ⟨h.store.trans hs, fun hf => (h.faulted (hfine hf)).after ht hle⟩

theorem Halted.of_not (hs : w'.store = w.store) (h : ¬ fine) : Halted env n fine w w' S :=
  ⟨hs, fun hf => absurd hf h⟩

end Counting

/-! ### One spec per call -/

namespace Act

variable {α : Type} {env : Env} {w : World}

theorem yields_adapt {σ : Type} {h : Outside σ} {s : σ} {g : Err → Err} {x : Act α}
    {ok : α → σ → Prop} {err : Err → σ → Prop}
    (hx : Yields h x s ok fun e s' => err (g e) s') :
    Yields h (ExceptT.adapt g x : Act α) s ok err := by
  unfold Yields at hx ⊢
  rw [exec_adapt]
  rcases hr : Program.exec h x s with ⟨r, s'⟩
  rw [hr] at hx
  cases r with
  | ok a => exact hx
  | error e => exact hx

theorem yields_context {σ : Type} {h : Outside σ} {s : σ} {text : String} {x : Act α}
    {ok : α → σ → Prop} {err : Err → σ → Prop}
    (hx : Yields h x s ok fun e s' => err (.wrap text e) s') :
    Yields h (x.context text) s ok err := yields_adapt hx

theorem yields_optional {σ : Type} {h : Outside σ} {s : σ} {x : Act α} {missing : Err}
    {ok : Option α → σ → Prop} {err : Err → σ → Prop}
    (hx : Yields h x s (fun a s' => ok (some a) s')
      fun e s' => if e.is missing then ok none s' else err e s') :
    Yields h (Act.optional x missing) s ok err := by
  unfold Yields at hx ⊢
  rw [exec_optional]
  rcases hr : Program.exec h x s with ⟨r, s'⟩
  rw [hr] at hx
  cases r with
  | ok a => exact hx
  | error e =>
    dsimp only at hx ⊢
    split_ifs at hx ⊢ <;> exact hx

theorem yields_ofExcept {σ : Type} {h : Outside σ} {s : σ} {x : Except Err α}
    {ok : α → σ → Prop} {err : Err → σ → Prop}
    (hok : ∀ a, x = .ok a → ok a s) (herr : ∀ e, x = .error e → err e s) :
    Yields h (Act.ofExcept x) s ok err := by
  cases x with
  | ok a => exact hok a rfl
  | error e => exact herr e rfl

/-- The shape of every guarded call: an answer, or a failure that changed nothing. -/
private theorem yields_guarded {call : Call} {valid : Bool} {a : α} {w₁ : World} {x : Act α}
    {ok : α → World → Prop} {err : Err → World → Prop}
    (hx : Program.exec env.answer x w = env.guarded w call valid (.ok a, w₁)) (hv : valid = true)
    (hok : env.fails w.tick call = false → ok a w₁)
    (hfail : env.fails w.tick call = true → err .outside w.next) :
    Yields env.answer x w ok err := by
  unfold Yields
  rw [hx]
  subst hv
  by_cases hf : env.fails w.tick call = true
  · rw [Env.guarded_fail hf]
    exact hfail hf
  · have hf' : env.fails w.tick call = false := by simpa using hf
    rw [Env.guarded_ok hf']
    exact hok hf'

/-- Exactly what a read does. -/
theorem get_exact {key : Key} (hv : validKey key = true) :
    Yields env.answer (Act.get key) w
      (fun r w' => r = w.store.lookup key ∧ w' = w.next ∧ env.fails w.tick (.get key) = false)
      (fun err w' => err = .outside ∧ w' = w.next ∧ env.fails w.tick (.get key) = true) := by
  refine yields_guarded (Act.exec_get _ key w) hv ?_ fun hf => ⟨rfl, rfl, hf⟩
  intro hf
  exact ⟨rfl, rfl, hf⟩

theorem get_spec {key : Key} (hv : validKey key = true) :
    Yields env.answer (Act.get key) w
      (fun r w' => r = w.store.lookup key ∧ w'.store = w.store ∧ Passed env 1 w w')
      (fun _ w' => Broke env 1 w w' Call.IsGet) := by
  refine (get_exact hv).mono ?_ ?_
  · rintro r w' ⟨hr, rfl, hf⟩
    exact ⟨hr, rfl, Passed.one hf rfl⟩
  · rintro err w' ⟨-, rfl, hf⟩
    exact ⟨rfl, 0, Nat.one_pos, _, ⟨key, rfl⟩, hf⟩

/-- Whether the key is valid or not, nothing is found or what the store holds. -/
theorem get_found {key : Key} :
    Yields env.answer (Act.get key) w
      (fun r w' => r = w.store.lookup key ∧ w'.store = w.store)
      (fun e _ => e = .outside ∨ e = .storage .invalidKey) := by
  unfold Yields
  rw [Act.exec_get]
  unfold Env.answer Env.guarded
  dsimp only
  split_ifs
  · exact .inl rfl
  · exact ⟨rfl, rfl⟩
  · exact .inr rfl

/-- A write that fails is told apart by the call and its number. -/
theorem put_exact {key : Key} {value : Bytes} (hv : validKey key = true) :
    Yields env.answer (Act.put key value) w
      (fun _ w' => w' = w.write (w.store.insert key value) ∧ env.fails w.tick (.put key value) = false)
      (fun _ w' => w' = w.next ∧ env.fails w.tick (.put key value) = true) := by
  refine yields_guarded (Act.exec_put _ key value w) hv ?_ fun hf => ⟨rfl, hf⟩
  intro hf
  exact ⟨rfl, hf⟩

theorem put_spec {key : Key} {value : Bytes} (hv : validKey key = true) :
    Yields env.answer (Act.put key value) w
      (fun _ w' => w'.store = w.store.insert key value ∧ w'.tick = w.tick + 1 ∧
        env.fails w.tick (.put key value) = false)
      (fun _ w' => w' = w.next ∧ env.fails w.tick (.put key value) = true) := by
  refine (put_exact hv).mono ?_ fun _ _ h => h
  rintro - w' ⟨rfl, hf⟩
  exact ⟨rfl, rfl, hf⟩

theorem delete_exact {key : Key} (hv : validKey key = true) :
    Yields env.answer (Act.delete key) w
      (fun _ w' => w' = w.write (w.store.erase key) ∧ env.fails w.tick (.delete key) = false)
      (fun _ w' => w' = w.next ∧ env.fails w.tick (.delete key) = true) := by
  refine yields_guarded (Act.exec_delete _ key w) hv ?_ fun hf => ⟨rfl, hf⟩
  intro hf
  exact ⟨rfl, hf⟩

theorem delete_spec {key : Key} (hv : validKey key = true) :
    Yields env.answer (Act.delete key) w
      (fun _ w' => w'.store = w.store.erase key ∧ Passed env 1 w w')
      (fun _ w' => Broke env 1 w w') := by
  refine (delete_exact hv).mono ?_ ?_
  · rintro - w' ⟨rfl, hf⟩
    exact ⟨rfl, Passed.one hf rfl⟩
  · rintro - w' ⟨rfl, hf⟩
    exact Broke.one hf

theorem list_spec {pfx : Key} (hv : validPrefix pfx = true) :
    Yields env.answer (Act.list pfx) w
      (fun r w' => r = w.store.list pfx ∧ w'.store = w.store ∧ Passed env 1 w w')
      (fun _ w' => Broke env 1 w w') := by
  refine yields_guarded (Act.exec_list _ pfx w) hv ?_ Broke.one
  intro hf
  exact ⟨rfl, rfl, Passed.one hf rfl⟩

theorem randRead_spec {n : Nat} :
    Yields env.answer (Act.randRead n) w
      (fun b w' => b = env.random w.tick n ∧ w'.store = w.store ∧ Passed env 1 w w')
      (fun _ w' => Broke env 1 w w') := by
  refine yields_guarded (Act.exec_randRead _ n w) rfl ?_ Broke.one
  intro hf
  exact ⟨rfl, rfl, Passed.one hf rfl⟩

theorem randInt_spec {bound : Nat} (hpos : 0 < bound) :
    Yields env.answer (Act.randInt bound) w
      (fun j w' => j.val = env.randomIndex w.tick % bound ∧ w'.store = w.store ∧
        Passed env 1 w w')
      (fun _ w' => Broke env 1 w w') := by
  have hx : Program.exec env.answer (Act.randInt bound) w = env.guarded w (.randInt bound) true
      (.ok ⟨env.randomIndex w.tick % bound, Nat.mod_lt _ hpos⟩, w.next) := by
    rw [Act.exec_randInt]
    simp only [Env.answer, dif_pos hpos]
  refine yields_guarded hx rfl ?_ Broke.one
  intro hf
  exact ⟨rfl, rfl, Passed.one hf rfl⟩

theorem now_spec :
    Yields env.answer Act.now w (fun t w' => t = env.clock w.tick ∧ w' = w.next)
      (fun _ _ => False) := ⟨rfl, rfl⟩

theorem wrap_spec {plaintext : Bytes} :
    Yields env.answer (Act.wrap plaintext) w
      (fun b w' => b = env.kms.wrapped w.tick plaintext ∧ w'.store = w.store ∧ Passed env 1 w w')
      (fun _ w' => Broke env 1 w w') := by
  refine yields_guarded (Act.exec_wrap _ plaintext w) rfl ?_ Broke.one
  intro hf
  exact ⟨rfl, rfl, Passed.one hf rfl⟩

/-- Unwrapping stores nothing, whatever it answers. -/
theorem unwrap_spec {wrapped : Bytes} :
    Yields env.answer (Act.unwrap wrapped) w
      (fun b w' => env.kms.unwrapped wrapped = some b ∧ w'.store = w.store)
      (fun _ w' => w'.store = w.store) := by
  unfold Yields
  rw [Act.exec_unwrap]
  unfold Env.answer Env.guarded
  dsimp only
  by_cases hf : env.fails w.tick (.unwrap wrapped) = true
  · rw [if_pos hf]
    rfl
  · rw [if_neg hf, if_pos rfl]
    cases hunwrapped : env.kms.unwrapped wrapped with
    | none => rfl
    | some b => exact ⟨rfl, rfl⟩

theorem acquireLock_spec :
    Yields env.answer Act.acquireLock w (fun _ w' => w'.store = w.store ∧ Passed env 1 w w')
      (fun _ w' => Broke env 1 w w') := by
  refine yields_guarded (Act.exec_acquireLock _ w) rfl ?_ Broke.one
  intro hf
  exact ⟨rfl, Passed.one hf rfl⟩

end Act

/-! ### An outside that works -/

namespace Env.Works

variable {env : Env} {w : World} (hworks : env.Works)
include hworks

theorem elim {t : Nat} {call : Call} {p : Prop} (hf : env.fails t call = true) : p := by
  rw [hworks t call] at hf
  cases hf

theorem get {key : Key} (hv : validKey key = true) :
    Yields env.answer (Act.get key) w (fun r w' => r = w.store.lookup key ∧ w' = w.next)
      (fun _ _ => False) :=
  (Act.get_exact hv).mono (fun _ _ h => ⟨h.1, h.2.1⟩) fun _ _ h => hworks.elim h.2.2

theorem put {key : Key} {value : Bytes} (hv : validKey key = true) :
    Yields env.answer (Act.put key value) w (fun _ w' => w' = w.write (w.store.insert key value))
      (fun _ _ => False) :=
  (Act.put_exact hv).mono (fun _ _ h => h.1) fun _ _ h => hworks.elim h.2

theorem delete {key : Key} (hv : validKey key = true) :
    Yields env.answer (Act.delete key) w (fun _ w' => w' = w.write (w.store.erase key))
      (fun _ _ => False) :=
  (Act.delete_exact hv).mono (fun _ _ h => h.1) fun _ _ h => hworks.elim h.2

/-- A read succeeds exactly if the key is valid. -/
theorem get_iff {key : Key} :
    Yields env.answer (Act.get key) w
      (fun r w' => validKey key = true ∧ r = w.store.lookup key ∧ w'.store = w.store)
      (fun _ _ => validKey key = false) := by
  unfold Yields
  rw [Act.exec_get]
  rcases Env.guarded_why env w (.get key) (validKey key) (.ok (w.store.lookup key), w.next) with
    ⟨h, hv⟩ | ⟨e, h, hf⟩
  · rw [Env.answer, h]
    exact ⟨hv, rfl, rfl⟩
  · rw [Env.answer, h]
    exact hf.resolve_left hworks.elim

/-- A write succeeds exactly if the key is valid. -/
theorem put_iff {key : Key} {value : Bytes} :
    Yields env.answer (Act.put key value) w
      (fun _ w' => validKey key = true ∧ w'.store = w.store.insert key value)
      (fun _ _ => validKey key = false) := by
  unfold Yields
  rw [Act.exec_put]
  rcases Env.guarded_why env w (.put key value) (validKey key)
    (.ok (), w.write (w.store.insert key value)) with ⟨h, hv⟩ | ⟨e, h, hf⟩
  · rw [Env.answer, h]
    exact ⟨hv, rfl⟩
  · rw [Env.answer, h]
    exact hf.resolve_left hworks.elim

end Env.Works

end UbixVault
