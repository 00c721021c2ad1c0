/-
The seal of a Shamir vault, over every history of calls.

`Phase` relates the shares that were handed out to what is stored: nothing yet, a
keyring whose shares nobody got, or shares that fit both the keyring and the
configuration.  While the configuration can be written, every call leads from a phase
to a phase.  Each time shares are handed out their key has been drawn anew.
Together with the bookkeeping of the shares received this decides who can unseal
the vault: a quorum of the last shares handed out, and nobody else.
-/
import UbixVault.Proofs.Core.Machine

namespace UbixVault

open Program Shamir

variable {P : Platform} {env : Env} {s : VaultState}

/-! ### Storage that works -/

def Call.IsStorage : Call → Prop
  | .get _ | .put _ _ | .delete _ | .list _ => True
  | _ => False

/-- The storage never fails; a random source may. -/
def Env.StorageWorks (env : Env) : Prop := ∀ t call, call.IsStorage → env.fails t call = false

theorem Env.Works.storageWorks (h : env.Works) : env.StorageWorks := fun t call _ => h t call

theorem Env.StorageWorks.get (h : env.StorageWorks) (t : Nat) (key : Key) :
    env.fails t (.get key) = false := h t _ trivial

theorem Env.StorageWorks.put (h : env.StorageWorks) (t : Nat) (key : Key) (value : Bytes) :
    env.fails t (.put key value) = false := h t _ trivial

theorem Env.StorageWorks.not_faulted (h : env.StorageWorks) {n : Nat} {w : World} :
    ¬ Faulted env n w Call.IsGet := by
  rintro ⟨i, -, call, ⟨key, rfl⟩, hfails⟩
  rw [h.get] at hfails
  exact Bool.false_ne_true hfails

/-- The configuration can always be written. -/
def Env.ConfigWrites (env : Env) : Prop :=
  ∀ t value, env.fails t (.put sealConfigPath value) = false

theorem Env.StorageWorks.configWrites (h : env.StorageWorks) : env.ConfigWrites :=
  fun t value => h.put t sealConfigPath value

/-! ### Phases -/

/-- The barrier holds no key other than `B`. -/
def Barrier.Holds (b : Barrier) (B : CipherKey) : Prop := ∀ k, b.aead = some k → k = B

/-- An issue whose shares were dealt, whatever became of their secret. -/
def Issue.Dealt (issue : Issue) (key : CipherKey) : Prop :=
  Shamir.Dealt key.val issue.threshold.toNat issue.keys ∧ 2 ≤ issue.threshold

/-- The phases of a Shamir vault, by the issues so far. -/
inductive Phase (P : Platform) : List Issue → Barrier → Store → Prop
  | empty {b : Barrier} {store : Store} (keyring : store.lookup keyringPath = none)
      (config : store.lookup sealConfigPath = none) (sealed : b.aead = none) :
      Phase P [] b store
  | stranded {b : Barrier} {store : Store} {K B : CipherKey} (wraps : Wraps P.aead store K B)
      (config : store.lookup sealConfigPath = none) (holds : b.Holds B) :
      Phase P [] b store
  | issued {b : Barrier} {store : Store} {K B : CipherKey} {older : List Issue} {issue : Issue}
      {shares : Int} (issued : Issued P store K B shares issue.threshold issue.keys)
      (holds : b.Holds B) (superseded : ∀ old ∈ older, ∃ key, old.Dealt key) :
      Phase P (older ++ [issue]) b store

theorem Issued.congr {store store' : Store} {K B : CipherKey} {shares threshold : Int}
    {keys : List Share} (h : Issued P store K B shares threshold keys)
    (hkeyring : store'.lookup keyringPath = store.lookup keyringPath)
    (hconfig : store'.lookup sealConfigPath = store.lookup sealConfigPath) :
    Issued P store' K B shares threshold keys :=
  ⟨h.wraps.congr hkeyring, (storedConfig_congr hconfig).trans h.config, h.valid, h.dealt, h.length⟩

theorem Issued.issue_dealt {store : Store} {K B : CipherKey} {shares : Int} {issue : Issue}
    (h : Issued P store K B shares issue.threshold issue.keys) : issue.Dealt K :=
  ⟨h.dealt, (validShares_iff.mp h.valid).2.2.1⟩

/-- A vault whose shares were issued has a keyring. -/
theorem Issued.coherent {K B : CipherKey} {shares threshold : Int} {keys : List Share}
    (h : Issued P s.world.store K B shares threshold keys) : s.Coherent := by
  intro hnone
  have hsome := h.wraps.lookup_isSome
  rw [hnone] at hsome
  cases hsome

theorem storedConfig_of_lookup {store : Store} (h : store.lookup sealConfigPath = none) :
    storedConfig P store = none := by
  unfold storedConfig
  rw [h]
  rfl

/-- What was split is issued once the configuration is written too. -/
theorem Replaced.issued {w : World} {attempt : RekeyAttempt} {st : RekeyStatus} {err : Option Err}
    {old : Bytes} {K K' B : CipherKey} {barrierKey : Bytes} {store' : Store}
    (h : Replaced P env w attempt st err old K' barrierKey store') (hw : Wraps P.aead w.store K B)
    (hconfig : storedConfig P store'
      = some (shamirConfig attempt.newShares attempt.newThreshold)) :
    Issued P store' K' B attempt.newShares attempt.newThreshold st.keys := by
  have htwo := (validShares_iff.mp h.valid).2.2.1
  obtain rfl : barrierKey = B.val := (hw.opensKeyring_iff.mp h.opens).2
  exact ⟨h.lookup_keyring, hconfig, h.valid, h.split.dealt htwo, h.split.length⟩

/-- A rekey reports an error only if the configuration could not be written. -/
theorem Replaced.err_eq (hwrites : env.ConfigWrites) {w : World} {attempt : RekeyAttempt}
    {st : RekeyStatus} {err : Option Err} {old : Bytes} {K' : CipherKey} {barrierKey : Bytes}
    {store' : Store} (h : Replaced P env w attempt st err old K' barrierKey store') :
    err = none := by
  obtain ⟨nonce, -, hwrite⟩ := h.stored
  cases hwrite with
  | written => rfl
  | failed failed =>
    rw [hwrites] at failed
    cases failed

namespace Phase

variable {handed : List Issue} {b b' : Barrier} {store store' : Store}

/-- A phase depends on two records, and a barrier may be sealed in it. -/
theorem congr (h : Phase P handed b store) (hb : ∀ k, b'.aead = some k → b.aead = some k)
    (hkeyring : store'.lookup keyringPath = store.lookup keyringPath)
    (hconfig : store'.lookup sealConfigPath = store.lookup sealConfigPath) :
    Phase P handed b' store' := by
  cases h with
  | empty keyring config sealed =>
    refine .empty (hkeyring.trans keyring) (hconfig.trans config) ?_
    cases hb' : b'.aead with
    | none => rfl
    | some k =>
      rw [hb k hb'] at sealed
      cases sealed
  | stranded wraps config holds =>
    exact .stranded (wraps.congr hkeyring) (hconfig.trans config) fun k hk => holds k (hb k hk)
  | issued issued holds superseded =>
    exact .issued (issued.congr hkeyring hconfig) (fun k hk => holds k (hb k hk)) superseded

/-- What the keyring opens to is the one key the barrier may hold. -/
theorem opened (h : Phase P handed b store) {key : Bytes} {B : CipherKey}
    (hopens : OpensKeyring P.aead store key B.val) : Phase P handed ⟨some B⟩ store := by
  have hholds : ∀ {K B' : CipherKey}, Wraps P.aead store K B' →
      Barrier.Holds ⟨some B⟩ B' := by
    intro K B' hw k hk
    cases hk
    exact Subtype.ext (hw.opensKeyring_iff.mp hopens).2
  cases h with
  | empty keyring config sealed =>
    exact absurd ⟨_, hopens⟩ (not_isMasterKey_of_lookup keyring)
  | stranded wraps config holds => exact .stranded wraps config (hholds wraps)
  | issued issued holds superseded => exact .issued issued (hholds issued.wraps) superseded

theorem eq_empty (h : Phase P handed b store) (hfresh : store.lookup keyringPath = none) :
    handed = [] ∧ store.lookup sealConfigPath = none := by
  cases h with
  | empty keyring config sealed => exact ⟨rfl, config⟩
  | stranded wraps config holds => exact ⟨rfl, config⟩
  | issued issued holds superseded =>
    have hsome := issued.wraps.lookup_isSome
    rw [hfresh] at hsome
    cases hsome

theorem sealed_of_fresh (h : Phase P handed b store) (hfresh : store.lookup keyringPath = none) :
    b.sealed = true := by
  cases h with
  | empty keyring config sealed => simp [Barrier.sealed, sealed]
  | stranded wraps config holds =>
    have hsome := wraps.lookup_isSome
    rw [hfresh] at hsome
    cases hsome
  | issued issued holds superseded =>
    have hsome := issued.wraps.lookup_isSome
    rw [hfresh] at hsome
    cases hsome

theorem wraps_of_unsealed (h : Phase P handed b store) {k : CipherKey} (hk : b.aead = some k) :
    ∃ K B, Wraps P.aead store K B ∧ b.Holds B := by
  cases h with
  | empty keyring config sealed =>
    rw [hk] at sealed
    cases sealed
  | stranded wraps config holds => exact ⟨_, _, wraps, holds⟩
  | issued issued holds superseded => exact ⟨_, _, issued.wraps, holds⟩

/-- Where a configuration is stored, shares were handed out. -/
theorem exists_issue (h : Phase P handed b store) {cfg : SealConfig}
    (hconfig : storedConfig P store = some cfg) : ∃ older issue, handed = older ++ [issue] := by
  cases h with
  | empty keyring config sealed =>
    rw [storedConfig_of_lookup config] at hconfig
    cases hconfig
  | stranded wraps config holds =>
    rw [storedConfig_of_lookup config] at hconfig
    cases hconfig
  | issued issued holds superseded => exact ⟨_, _, rfl⟩

/-- The new shares and the new configuration belong together once both are written. -/
theorem replaced (hwrites : env.ConfigWrites) {w : World} (h : Phase P handed b w.store)
    {cfg : SealConfig} {attempt : RekeyAttempt} {st : RekeyStatus} {err : Option Err}
    {old : Bytes} {K' : CipherKey} {barrierKey : Bytes}
    (hconfig : storedConfig P w.store = some cfg)
    (hdone : Replaced P env w attempt st err old K' barrierKey store') :
    Phase P (handed ++ [⟨st.keys, attempt.newThreshold⟩]) b store' := by
  have hnone : w.store.lookup sealConfigPath ≠ none := by
    intro hnone
    rw [storedConfig_of_lookup hnone] at hconfig
    cases hconfig
  cases h with
  | empty keyring config sealed => exact absurd config hnone
  | stranded wraps config holds => exact absurd config hnone
  | @issued _ _ K B older issue shares issued holds superseded =>
    refine .issued (hdone.issued issued.wraps ?_) holds ?_
    · obtain ⟨nonce, -, hwrite⟩ := hdone.stored
      cases hwrite with
      | written passed => exact storedConfig_insert _ _
      | failed failed =>
        rw [hwrites] at failed
        cases failed
    · intro old' hold'
      rcases List.mem_append.mp hold' with hmem | hmem
      · exact superseded old' hmem
      · rw [List.mem_singleton.mp hmem]
        exact ⟨K, issued.issue_dealt⟩

end Phase

/-- **Every call leads from a phase to a phase.** -/
theorem Move.phase (hwrites : env.ConfigWrites) {e : Event} {handed : List Issue}
    (h : Move P env e) (hmode : e.before.core.autoSeal = none)
    (hphase : Phase P handed e.before.core.barrier e.before.world.store) :
    Phase P (handed ++ e.issue.toList) e.after.core.barrier e.after.world.store := by
  cases h with
  | kept store barrier issue =>
    rw [issue, store, Option.toList_none, List.append_nil]
    refine hphase.congr ?_ rfl rfl
    intro k hk
    rcases barrier with hb | hb
    · rwa [hb] at hk
    · rw [hb] at hk
      cases hk
  | opened store opens barrier means issue =>
    rw [issue, store, barrier, Option.toList_none, List.append_nil]
    exact hphase.opened opens
  | stored dataKey others barrier touches issue =>
    rw [issue, barrier, Option.toList_none, List.append_nil]
    exact hphase.congr (fun k hk => hk)
      (others _ (dataKey.ne_of_reserved reserved_keyringPath).symm)
      (others _ (dataKey.ne_of_reserved reserved_sealConfigPath).symm)
  | stranded fresh left issue =>
    obtain ⟨rfl, hconfig⟩ := hphase.eq_empty fresh
    rw [issue]
    refine .stranded left.wraps (left.config.trans hconfig) ?_
    rcases left.core with hcore | ⟨hauto, -⟩
    · rw [hcore]
      intro k hk
      cases hk
    · rw [hmode] at hauto
      cases hauto
  | started fresh started answer issue =>
    obtain ⟨rfl, -⟩ := hphase.eq_empty fresh
    rw [issue]
    generalize e.after.core = c' at started ⊢
    cases started with
    | shamir mode noRecovery issued =>
      show Phase P ([] ++ [_]) _ _
      exact .issued issued (fun k hk => by cases hk) fun _ h => by cases h
    | auto mode noKeys recoverable =>
      rw [hmode] at mode
      cases mode
  | replaced config inProgress barrier done issue =>
    rw [issue, barrier]
    exact hphase.replaced hwrites config done

/-! ### Keys are drawn anew -/

/-- Each issue was dealt from a draw made after the earlier ones, and all before call `n`. -/
inductive DealtFrom (env : Env) : List Issue → (n : Nat) → Prop
  | none {n : Nat} : DealtFrom env [] n
  | next {handed : List Issue} {issue : Issue} {n t n' : Nat} (earlier : DealtFrom env handed n)
      (since : n ≤ t) (before : t < n') (dealt : issue.Dealt (env.random t masterKeySize)) :
      DealtFrom env (handed ++ [issue]) n'

namespace DealtFrom

variable {handed : List Issue} {n n' : Nat}

theorem mono (h : DealtFrom env handed n) (hle : n ≤ n') : DealtFrom env handed n' := by
  cases h with
  | none => exact .none
  | next earlier since before dealt => exact .next earlier since (lt_of_lt_of_le before hle) dealt

theorem exists_draw (h : DealtFrom env handed n) {issue : Issue} (hissue : issue ∈ handed) :
    ∃ t < n, issue.Dealt (env.random t masterKeySize) := by
  induction h with
  | none => cases hissue
  | next earlier since before dealt ih =>
    rcases List.mem_append.mp hissue with hmem | hmem
    · obtain ⟨t, ht, hdealt⟩ := ih hmem
      exact ⟨t, by omega, hdealt⟩
    · rw [List.mem_singleton.mp hmem]
      exact ⟨_, before, dealt⟩

/-- The last issue has a later draw than the others. -/
theorem last {older : List Issue} {issue : Issue} (h : DealtFrom env (older ++ [issue]) n) :
    ∃ t < n, issue.Dealt (env.random t masterKeySize) ∧
      ∀ old ∈ older, ∃ t' < t, old.Dealt (env.random t' masterKeySize) := by
  generalize hhanded : older ++ [issue] = handed at h
  cases h with
  | none => simp at hhanded
  | next earlier since before dealt =>
    obtain ⟨rfl, hlast⟩ := List.append_inj' hhanded rfl
    cases hlast
    refine ⟨_, before, dealt, fun old hold => ?_⟩
    obtain ⟨t', ht', hdealt⟩ := earlier.exists_draw hold
    exact ⟨t', by omega, hdealt⟩

end DealtFrom

/-- Shares come from the key that a call has drawn. -/
theorem Move.dealtFrom {e : Event} {handed : List Issue} (h : Move P env e)
    (hmode : e.before.core.autoSeal = none) (ht : e.before.world.tick ≤ e.after.world.tick)
    (hdealt : DealtFrom env handed e.before.world.tick) :
    DealtFrom env (handed ++ e.issue.toList) e.after.world.tick := by
  have hnone : e.issue = none → DealtFrom env (handed ++ e.issue.toList) e.after.world.tick := by
    intro hissue
    rw [hissue, Option.toList_none, List.append_nil]
    exact hdealt.mono ht
  cases h with
  | kept store barrier issue => exact hnone issue
  | opened store opens barrier means issue => exact hnone issue
  | stored dataKey others barrier touches issue => exact hnone issue
  | stranded fresh left issue => exact hnone issue
  | started fresh started answer issue drawn =>
    obtain ⟨t, hle, hlt, rfl⟩ := drawn
    rw [issue]
    generalize e.after.core = c' at started
    cases started with
    | shamir mode noRecovery issued =>
      exact .next hdealt hle hlt ⟨issued.dealt, (validShares_iff.mp issued.valid).2.2.1⟩
    | auto mode noKeys recoverable =>
      rw [hmode] at mode
      cases mode
  | replaced config inProgress barrier done issue answer drawn =>
    obtain ⟨t, hle, hlt, rfl⟩ := drawn
    have htwo := (validShares_iff.mp done.valid).2.2.1
    rw [issue]
    exact .next hdealt hle hlt ⟨done.split.dealt htwo, htwo⟩

/-! ### The shares received -/

theorem receive_of_nil {received : List Share} {e : Event} (h : e.after.core.progress = []) :
    receive received e = [] := if_pos h

theorem receive_of_ne_nil {received : List Share} {e : Event} (h : e.after.core.progress ≠ [])
    (hcall : ∀ share answer, e.call = .unsealShare share → e.result ≠ .ok answer) :
    receive received e = received := by
  unfold receive
  rw [if_neg h]
  split
  · rename_i share answer hcall' hresult
    exact absurd hresult (hcall share answer hcall')
  · rfl

/-- While nothing is sealed, nothing has been gathered. -/
def Core.Idle (c : Core) : Prop := c.barrier.sealed = false → c.progress = []

/-- What a core keeps through a call, as far as unsealing goes. -/
structure Gathers (e : Event) : Prop where
  progress : e.after.core.progress = receive e.before.core.progress e
  idle : e.after.core.Idle

/-- A call that leaves the progress alone, and is no share received, keeps the books. -/
private theorem Gathers.of_kept {e : Event}
    (hprogress : e.after.core.progress = e.before.core.progress)
    (hcall : ∀ share answer, e.call = .unsealShare share → e.result ≠ .ok answer)
    (hidle : e.after.core.Idle) : Gathers e := by
  refine ⟨?_, hidle⟩
  by_cases hnil : e.after.core.progress = []
  · rw [receive_of_nil hnil, hnil]
  · rw [receive_of_ne_nil hnil hcall, hprogress]

theorem Core.idle_of_sealed {c : Core} (h : c.barrier.sealed = true) : c.Idle := by
  intro hopen
  rw [h] at hopen
  cases hopen

theorem StepOutcome.gathers {call : VaultCall} {result : Except Err Answer} {s' : VaultState}
    (h : StepOutcome P env s call result s') (hmode : s.core.autoSeal = none)
    (hidle : s.core.Idle) : Gathers ⟨s, call, result, s'⟩ := by
  cases h with
  | init outcome answer =>
    cases outcome with
    | refused halted => exact .of_kept rfl (by rintro _ _ ⟨⟩) hidle
    | stranded fresh left =>
      rcases left.core with hcore | ⟨hauto, -⟩
      · subst hcore
        exact .of_kept rfl (by rintro _ _ ⟨⟩) (Core.idle_of_sealed rfl)
      · rw [hmode] at hauto
        cases hauto
    | started fresh started =>
      cases started with
      | shamir mode noRecovery issued =>
        exact .of_kept rfl (by rintro _ _ ⟨⟩) (Core.idle_of_sealed rfl)
      | auto mode noKeys recoverable =>
        rw [hmode] at mode
        cases mode
  | unsealed outcome answer =>
    subst answer
    cases outcome with
    | refused store => exact .of_kept rfl (fun _ _ _ h => by cases h) hidle
    | already store unsealed =>
      have hnil := hidle unsealed
      exact ⟨by rw [receive_of_nil hnil, hnil], hidle⟩
    | gathered store sealed config few =>
      refine ⟨?_, Core.idle_of_sealed sealed⟩
      unfold receive
      rw [if_neg (gather_ne_nil _ _)]
      rfl
    | unsealed store => exact ⟨(receive_of_nil rfl).symm, fun _ => rfl⟩
    | failed store => exact ⟨(receive_of_nil rfl).symm, fun _ => rfl⟩
  | sealed => exact ⟨(receive_of_nil rfl).symm, fun _ => rfl⟩
  | autoUnsealed mode store opens =>
    rw [hmode] at mode
    cases mode
  | rekeyed outcome answer =>
    cases outcome <;> exact .of_kept rfl (by rintro _ _ ⟨⟩) hidle
  | rootUpdated outcome answer =>
    cases outcome <;> exact .of_kept rfl (by rintro _ _ ⟨⟩) hidle
  | _ => exact .of_kept rfl (by rintro _ _ ⟨⟩) hidle

/-! ### Every history -/

/-- What holds of a Shamir vault after the events `es`. -/
structure Reached (P : Platform) (env : Env) (es : List Event) (s : VaultState) : Prop where
  mode : s.core.autoSeal = none
  phase : Phase P (issues es) s.core.barrier s.world.store
  dealt : DealtFrom env (issues es) s.world.tick
  progress : s.core.progress = receivedShares es
  nodup : s.core.progress.Nodup
  idle : s.core.Idle

namespace Reached

variable {es : List Event}

theorem coherent (h : Reached P env es s) : s.Coherent := h.phase.sealed_of_fresh

theorem outcome (h : Reached P env es s) (call : VaultCall) :
    StepOutcome P env s call (s.step P env call).result (s.step P env call).after :=
  step_outcome P env h.coherent call

theorem move (h : Reached P env es s) (call : VaultCall) : Move P env (s.step P env call) :=
  (h.outcome call).move

theorem issues_step (call : VaultCall) :
    issues (es ++ [s.step P env call]) = issues es ++ (s.step P env call).issue.toList := by
  unfold issues
  rw [List.filterMap_append]
  cases hissue : (s.step P env call).issue <;> simp [hissue]

/-- One more call. -/
theorem step (hstorage : env.StorageWorks) (h : Reached P env es s) (call : VaultCall) :
    Reached P env (es ++ [s.step P env call]) (s.step P env call).after := by
  have hgathers : Gathers (s.step P env call) := (h.outcome call).gathers h.mode h.idle
  have hprogress : (s.step P env call).after.core.progress
      = receive s.core.progress (s.step P env call) := hgathers.progress
  refine ⟨(h.outcome call).autoSeal_eq.trans h.mode, ?_, ?_, ?_, ?_, hgathers.idle⟩
  · rw [issues_step]
    exact (h.move call).phase hstorage.configWrites h.mode h.phase
  · rw [issues_step]
    exact (h.move call).dealtFrom h.mode (Env.tick_le_run _ s.world) h.dealt
  · rw [hprogress, h.progress, receivedShares, receivedShares, List.foldl_append]
    rfl
  · rw [hprogress]
    unfold receive
    split
    · exact List.nodup_nil
    · split
      · exact nodup_gather h.nodup _
      · exact h.nodup

end Reached

/-- **Every history of a Shamir vault keeps its books.** -/
theorem reached_run (hstorage : env.StorageWorks) (ha : Bool) (tick : Nat)
    (calls : List VaultCall) :
    Reached P env ((VaultState.blank none ha tick).events P env calls)
      ((VaultState.blank none ha tick).after P env calls) := by
  refine Run.holds ?_ (fun es s call h => h.step hstorage call) calls
  exact ⟨rfl, .empty (Finmap.lookup_empty _) (Finmap.lookup_empty _) rfl, .none, rfl,
    List.nodup_nil, fun _ => rfl⟩

end UbixVault
