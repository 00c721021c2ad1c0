/-
A forwarded request is run at most once.

Only one frame at a time can still lead to the handlers being run: the one that is
at work, or the one whose peer has refused.  Call it hot.  A frame stops being hot
when it sends the request on, and becomes hot again only if the peer refused, which
then is hot no more.  Running the handlers ends it.  So `Hot` is passed around like
a token, whatever the replicas do and wherever connections break.
-/
import UbixVault.Cluster.Forward

namespace UbixVault.Cluster

/-! ### The hot frame -/

section Hot

variable {stages : Nat → Option Stage} {i j k : Nat} {a b : Stage} {c : Bool}

/-- A replica in this stage is at work on the request. -/
def Stage.live : Stage → Bool
  | .listener | .api | .loop | .pause => true
  | .proxied _ _ | .refused | .answered => false

/-- The frame is at work, or its peer has refused and it has not yet heard of it. -/
def Hot (stages : Nat → Option Stage) (i : Nat) : Prop :=
  (∃ a, stages i = some a ∧ a.live = true) ∨
    ∃ c peer, stages i = some (.proxied c peer) ∧ stages peer = some .refused

/-- At most one frame is hot; peers exist, and each has one frame waiting for it at most. -/
structure Single (stages : Nat → Option Stage) : Prop where
  unique : ∀ i j, Hot stages i → Hot stages j → i = j
  exist : ∀ i c peer, stages i = some (.proxied c peer) → stages peer ≠ none
  waiting : ∀ i j c d peer, stages i = some (.proxied c peer) → stages j = some (.proxied d peer) →
    i = j

/-- A frame other than the one that moved, to a stage that is no refusal, is as hot as before. -/
theorem Hot.of_update (h : Hot (Function.update stages i (some b)) k) (hk : k ≠ i)
    (hb : b ≠ .refused) : Hot stages k := by
  rcases h with ⟨a, ha, hlive⟩ | ⟨c, peer, hpeer, hrefused⟩
  · rw [Function.update_of_ne hk] at ha
    exact .inl ⟨a, ha, hlive⟩
  · rw [Function.update_of_ne hk] at hpeer
    by_cases hi : peer = i
    · rw [hi, Function.update_self, Option.some.injEq] at hrefused
      exact absurd hrefused hb
    · rw [Function.update_of_ne hi] at hrefused
      exact .inr ⟨c, peer, hpeer, hrefused⟩

/-- If the frame that moved refused, the one that waits for it may have become hot. -/
theorem Hot.of_refused (h : Hot (Function.update stages i (some .refused)) k) (hk : k ≠ i) :
    Hot stages k ∨ ∃ c, stages k = some (.proxied c i) := by
  rcases h with ⟨a, ha, hlive⟩ | ⟨c, peer, hpeer, hrefused⟩
  · rw [Function.update_of_ne hk] at ha
    exact .inl (.inl ⟨a, ha, hlive⟩)
  · rw [Function.update_of_ne hk] at hpeer
    by_cases hi : peer = i
    · exact .inr ⟨c, hi ▸ hpeer⟩
    · rw [Function.update_of_ne hi] at hrefused
      exact .inl (.inr ⟨c, peer, hpeer, hrefused⟩)

/-- A stage in which no peer is awaited keeps who waits for whom. -/
private theorem Single.links (h : Single stages) (i : Nat) (hb : ∀ c peer, b ≠ .proxied c peer) :
    (∀ k c peer, Function.update stages i (some b) k = some (.proxied c peer) →
      stages k = some (.proxied c peer)) ∧
    ∀ k c peer, Function.update stages i (some b) k = some (.proxied c peer) →
      Function.update stages i (some b) peer ≠ none := by
  have hback : ∀ k c peer, Function.update stages i (some b) k = some (.proxied c peer) →
      stages k = some (.proxied c peer) := by
    intro k c peer hk
    by_cases hki : k = i
    · rw [hki, Function.update_self, Option.some.injEq] at hk
      exact absurd hk (hb c peer)
    · rwa [Function.update_of_ne hki] at hk
  refine ⟨hback, fun k c peer hk => ?_⟩
  by_cases hpi : peer = i
  · rw [hpi, Function.update_self]
    exact Option.some_ne_none _
  · rw [Function.update_of_ne hpi]
    exact h.exist k c peer (hback k c peer hk)

/-- A hot frame goes on, or ends. -/
theorem Single.move (h : Single stages) (hot : Hot stages i)
    (hb : ∀ c peer, b ≠ .proxied c peer) (hrefused : b ≠ .refused) :
    Single (Function.update stages i (some b)) := by
  obtain ⟨hback, hexist⟩ := h.links i hb
  have hself : ∀ k, Hot (Function.update stages i (some b)) k → k = i := fun k hk =>
    by_contra fun hki => hki (h.unique k i (hk.of_update hki hrefused) hot)
  exact ⟨fun j k hj hk => (hself j hj).trans (hself k hk).symm, hexist, fun j k c d peer hj hk =>
    h.waiting j k c d peer (hback j c peer hj) (hback k d peer hk)⟩

/-- A hot frame refuses, and the frame that waits for it becomes hot. -/
theorem Single.refuse (h : Single stages) (hot : Hot stages i) :
    Single (Function.update stages i (some .refused)) := by
  obtain ⟨hback, hexist⟩ := h.links i (b := .refused) (by nofun)
  have hparent : ∀ k, Hot (Function.update stages i (some .refused)) k →
      ∃ c, stages k = some (.proxied c i) := by
    intro k hk
    have hki : k ≠ i := by
      rintro rfl
      rcases hk with ⟨a, ha, hlive⟩ | ⟨c, peer, hpeer, -⟩
      · rw [Function.update_self, Option.some.injEq] at ha
        subst ha
        cases hlive
      · rw [Function.update_self] at hpeer
        cases hpeer
    exact (hk.of_refused hki).resolve_left fun hhot => hki (h.unique k i hhot hot)
  refine ⟨fun j k hj hk => ?_, hexist, fun j k c d peer hj hk =>
    h.waiting j k c d peer (hback j c peer hj) (hback k d peer hk)⟩
  obtain ⟨c, hj⟩ := hparent j hj
  obtain ⟨d, hk⟩ := hparent k hk
  exact h.waiting j k c d i hj hk

/-- Who ends is not hot, and makes nobody hot. -/
theorem not_hot_of_answered (h : Hot (Function.update stages i (some .answered)) k) :
    k ≠ i ∧ Hot stages k := by
  have hki : k ≠ i := by
    rintro rfl
    rcases h with ⟨a, ha, hlive⟩ | ⟨c, peer, hpeer, -⟩
    · rw [Function.update_self, Option.some.injEq] at ha
      subst ha
      cases hlive
    · rw [Function.update_self] at hpeer
      cases hpeer
  exact ⟨hki, h.of_update hki (by nofun)⟩

/-- Any frame may end. -/
theorem Single.finish (h : Single stages) (i : Nat) :
    Single (Function.update stages i (some .answered)) := by
  obtain ⟨hback, hexist⟩ := h.links i (b := .answered) (by nofun)
  exact ⟨fun j k hj hk => h.unique j k (not_hot_of_answered hj).2 (not_hot_of_answered hk).2, hexist,
    fun j k c d peer hj hk => h.waiting j k c d peer (hback j c peer hj) (hback k d peer hk)⟩

/-- A hot frame sends the request on, and the new frame is the hot one. -/
theorem Single.send (h : Single stages) (hot : Hot stages i) (hi : stages i ≠ none)
    (hj : stages j = none) :
    Single (Function.update (Function.update stages i (some (.proxied c j))) j (some .listener)) := by
  have hij : i ≠ j := fun heq => hi (heq ▸ hj)
  -- frames that wait for a peer are the old ones, and the sender
  have hback : ∀ k d peer,
      Function.update (Function.update stages i (some (.proxied c j))) j (some .listener) k
        = some (.proxied d peer) → k = i ∧ peer = j ∨ k ≠ i ∧ stages k = some (.proxied d peer) := by
    intro k d peer hk
    by_cases hkj : k = j
    · rw [hkj, Function.update_self] at hk
      cases hk
    rw [Function.update_of_ne hkj] at hk
    by_cases hki : k = i
    · rw [hki, Function.update_self] at hk
      cases hk
      exact .inl ⟨hki, rfl⟩
    · rw [Function.update_of_ne hki] at hk
      exact .inr ⟨hki, hk⟩
  have hself : ∀ k, Hot (Function.update (Function.update stages i (some (.proxied c j))) j
      (some .listener)) k → k = j := by
    intro k hk
    by_contra hkj
    have hk' := hk.of_update hkj (by nofun)
    by_cases hki : k = i
    · subst hki
      rcases hk' with ⟨a, ha, hlive⟩ | ⟨d, peer, hpeer, hrefused⟩
      · rw [Function.update_self, Option.some.injEq] at ha
        subst ha
        cases hlive
      · rw [Function.update_self] at hpeer
        cases hpeer
        rw [Function.update_of_ne hij.symm, hj] at hrefused
        cases hrefused
    · exact hki (h.unique k i (hk'.of_update hki (by nofun)) hot)
  refine ⟨fun k l hk hl => (hself k hk).trans (hself l hl).symm, ?_, ?_⟩
  · intro k d peer hk
    by_cases hpj : peer = j
    · rw [hpj, Function.update_self]
      exact Option.some_ne_none _
    rw [Function.update_of_ne hpj]
    by_cases hpi : peer = i
    · rw [hpi, Function.update_self]
      exact Option.some_ne_none _
    rw [Function.update_of_ne hpi]
    rcases hback k d peer hk with ⟨-, hpeer⟩ | ⟨-, hold⟩
    · exact absurd hpeer hpj
    · exact h.exist k d peer hold
  · intro k l d e peer hk hl
    rcases hback k d peer hk with ⟨rfl, rfl⟩ | ⟨-, hold⟩
    · rcases hback l e _ hl with ⟨rfl, -⟩ | ⟨-, hold⟩
      · rfl
      · exact absurd hj (h.exist l e _ hold)
    · rcases hback l e peer hl with ⟨rfl, rfl⟩ | ⟨-, hold'⟩
      · exact absurd hj (h.exist k d _ hold)
      · exact h.waiting k l d e peer hold hold'

end Hot

/-! ### What a step can do -/

section Steps

variable {ρ : Type} {net : Network ρ} {req : Request} {s s' : System ρ}
  {e : Event ρ} {i : Nat}

/-- The stages of all frames. -/
def System.stages (s : System ρ) (i : Nat) : Option Stage := (s.frames[i]?).map Frame.stage

/-- A turn of a frame at work, other than entering the forwarder. -/
inductive Turn : Stage → Stage → Prop
  | accept : Turn .listener .api
  | refuse : Turn .listener .refused
  | answer {a : Stage} (ha : a = .api ∨ a = .loop ∨ a = .pause) : Turn a .answered
  | here : Turn .loop .api
  | wait : Turn .loop .pause
  | again : Turn .pause .loop

/-- What a step does to the frames, to what was sent and to what was run. -/
inductive Effect (req : Request) (s : System ρ) (e : Event ρ) (s' : System ρ) : Prop
  /-- No frame moves. -/
  | still (frames : s'.frames = s.frames) (sent : s'.sent = s.sent) (ran : s'.ran = s.ran)
  | turned {i : Nat} {f : Frame ρ} {b : Stage} (frame : s.frames[i]? = some f)
      (turn : Turn f.stage b) (frames : s'.frames = (s.setStage i b).frames)
      (sent : s'.sent = s.sent) (ran : s'.ran = s.ran)
  /-- The API hands the request to the forwarder. -/
  | forwarded {i : Nat} {f : Frame ρ} {admitted : Bool} (event : e = .api i admitted)
      (frame : s.frames[i]? = some f) (stage : f.stage = .api)
      (standby : (s.replicas f.replica).standby = true) (path : standbyEndpoint req.path = false)
      (frames : s'.frames = (s.setStage i .loop).frames) (sent : s'.sent = s.sent)
      (ran : s'.ran = s.ran)
  | ran {i : Nat} {f : Frame ρ} (frame : s.frames[i]? = some f) (stage : f.stage = .api)
      (frames : s'.frames = (s.setStage i .answered).frames) (sent : s'.sent = s.sent)
      (ran : s'.ran = f.replica :: s.ran)
  | sent {i : Nat} {f : Frame ρ} {c : Bool} {p : ρ} (frame : s.frames[i]? = some f)
      (stage : f.stage = .loop) (retries : c = true → req.bodyless = true)
      (frames : s'.frames
        = (s.setStage i (.proxied c s.frames.length)).frames ++ [⟨p, true, .listener⟩])
      (sent : s'.sent = (i, p) :: s.sent) (ran : s'.ran = s.ran)
  /-- The peer refused, and the loop goes on. -/
  | resumed {i peer : Nat} {f : Frame ρ} (frame : s.frames[i]? = some f)
      (stage : f.stage = .proxied true peer) (refused : s.stages peer = some .refused)
      (frames : s'.frames = (s.setStage i .pause).frames) (sent : s'.sent = s.sent)
      (ran : s'.ran = s.ran)
  | finished {i peer : Nat} {c : Bool} {f : Frame ρ} (frame : s.frames[i]? = some f)
      (stage : f.stage = .proxied c peer)
      (frames : s'.frames = (s.setStage i .answered).frames) (sent : s'.sent = s.sent)
      (ran : s'.ran = s.ran)

/-- What a forwarder remembers is no frame's business. -/
theorem forget_eq [DecidableEq ρ] (s : System ρ) (r : ρ) :
    (s.forget r).frames = s.frames ∧ (s.forget r).sent = s.sent ∧ (s.forget r).ran = s.ran := by
  unfold System.forget
  cases (s.replicas r).forwarder <;> exact ⟨rfl, rfl, rfl⟩

theorem setStage_frames {t : System ρ} (h : t.frames = s.frames) (i : Nat) (b : Stage) :
    (t.setStage i b).frames = (s.setStage i b).frames := by
  unfold System.setStage
  rw [h]

private theorem enterApi_effect {f : Frame ρ} {admitted : Bool} (hf : s.frames[i]? = some f)
    (hstage : f.stage = .api) :
    Effect req s (.api i admitted) (s.enterApi req i f.replica admitted) := by
  unfold System.enterApi
  split_ifs with hstandby hforwarder hadmitted
  · simp only [Bool.and_eq_true, Bool.not_eq_true'] at hstandby
    exact .forwarded rfl hf hstage hstandby.1 hstandby.2 rfl rfl rfl
  · exact .turned hf (hstage ▸ .answer (.inl rfl)) rfl rfl rfl
  · exact .ran hf hstage rfl rfl rfl
  · exact .turned hf (hstage ▸ .answer (.inl rfl)) rfl rfl rfl

private theorem sendTo_effect [DecidableEq ρ] {t : System ρ} {f : Frame ρ} {addr : Bytes}
    {early dialed : Bool} (ht : t.frames = s.frames ∧ t.sent = s.sent ∧ t.ran = s.ran)
    (hf : s.frames[i]? = some f) (hstage : f.stage = .loop) :
    Effect req s e (t.sendTo net req i f.replica addr early dialed) := by
  obtain ⟨hframes, hsent, hran⟩ := ht
  obtain ⟨hframes', hsent', hran'⟩ := forget_eq t f.replica
  unfold System.sendTo
  dsimp only
  split_ifs with hparses hdialed
  · refine .sent hf hstage (c := req.bodyless && early) (p := net.listens addr) ?_ ?_ ?_ hran
    · intro h
      exact (Bool.and_eq_true_iff.mp h).1
    · show (t.setStage i _).frames ++ _ = _
      rw [setStage_frames hframes, hframes]
    · show _ :: t.sent = _
      rw [hsent]
  · have hframes'' := setStage_frames (hframes'.trans hframes) i
      (afterError (req.bodyless && early) .dial)
    unfold afterError at hframes'' ⊢
    split_ifs at hframes'' ⊢
    · exact .turned hf (hstage ▸ .wait) hframes'' (hsent'.trans hsent) (hran'.trans hran)
    · exact .turned hf (hstage ▸ .answer (.inr (.inl rfl))) hframes'' (hsent'.trans hsent)
        (hran'.trans hran)
  · exact .turned hf (hstage ▸ .answer (.inr (.inl rfl))) (setStage_frames (hframes'.trans hframes) i _)
      (hsent'.trans hsent) (hran'.trans hran)

private theorem lookLeader_effect [DecidableEq ρ] {f : Frame ρ} {fw : Forwarder} {now later : Time}
    {leader : Except Err (Bytes × Bool)} {early dialed : Bool} (hf : s.frames[i]? = some f)
    (hstage : f.stage = .loop) :
    Effect req s e (s.lookLeader net req i f.replica fw now later leader early dialed) := by
  unfold System.lookLeader
  dsimp only
  split
  · exact .turned hf (hstage ▸ .here) rfl rfl rfl
  · exact sendTo_effect ⟨rfl, rfl, rfl⟩ hf hstage
  · exact .turned hf (hstage ▸ .wait) rfl rfl rfl

/-- **What a step can do.** -/
theorem step_effect [DecidableEq ρ] (h : s.step net req e = some s') : Effect req s e s' := by
  cases e with
  | change r sealed active =>
    cases h
    exact .still rfl rfl rfl
  | listener i =>
    unfold System.step at h
    dsimp only at h
    split at h
    · rename_i r forwarded hf
      cases h
      cases (s.replicas r).isActive with
      | true => exact .turned hf .accept rfl rfl rfl
      | false => exact .turned hf .refuse rfl rfl rfl
    · cases h
  | api i admitted =>
    unfold System.step at h
    dsimp only at h
    split at h
    · rename_i r forwarded hf
      cases h
      exact enterApi_effect hf rfl
    · cases h
  | leader i now later leader early dialed =>
    unfold System.step at h
    dsimp only at h
    split at h
    · rename_i r forwarded hf
      rw [Option.map_eq_some_iff] at h
      obtain ⟨fw, -, rfl⟩ := h
      exact lookLeader_effect hf rfl
    · cases h
  | pause i expired =>
    unfold System.step at h
    dsimp only at h
    split at h
    · rename_i r forwarded hf
      cases h
      cases expired with
      | true => exact .turned hf (.answer (.inr (.inr rfl))) rfl rfl rfl
      | false => exact .turned hf .again rfl rfl rfl
    · cases h
  | reply i =>
    unfold System.step at h
    dsimp only at h
    split at h
    · rename_i r forwarded canRetry peer hf
      obtain ⟨hframes, hsent, hran⟩ := forget_eq s r
      split at h
      · rename_i hpeer
        cases h
        cases canRetry with
        | true => exact .resumed hf rfl hpeer (setStage_frames hframes i _) hsent hran
        | false => exact .finished hf rfl (setStage_frames hframes i _) hsent hran
      · cases h
        exact .finished hf rfl rfl rfl rfl
      · cases h
    · cases h
  | broken i =>
    unfold System.step at h
    dsimp only at h
    split at h
    · rename_i r forwarded canRetry peer hf
      obtain ⟨hframes, hsent, hran⟩ := forget_eq s r
      cases h
      rw [show afterError canRetry .transport = .answered by cases canRetry <;> rfl]
      exact .finished hf rfl (setStage_frames hframes i _) hsent hran
    · cases h

/-! ### Every run -/

theorem getElem?_setStage {f : Frame ρ} (hf : s.frames[i]? = some f) (b : Stage) (k : Nat) :
    (s.setStage i b).frames[k]? = if k = i then some { f with stage := b } else s.frames[k]? := by
  unfold System.setStage
  rw [List.getElem?_modify]
  by_cases hk : k = i
  · subst hk
    simp [hf]
  · rw [if_neg hk]
    simp [Ne.symm hk]

theorem stages_setStage {f : Frame ρ} (hf : s.frames[i]? = some f) {b : Stage}
    (h : s'.frames = (s.setStage i b).frames) :
    s'.stages = Function.update s.stages i (some b) := by
  funext k
  unfold System.stages
  rw [h, getElem?_setStage hf, Function.update_apply]
  split_ifs <;> rfl

theorem stages_send {f : Frame ρ} {p : ρ} (hf : s.frames[i]? = some f) {b : Stage}
    (h : s'.frames = (s.setStage i b).frames ++ [⟨p, true, .listener⟩]) :
    s'.stages = Function.update (Function.update s.stages i (some b)) s.frames.length
      (some .listener) := by
  have hlength : (s.setStage i b).frames.length = s.frames.length := List.length_modify _ _ _
  have hset : (s.setStage i b).stages = Function.update s.stages i (some b) :=
    stages_setStage hf rfl
  funext k
  by_cases hk : k = s.frames.length
  · subst hk
    rw [Function.update_self, System.stages, h, List.getElem?_append_right hlength.le, hlength]
    simp
  · rw [Function.update_of_ne hk, ← hset]
    unfold System.stages
    rw [h]
    rcases Nat.lt_or_gt_of_ne hk with hlt | hgt
    · rw [List.getElem?_append_left (by omega)]
    · rw [List.getElem?_eq_none (by simp; omega), List.getElem?_eq_none (by omega)]

/-- At most one frame is hot, and none is once the handlers ran. -/
structure Once (s : System ρ) : Prop where
  single : Single s.stages
  ran : s.ran = [] ∨ s.ran.length = 1 ∧ ∀ i, ¬ Hot s.stages i

theorem stages_of_frame {f : Frame ρ} (hf : s.frames[i]? = some f) : s.stages i = some f.stage :=
  congrArg (Option.map Frame.stage) hf

theorem stages_ne_none {f : Frame ρ} (hf : s.frames[i]? = some f) : s.stages i ≠ none := by
  rw [stages_of_frame hf]
  exact Option.some_ne_none _

/-- While a frame is hot nothing was run. -/
theorem Once.ran_nil (h : Once s) (hot : Hot s.stages i) : s.ran = [] :=
  h.ran.resolve_right fun hran => hran.2 i hot

theorem Turn.hot {f : Frame ρ} {b : Stage} (h : Turn f.stage b) (hf : s.frames[i]? = some f) :
    Hot s.stages i := by
  refine .inl ⟨f.stage, stages_of_frame hf, ?_⟩
  generalize f.stage = a at h
  cases h with
  | answer ha => rcases ha with rfl | rfl | rfl <;> rfl
  | _ => rfl

theorem Single.turn {stages : Nat → Option Stage} {a b : Stage} (h : Single stages)
    (hot : Hot stages i) (hturn : Turn a b) : Single (Function.update stages i (some b)) := by
  cases hturn with
  | refuse => exact h.refuse hot
  | accept | answer | here | wait | again => exact h.move hot (by nofun) (by nofun)

theorem hot_of_live {f : Frame ρ} (hf : s.frames[i]? = some f) (h : f.stage.live = true) :
    Hot s.stages i := .inl ⟨f.stage, stages_of_frame hf, h⟩

/-- **Whatever a step does, at most one frame is hot after it.** -/
theorem Once.step (h : Once s) (heffect : Effect req s e s') : Once s' := by
  cases heffect with
  | still frames sent ran =>
    have hstages : s'.stages = s.stages := by
      unfold System.stages
      rw [frames]
    refine ⟨?_, ?_⟩
    · rw [hstages]
      exact h.single
    · rw [hstages, ran]
      exact h.ran
  | turned frame turn frames sent ran =>
    have hot := turn.hot frame
    refine ⟨?_, .inl (ran.trans (h.ran_nil hot))⟩
    rw [stages_setStage frame frames]
    exact h.single.turn hot turn
  | forwarded event frame stage standby path frames sent ran =>
    have hot := hot_of_live frame (stage ▸ rfl)
    refine ⟨?_, .inl (ran.trans (h.ran_nil hot))⟩
    rw [stages_setStage frame frames]
    exact h.single.move hot (by nofun) (by nofun)
  | ran frame stage frames sent ran =>
    have hot := hot_of_live frame (stage ▸ rfl)
    refine ⟨?_, .inr ⟨?_, fun k hk => ?_⟩⟩
    · rw [stages_setStage frame frames]
      exact h.single.finish _
    · rw [ran, h.ran_nil hot]
      rfl
    · rw [stages_setStage frame frames] at hk
      obtain ⟨hki, hk'⟩ := not_hot_of_answered hk
      exact hki (h.single.unique _ _ hk' hot)
  | sent frame stage retries frames sent ran =>
    have hot := hot_of_live frame (stage ▸ rfl)
    refine ⟨?_, .inl (ran.trans (h.ran_nil hot))⟩
    rw [stages_send frame frames]
    refine h.single.send hot (stages_ne_none frame) ?_
    simp [System.stages]
  | resumed frame stage refused frames sent ran =>
    have hot : Hot s.stages _ :=
      .inr ⟨true, _, (stages_of_frame frame).trans (congrArg some stage), refused⟩
    refine ⟨?_, .inl (ran.trans (h.ran_nil hot))⟩
    rw [stages_setStage frame frames]
    exact h.single.move hot (by nofun) (by nofun)
  | finished frame stage frames sent ran =>
    refine ⟨?_, ?_⟩
    · rw [stages_setStage frame frames]
      exact h.single.finish _
    · rw [ran, stages_setStage frame frames]
      exact h.ran.imp_right fun hran => ⟨hran.1, fun k hk => hran.2 k (not_hot_of_answered hk).2⟩

theorem once_arrive (replicas : ρ → Replica) (r : ρ) : Once (System.arrive replicas r) := by
  have hstages : ∀ k a, (System.arrive replicas r).stages k = some a → k = 0 ∧ a = .api := by
    intro k a h
    cases k with
    | zero =>
      cases h
      exact ⟨rfl, rfl⟩
    | succ k => cases h
  have hself : ∀ k, Hot (System.arrive replicas r).stages k → k = 0 := by
    rintro k (⟨a, ha, -⟩ | ⟨c, peer, hpeer, -⟩)
    · exact (hstages k a ha).1
    · exact (hstages k _ hpeer).1
  refine ⟨⟨fun j k hj hk => (hself j hj).trans (hself k hk).symm, ?_, ?_⟩, .inl rfl⟩
  · intro k c peer h
    cases (hstages k _ h).2
  · intro j k c d peer h
    cases (hstages j _ h).2

theorem once_run [DecidableEq ρ] {allowed : System ρ → Event ρ → Prop} {replicas : ρ → Replica} {r : ρ}
    (h : Run.Reachable (System.Step net req) allowed (.arrive replicas r) s) : Once s :=
  h.invariant (once_arrive replicas r) fun _ _ _ hs _ hstep => hs.step (step_effect hstep)

/-! ### Runs in which no forwarded request finds a standby -/

/-- The stages of a request that is served where it arrived. -/
def Stage.serving : Stage → Bool
  | .listener | .api | .refused | .answered => true
  | .loop | .pause | .proxied _ _ => false

/-- Only the replica that the client talks to forwards the request. -/
structure Served (req : Request) (s : System ρ) : Prop where
  forwarded : ∀ (i : Nat) (f : Frame ρ), s.frames[i]? = some f → f.forwarded = true → f.stage.serving = true
  first : ∀ (i : Nat) (f : Frame ρ), s.frames[i]? = some f → f.forwarded = false → i = 0
  senders : ∀ i p, (i, p) ∈ s.sent → ∃ f, s.frames[i]? = some f ∧ f.forwarded = false
  retries : ∀ (i : Nat) (f : Frame ρ) c peer, s.frames[i]? = some f → f.stage = .proxied c peer → c = true →
    req.bodyless = true
  once : req.bodyless = false → s.sent ≠ [] → s.sent.length = 1 ∧
    ∀ f : Frame ρ, s.frames[0]? = some f → (∃ c peer, f.stage = .proxied c peer) ∨ f.stage = .answered

/-- A frame after one of the frames has changed its stage. -/
theorem of_setStage {f g : Frame ρ} {b : Stage} {k : Nat} (hf : s.frames[i]? = some f)
    (hg : (s.setStage i b).frames[k]? = some g) :
    k = i ∧ g = { f with stage := b } ∨ k ≠ i ∧ s.frames[k]? = some g := by
  rw [getElem?_setStage hf] at hg
  split_ifs at hg with hk
  · exact .inl ⟨hk, (Option.some.inj hg).symm⟩
  · exact .inr ⟨hk, hg⟩

/-- What is left of `Served` when one frame changes its stage and nothing is sent. -/
private theorem Served.set (h : Served req s) {f : Frame ρ} {b : Stage}
    (hf : s.frames[i]? = some f) (hframes : s'.frames = (s.setStage i b).frames)
    (hsent : s'.sent = s.sent) (hb : ∀ c peer, b ≠ .proxied c peer)
    (hserving : f.forwarded = true → b.serving = true)
    (honce : req.bodyless = false → s.sent ≠ [] → i = 0 → b = .answered) : Served req s' where
  forwarded k g hg hforwarded := by
    rw [hframes] at hg
    rcases of_setStage hf hg with ⟨rfl, rfl⟩ | ⟨-, hold⟩
    · exact hserving hforwarded
    · exact h.forwarded k g hold hforwarded
  first k g hg hforwarded := by
    rw [hframes] at hg
    rcases of_setStage hf hg with ⟨rfl, rfl⟩ | ⟨-, hold⟩
    · exact h.first _ f hf hforwarded
    · exact h.first k g hold hforwarded
  senders k p hp := by
    rw [hsent] at hp
    obtain ⟨g, hg, hforwarded⟩ := h.senders k p hp
    rw [hframes, getElem?_setStage hf]
    split_ifs with hk
    · subst hk
      rw [hf, Option.some.injEq] at hg
      exact ⟨_, rfl, hg ▸ hforwarded⟩
    · exact ⟨g, hg, hforwarded⟩
  retries k g c peer hg hstage hc := by
    rw [hframes] at hg
    rcases of_setStage hf hg with ⟨rfl, rfl⟩ | ⟨-, hold⟩
    · exact absurd hstage (hb c peer)
    · exact h.retries k g c peer hold hstage hc
  once hbody hne := by
    rw [hsent] at hne ⊢
    refine ⟨(h.once hbody hne).1, fun g hg => ?_⟩
    rw [hframes] at hg
    rcases of_setStage hf hg with ⟨hi, rfl⟩ | ⟨-, hold⟩
    · exact .inr (honce hbody hne hi.symm)
    · exact (h.once hbody hne).2 g hold

/-- Once a request with a body was sent, its first frame is not at work. -/
private theorem Served.not_first (h : Served req s) {f : Frame ρ} (hf : s.frames[i]? = some f)
    (hlive : f.stage.live = true) (hbody : req.bodyless = false) (hne : s.sent ≠ []) : i ≠ 0 := by
  rintro rfl
  rcases (h.once hbody hne).2 f hf with ⟨c, peer, hstage⟩ | hstage
  · rw [hstage] at hlive
    cases hlive
  · rw [hstage] at hlive
    cases hlive

/-- The replica that the client talks to sends the request. -/
private theorem Served.send (h : Served req s) {f : Frame ρ} {c : Bool} {p : ρ}
    (hf : s.frames[i]? = some f) (hstage : f.stage = .loop)
    (hretries : c = true → req.bodyless = true)
    (hframes : s'.frames
      = (s.setStage i (.proxied c s.frames.length)).frames ++ [⟨p, true, .listener⟩])
    (hsent : s'.sent = (i, p) :: s.sent) : Served req s' := by
  have hlocal : f.forwarded = false := by
    by_contra hforwarded
    have hserving := h.forwarded i f hf (by simpa using hforwarded)
    rw [hstage] at hserving
    cases hserving
  have hi : i = 0 := h.first i f hf hlocal
  -- a frame afterwards is the sender's, the new one, or an old one
  have hcases : ∀ k (g : Frame ρ), s'.frames[k]? = some g →
      k = i ∧ g = { f with stage := .proxied c s.frames.length } ∨
        s.frames[k]? = some g ∧ k ≠ i ∨ k = s.frames.length ∧ g = ⟨p, true, .listener⟩ := by
    intro k g hg
    rw [hframes, List.getElem?_append] at hg
    split_ifs at hg with hk
    · rcases of_setStage hf hg with hsender | ⟨hne, hold⟩
      · exact .inl hsender
      · exact .inr (.inl ⟨hold, hne⟩)
    · have hlength : (s.setStage i (.proxied c s.frames.length)).frames.length = s.frames.length :=
        List.length_modify _ _ _
      rw [hlength] at hg hk
      rw [List.getElem?_singleton] at hg
      split_ifs at hg with hzero
      · exact .inr (.inr ⟨by omega, (Option.some.inj hg).symm⟩)
  have hsender : s'.frames[i]? = some { f with stage := .proxied c s.frames.length } := by
    have hlt : i < s.frames.length := (List.getElem?_eq_some_iff.mp hf).1
    have hlength : (s.setStage i (.proxied c s.frames.length)).frames.length = s.frames.length :=
      List.length_modify _ _ _
    rw [hframes, List.getElem?_append_left (by omega), getElem?_setStage hf, if_pos rfl]
  refine ⟨?_, ?_, ?_, ?_, ?_⟩
  · intro k g hg hforwarded
    rcases hcases k g hg with ⟨-, rfl⟩ | ⟨hold, -⟩ | ⟨-, rfl⟩
    · exact absurd (hlocal.symm.trans hforwarded) Bool.false_ne_true
    · exact h.forwarded k g hold hforwarded
    · rfl
  · intro k g hg hforwarded
    rcases hcases k g hg with ⟨rfl, -⟩ | ⟨hold, -⟩ | ⟨-, rfl⟩
    · exact hi
    · exact h.first k g hold hforwarded
    · cases hforwarded
  · intro k q hq
    have hk : k = 0 := by
      rw [hsent] at hq
      rcases List.mem_cons.mp hq with heq | hold
      · cases heq
        exact hi
      · obtain ⟨g, hg, hforwarded⟩ := h.senders k q hold
        exact h.first k g hg hforwarded
    refine ⟨{ f with stage := .proxied c s.frames.length }, ?_, hlocal⟩
    rw [hk, ← hi]
    exact hsender
  · intro k g d peer hg hproxied hd
    rcases hcases k g hg with ⟨-, rfl⟩ | ⟨hold, -⟩ | ⟨-, rfl⟩
    · cases hproxied
      exact hretries hd
    · exact h.retries k g d peer hold hproxied hd
    · cases hproxied
  · intro hbody _
    have hnone : s.sent = [] := by
      by_contra hne
      exact h.not_first hf (hstage ▸ rfl) hbody hne hi
    refine ⟨by rw [hsent, hnone]; rfl, fun g hg => ?_⟩
    rw [← hi, hsender, Option.some.injEq] at hg
    exact .inl ⟨c, s.frames.length, (congrArg Frame.stage hg).symm⟩

theorem Turn.live {a b : Stage} (h : Turn a b) : a.live = true := by
  cases h with
  | answer ha => rcases ha with rfl | rfl | rfl <;> rfl
  | accept | refuse | here | wait | again => rfl

theorem Turn.serving {a b : Stage} (h : Turn a b) (ha : a.serving = true) : b.serving = true := by
  cases h with
  | answer | accept | refuse | here => rfl
  | wait | again => exact ha

theorem Turn.ne_proxied {a b : Stage} (h : Turn a b) (c : Bool) (peer : Nat) :
    b ≠ .proxied c peer := by
  cases h <;> nofun

theorem Served.step (h : Served req s) (hallowed : s.reforwards req e = false)
    (heffect : Effect req s e s') : Served req s' := by
  cases heffect with
  | still frames sent ran =>
    obtain ⟨hforwarded, hfirst, hsenders, hretries, honce⟩ := h
    rw [← frames] at hforwarded hfirst hsenders hretries honce
    rw [← sent] at hsenders honce
    exact ⟨hforwarded, hfirst, hsenders, hretries, honce⟩
  | turned frame turn frames sent ran =>
    exact h.set frame frames sent turn.ne_proxied
      (fun hforwarded => turn.serving (h.forwarded _ _ frame hforwarded))
      fun hbody hne hi => absurd hi (h.not_first frame turn.live hbody hne)
  | @forwarded i f admitted event frame stage standby path frames sent ran =>
    refine h.set frame frames sent (by nofun) (fun hforwarded => ?_)
      fun hbody hne hi => absurd hi (h.not_first frame (stage ▸ rfl) hbody hne)
    simp [event, System.reforwards, frame, hforwarded, standby, path] at hallowed
  | ran frame stage frames sent ran =>
    exact h.set frame frames sent (by nofun) (fun _ => rfl) fun _ _ _ => rfl
  | sent frame stage retries frames sent ran => exact h.send frame stage retries frames sent
  | @resumed i peer f frame stage refused frames sent ran =>
    have hretry := h.retries _ _ _ _ frame stage rfl
    refine h.set frame frames sent (by nofun) (fun hforwarded => ?_) fun hbody => ?_
    · have hserving := h.forwarded _ _ frame hforwarded
      rw [stage] at hserving
      cases hserving
    · rw [hretry] at hbody
      cases hbody
  | finished frame stage frames sent ran =>
    exact h.set frame frames sent (by nofun) (fun _ => rfl) fun _ _ _ => rfl

theorem served_arrive (req : Request) (replicas : ρ → Replica) (r : ρ) :
    Served req (System.arrive replicas r) := by
  have honly : ∀ (k : Nat) (f : Frame ρ), (System.arrive replicas r).frames[k]? = some f →
      k = 0 ∧ f = ⟨r, false, .api⟩ := by
    intro k f h
    cases k with
    | zero =>
      cases h
      exact ⟨rfl, rfl⟩
    | succ k => cases h
  refine ⟨?_, fun k f h _ => (honly k f h).1, fun _ _ h => (by cases h), ?_, fun _ h => absurd rfl h⟩
  · intro k f h hforwarded
    rw [(honly k f h).2] at hforwarded
    cases hforwarded
  · intro k f c peer h hstage
    rw [(honly k f h).2] at hstage
    cases hstage

theorem served_run [DecidableEq ρ] {replicas : ρ → Replica} {r : ρ}
    (h : Run.Reachable (System.Step net req) (fun s e => s.reforwards req e = false)
      (.arrive replicas r) s) : Served req s :=
  h.invariant (served_arrive req replicas r) fun _ _ _ hs hallowed hstep =>
    hs.step hallowed (step_effect hstep)

end Steps

section Results

variable {ρ : Type} [DecidableEq ρ] (net : Network ρ) (req : Request) (replicas : ρ → Replica)
  (r : ρ) (s : System ρ)

/--
**A client's request is run at most once, by one replica**, whatever the replicas do
and whichever connections fail.

If moreover no request that came over a cluster listener finds on entering the API
that its replica has become a standby, then a request with a body is sent to a peer
at most once by any replica.
-/
theorem forwarded_at_most_once :
    (Run.Reachable (System.Step net req) (fun _ _ => True) (.arrive replicas r) s →
      s.ran.length ≤ 1) ∧
    (Run.Reachable (System.Step net req) (fun s e => s.reforwards req e = false)
        (.arrive replicas r) s →
      req.bodyless = false → ∀ p, s.sentBy p ≤ 1) := by
  constructor
  · intro h
    rcases (once_run h).ran with hnone | hone
    · rw [hnone]
      exact Nat.zero_le _
    · exact hone.1.le
  · intro h hbody p
    have hle : s.sentBy p ≤ s.sent.length := List.countP_le_length
    by_cases hne : s.sent = []
    · rw [hne] at hle
      exact hle.trans (Nat.zero_le _)
    · exact hle.trans ((served_run h).once hbody hne).1.le

/--
**A request that came over a cluster listener is served there or refused**, and not
sent to another replica, in every run in which no such request finds on entering the
API that its replica has become a standby.
-/
theorem forwarded_never_again
    (h : Run.Reachable (System.Step net req) (fun s e => s.reforwards req e = false)
      (.arrive replicas r) s) (i : Nat) (f : Frame ρ) (hf : s.frames[i]? = some f)
    (hforwarded : f.forwarded = true) :
    (f.stage = .listener ∨ f.stage = .api ∨ f.stage = .refused ∨ f.stage = .answered) ∧
      ∀ p, (i, p) ∉ s.sent := by
  have hserved := served_run h
  refine ⟨?_, fun p hp => ?_⟩
  · have hserving := hserved.forwarded i f hf hforwarded
    revert hserving
    cases f.stage <;> simp [Stage.serving]
  · obtain ⟨g, hg, hlocal⟩ := hserved.senders i p hp
    rw [hf, Option.some.injEq] at hg
    rw [hg, hlocal] at hforwarded
    cases hforwarded

end Results

/-! ### Two replicas that exchange the lock -/

/-- The first replica, `false`, listens at `[0]`, the second at `[1]`. -/
def pair : Network Bool := ⟨fun _ => true, fun addr => addr == [1]⟩

/-- The second replica is active, the first a standby. -/
def pairReplicas (r : Bool) : Replica := ⟨true, false, r, some ⟨[], false, 0, true⟩⟩

/-- A client writes a secret. -/
def writeRequest : Request := ⟨str "/v1/secret/a", false⟩

/-- The standby forwards the request and the active replica runs it. -/
def handedOver : List (Event Bool) :=
  [.api 0 true, .leader 0 0 0 (.ok ([1], false)) true true, .listener 1, .api 1 true]

/-- The active replica loses the lock between the two checks and sends the request back. -/
def sentBack : List (Event Bool) :=
  [.api 0 true, .leader 0 0 0 (.ok ([1], false)) true true, .listener 1,
   .change true false false, .change false false true,
   .api 1 true, .leader 1 0 0 (.ok ([0], false)) true true]

/-- The first replica loses the lock in turn, and forwards the request a second time. -/
def sentTwice : List (Event Bool) :=
  sentBack ++ [.listener 2, .change false false false, .change true false true,
    .api 2 true, .leader 2 0 0 (.ok ([1], false)) true true]

/-- Where the events lead, if all of them are possible and allowed. -/
def pairRun (allowed : System Bool → Event Bool → Prop) [∀ s e, Decidable (allowed s e)]
    (events : List (Event Bool)) : Option (System Bool) :=
  Run.path (fun s e => (System.step pair writeRequest s e).attach) allowed
    (.arrive pairReplicas false) events

theorem exists_of_pairRun {γ : Type} {allowed : System Bool → Event Bool → Prop}
    [∀ s e, Decidable (allowed s e)] {events : List (Event Bool)} {see : System Bool → γ} {seen : γ}
    (h : (pairRun allowed events).map see = some seen) :
    ∃ s, Run.Reachable (System.Step pair writeRequest) allowed (.arrive pairReplicas false) s ∧
      see s = seen :=
  Run.Reachable.exists_of_path h

/-- A replica sends a request with a body twice. -/
theorem body_sent_twice :
    ∃ s, Run.Reachable (System.Step pair writeRequest) (fun _ _ => True)
      (.arrive pairReplicas false) s ∧ writeRequest.bodyless = false ∧ s.sentBy false = 2 := by
  have hrun : (pairRun (fun _ _ => True) sentTwice).map (System.sentBy · false) = some 2 := by
    decide +kernel
  obtain ⟨s, hreach, htwice⟩ := exists_of_pairRun hrun
  exact ⟨s, hreach, rfl, htwice⟩

/-- A request with a body is forwarded once, and run once. -/
theorem forwarded_at_most_once_pair :
    ∃ s, Run.Reachable (System.Step pair writeRequest)
      (fun s e => s.reforwards writeRequest e = false) (.arrive pairReplicas false) s ∧
      s.ran = [true] ∧ s.sentBy false = 1 ∧ s.ran.length ≤ 1 ∧ ∀ p, s.sentBy p ≤ 1 := by
  have hrun : (pairRun (fun s e => s.reforwards writeRequest e = false) handedOver).map
      (fun s => (s.ran, s.sentBy false)) = some ([true], 1) := by decide +kernel
  obtain ⟨s, hreach, hs⟩ := exists_of_pairRun hrun
  obtain ⟨hran, hsent⟩ := Prod.mk.inj hs
  obtain ⟨honce, hbody⟩ := forwarded_at_most_once pair writeRequest pairReplicas false s
  exact ⟨s, hreach, hran, hsent, honce (hreach.mono fun _ _ _ => trivial), hbody hreach rfl⟩

/-- A request that came over the cluster listener is sent to another replica. -/
theorem forwarded_again :
    ∃ s f, Run.Reachable (System.Step pair writeRequest) (fun _ _ => True)
      (.arrive pairReplicas false) s ∧ s.frames[1]? = some f ∧ f.forwarded = true ∧
      (1, false) ∈ s.sent := by
  have hrun : (pairRun (fun _ _ => True) sentBack).map
      (fun s => ((s.frames[1]?).map Frame.forwarded, s.sent)) = some
        (some true, [(1, false), (0, true)]) := by
    decide +kernel
  obtain ⟨s, hreach, hsent⟩ := exists_of_pairRun hrun
  rw [Prod.mk.injEq, Option.map_eq_some_iff] at hsent
  obtain ⟨⟨f, hf, hforwarded⟩, hsent⟩ := hsent
  refine ⟨s, f, hreach, hf, hforwarded, ?_⟩
  rw [hsent]
  exact List.mem_cons_self

/-- The forwarded request that the active replica runs is not sent on. -/
theorem forwarded_never_again_pair :
    ∃ s f, Run.Reachable (System.Step pair writeRequest)
      (fun s e => s.reforwards writeRequest e = false) (.arrive pairReplicas false) s ∧
      s.frames[1]? = some f ∧ f.forwarded = true ∧ s.ran = [true] ∧ ∀ p, (1, p) ∉ s.sent := by
  have hrun : (pairRun (fun s e => s.reforwards writeRequest e = false) handedOver).map
      (fun s => ((s.frames[1]?).map Frame.forwarded, s.ran)) = some (some true, [true]) := by
    decide +kernel
  obtain ⟨s, hreach, hran⟩ := exists_of_pairRun hrun
  rw [Prod.mk.injEq, Option.map_eq_some_iff] at hran
  obtain ⟨⟨f, hf, hforwarded⟩, hran⟩ := hran
  exact ⟨s, f, hreach, hf, hforwarded, hran,
    (forwarded_never_again pair writeRequest pairReplicas false s hreach 1 f hf hforwarded).2⟩

end UbixVault.Cluster
