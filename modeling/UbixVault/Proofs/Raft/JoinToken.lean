/-
A join token is redeemed at most once.

Over the log this is a fact about one key: it is minted once, it is spent once, and
what was spent or forgotten stays so.  A node may be behind or ahead of the log while
it catches up; by the time it answers a proposal it is at the fold, since a replay
makes up for whatever part of its range was there before.
-/
import UbixVault.Proofs.Basic
import UbixVault.Proofs.Raft.Replay
import UbixVault.Raft.JoinToken

namespace UbixVault.Raft

variable {ι : Type} {J : Json} {T : TokenCrypto} {cs : List Command} {key : Key}

variable {cmd : Command} {kv : Store}

/-! ### Keys of tokens -/

theorem tokenKey_tokenOf {secret : Bytes} (hsecret : secret.length = 32) :
    tokenKey T (tokenOf T secret) = some (tokenPrefix ++ hexEncode (T.sum256 secret)) := by
  simp [tokenKey, tokenOf, T.base64.unmarshal_marshal, hsecret]

theorem checkKey_tokenKey (secret : Bytes) (hsecret : secret.length = 32) :
    checkKey (tokenPrefix ++ hexEncode (T.sum256 secret)) = true := by
  have hlength := T.length_sum256 secret hsecret
  have hvalid := validKey_append_hexEncode (a := str "raft-internal/join-token")
    (b := T.sum256 secret) (by decide_cbv) (by
      intro hnil
      rw [hnil] at hlength
      cases hlength)
  have hsplit : tokenPrefix ++ hexEncode (T.sum256 secret)
      = str "raft-internal/join-token" ++ slash :: hexEncode (T.sum256 secret) := by
    have : tokenPrefix = str "raft-internal/join-token" ++ [slash] := by decide_cbv
    rw [this, List.append_assoc, List.singleton_append]
  have hshort : (hexEncode (T.sum256 secret)).length = 64 := by
    simp [hexEncode, List.length_flatMap, hlength]
  have hpfx : tokenPrefix.length = 25 := by decide_cbv
  rw [← hsplit] at hvalid
  simp [checkKey, hvalid, hshort, hpfx, maxKeyLen]

theorem tokenKey_spec {token : Bytes} (h : tokenKey T token = some key) :
    tokenPrefix <+: key ∧ checkKey key = true := by
  unfold tokenKey at h
  split_ifs at h
  split at h
  · cases h
  · next secret _ =>
    split_ifs at h with hlength
    rw [not_not] at hlength
    cases h
    exact ⟨List.prefix_append _ _, checkKey_tokenKey _ hlength⟩

/-- What the backend proposes: ordinary writes keep away from tokens. -/
inductive Proposed (T : TokenCrypto) : Command → Prop
  | write (c : Command) (hop : c.op = .put ∨ c.op = .delete) (hkey : ¬ tokenPrefix <+: c.key)
      (hcheck : checkKey c.key = true) : Proposed T c
  | mint (secret : Bytes) (now ttl : Time) (hsecret : secret.length = 32) :
      Proposed T ⟨.tokenMint, tokenPrefix ++ hexEncode (T.sum256 secret),
        encodeTokenRecord tokenFresh (expires now ttl), int64 now⟩
  | burn (key : Key) (now : Time) (hkey : tokenPrefix <+: key) (hcheck : checkKey key = true) :
      Proposed T ⟨.tokenBurn, key, [], int64 now⟩

theorem proposed_of_command {r : Request} (h : Request.command T r = .ok cmd)
    (hsecret : ∀ secret now ttl, r = .mintJoinToken secret now ttl → secret.length = 32) :
    Proposed T cmd := by
  have hholder : ¬ tokenPrefix <+: holderKey ∧ checkKey holderKey = true := by decide +kernel
  cases r with
  | put k value =>
    dsimp only [Request.command] at h
    split_ifs at h with hcheck hpfx
    cases h
    exact .write _ (.inl rfl) hpfx (by simpa using hcheck)
  | delete k =>
    dsimp only [Request.command] at h
    split_ifs at h with hcheck hpfx
    cases h
    exact .write _ (.inr rfl) hpfx (by simpa using hcheck)
  | mintJoinToken secret now ttl =>
    have hlength := hsecret secret now ttl rfl
    dsimp only [Request.command] at h
    rw [tokenKey_tokenOf hlength] at h
    cases h
    exact .mint secret now ttl hlength
  | redeemJoinToken token now =>
    dsimp only [Request.command] at h
    cases htoken : tokenKey T token with
    | none =>
      rw [htoken] at h
      cases h
    | some k =>
      rw [htoken] at h
      cases h
      obtain ⟨hpfx, hcheck⟩ := tokenKey_spec htoken
      exact .burn k now hpfx hcheck
  | claim record =>
    cases h
    exact .write _ (.inl rfl) hholder.1 hholder.2
  | release =>
    cases h
    exact .write _ (.inr rfl) hholder.1 hholder.2

theorem Proposed.checkKey (h : Proposed T cmd) : Raft.checkKey cmd.key = true := by
  cases h with
  | write _ _ _ hcheck => exact hcheck
  | mint secret _ _ hsecret => exact checkKey_tokenKey _ hsecret
  | burn _ _ _ hcheck => exact hcheck

/-! ### The life of one record -/

/-- Spent or forgotten. -/
def Dead (value : Option Bytes) : Prop :=
  value = none ∨ ∃ expiry, value = some (encodeTokenRecord tokenSpent expiry)

/-- The command mints a token with this key. -/
def Mints (key : Key) (c : Command) : Prop := c.op = .tokenMint ∧ c.key = key

theorem spend_dead {now : Time} {value : Option Bytes} (h : Dead value) : spend now value = value := by
  rcases h with rfl | ⟨expiry, rfl⟩
  · rfl
  · simp [spend]

/-- A command that does not mint the token keeps, spends or forgets its record. -/
theorem act_token {c : Command} (value : Option Bytes) (hc : Proposed T c) (hkey : tokenPrefix <+: key)
    (hmint : ¬ Mints key c) :
    c.act key value = value ∨ c.act key value = none ∨
      c.op = .tokenBurn ∧ c.key = key ∧ c.act key value = spend c.now value := by
  cases hc with
  | write c hop hnot _ =>
    have hne : key ≠ c.key := by
      rintro rfl
      exact hnot hkey
    refine .inl ?_
    rcases hop with hop | hop <;> simp [Command.act, hop, hne]
  | mint secret now ttl _ =>
    have hne : key ≠ tokenPrefix ++ hexEncode (T.sum256 secret) := by
      rintro rfl
      exact hmint ⟨rfl, rfl⟩
    unfold Command.act
    dsimp only
    rw [if_neg hne, if_pos hkey, forget]
    split_ifs
    · exact .inr (.inl rfl)
    · exact .inl rfl
  | burn k now _ _ =>
    by_cases heq : key = k
    · subst heq
      exact .inr (.inr ⟨rfl, rfl, by simp [Command.act]⟩)
    · exact .inl (by simp [Command.act, heq])

/-- **What is dead stays dead.** -/
theorem act_dead {c : Command} {value : Option Bytes} (hc : Proposed T c) (hkey : tokenPrefix <+: key)
    (hmint : ¬ Mints key c) (hdead : Dead value) : Dead (c.act key value) := by
  rcases act_token value hc hkey hmint with h | h | ⟨-, -, h⟩
  · rwa [h]
  · exact .inl h
  · rw [h, spend_dead hdead]
    exact hdead

/-- The log holds proposals of the backend, and no token is minted twice. -/
structure Sound (T : TokenCrypto) (cs : List Command) : Prop where
  proposed : ∀ c ∈ cs, Proposed T c
  mint_once : ∀ (key : Key) (k k' : Nat) (c c' : Command), cs[k]? = some c → cs[k']? = some c' →
    Mints key c → Mints key c' → k = k'

/-- The value at a key after the first commands. -/
abbrev valueAt (cs : List Command) (n : Nat) (key : Key) : Option Bytes := actAll (cs.take n) key none

theorem valueAt_succ {n : Nat} {c : Command} (hc : cs[n]? = some c) :
    valueAt cs (n + 1) key = c.act key (valueAt cs n key) := by
  rw [valueAt, List.take_add_one, hc, Option.toList_some, actAll_append]
  rfl

theorem valueAt_succ_of_none {n : Nat} (hc : cs[n]? = none) :
    valueAt cs (n + 1) key = valueAt cs n key := by
  rw [valueAt, List.take_add_one, hc, Option.toList_none, List.append_nil]

/-- Before its mint a token has no record. -/
theorem valueAt_eq_none {n : Nat} (hsound : ∀ c ∈ cs, Proposed T c) (hkey : tokenPrefix <+: key)
    (hmint : ∀ k < n, ∀ c, cs[k]? = some c → ¬ Mints key c) : valueAt cs n key = none := by
  induction n with
  | zero => rfl
  | succ n ih =>
    have hbefore := ih fun k hk => hmint k (Nat.lt_succ_of_lt hk)
    cases hc : cs[n]? with
    | none => rw [valueAt_succ_of_none hc, hbefore]
    | some c =>
      rw [valueAt_succ hc, hbefore]
      rcases act_token none (hsound c (List.mem_of_getElem? hc)) hkey
        (hmint n (Nat.lt_succ_self n) c hc) with h | h | ⟨-, -, h⟩
      · exact h
      · exact h
      · exact h

section Minted

variable {q n : Nat} {m : Command} (hsound : Sound T cs) (hkey : tokenPrefix <+: key)
  (hm : cs[q]? = some m) (hmint : Mints key m)
include hsound hkey hm hmint

omit hkey in
/-- A command after the mint of a token keeps, spends or forgets its record. -/
theorem act_after_mint {c : Command} (hqn : q < n) (hc : cs[n]? = some c) :
    Proposed T c ∧ ¬ Mints key c :=
  ⟨hsound.proposed c (List.mem_of_getElem? hc), fun hmint' =>
    absurd (hsound.mint_once key q n m c hm hc hmint hmint') (Nat.ne_of_lt hqn)⟩

/-- **Once dead, always dead.** -/
theorem dead_mono {j : Nat} (hqj : q < j) (hjn : j ≤ n) (hdead : Dead (valueAt cs j key)) :
    Dead (valueAt cs n key) := by
  induction n, hjn using Nat.le_induction with
  | base => exact hdead
  | succ n hjn ih =>
    cases hc : cs[n]? with
    | none => rwa [valueAt_succ_of_none hc]
    | some c =>
      rw [valueAt_succ hc]
      obtain ⟨hproposed, hnot⟩ :=
        act_after_mint hsound hm hmint (lt_of_lt_of_le hqj hjn) hc
      exact act_dead hproposed hkey hnot ih

/-- After its mint the record is as it was minted, or dead. -/
theorem minted_or_dead (hqn : q < n) : valueAt cs n key = some m.value ∨ Dead (valueAt cs n key) := by
  induction n, hqn using Nat.le_induction with
  | base =>
    rw [valueAt_succ hm]
    exact .inl (by simp [Command.act, hmint.1, hmint.2])
  | succ n hqn ih =>
    rcases ih with ih | ih
    · cases hc : cs[n]? with
      | none => rw [valueAt_succ_of_none hc]; exact .inl ih
      | some c =>
        rw [valueAt_succ hc, ih]
        obtain ⟨hproposed, hnot⟩ := act_after_mint hsound hm hmint hqn hc
        rcases act_token (some m.value) hproposed hkey hnot with h | h | ⟨-, -, h⟩
        · exact .inl h
        · exact .inr (.inl h)
        · rw [h]
          unfold spend
          split
          · exact .inl rfl
          · split_ifs
            · exact .inl rfl
            · exact .inl rfl
            · exact .inr (.inr ⟨_, rfl⟩)
    · exact .inr (dead_mono hsound hkey hm hmint hqn (Nat.le_succ n) ih)

end Minted

/-- The answer to a burn: the record is alive and not expired, and is spent by it. -/
theorem burn_answer {c : Command} (hop : c.op = .tokenBurn) (h : (c.apply kv).2 = none) :
    ∃ state expiry, (kv.lookup c.key).bind decodeTokenRecord = some (state, expiry) ∧
      state ≠ tokenSpent ∧ c.now ≤ expiry ∧
      c.act c.key (kv.lookup c.key) = some (encodeTokenRecord tokenSpent expiry) := by
  unfold Command.apply at h
  rw [hop] at h
  dsimp only at h
  cases hrec : (kv.lookup c.key).bind decodeTokenRecord with
  | none =>
    rw [hrec] at h
    cases h
  | some r =>
    obtain ⟨state, expiry⟩ := r
    rw [hrec] at h
    dsimp only at h
    split_ifs at h with hspent hlate
    have hnow : c.now ≤ expiry := not_lt.mp hlate
    refine ⟨state, expiry, rfl, hspent, hnow, ?_⟩
    simp [Command.act, hop, spend_of_decode hrec, hspent, hnow]

/-- A burn at this place of the log is answered with success. -/
def Redeems (cs : List Command) (n : Nat) (key : Key) (c : Command) : Prop :=
  cs[n]? = some c ∧ c.op = .tokenBurn ∧ c.key = key ∧ (c.apply (applyAll (cs.take n) ∅)).2 = none

/-- **A burn that succeeds** comes after the mint, in time, while the record is alive, and kills it. -/
theorem Redeems.spec {n : Nat} {c : Command} (hsound : Sound T cs) (h : Redeems cs n key c) :
    ∃ q < n, ∃ secret now ttl,
      cs[q]? = some ⟨.tokenMint, key, encodeTokenRecord tokenFresh (expires now ttl), int64 now⟩ ∧
      key = tokenPrefix ++ hexEncode (T.sum256 secret) ∧ secret.length = 32 ∧
      c.now ≤ expires now ttl ∧
      valueAt cs n key = some (encodeTokenRecord tokenFresh (expires now ttl)) ∧
      Dead (valueAt cs (n + 1) key) := by
  obtain ⟨hc, hop, rfl, hanswer⟩ := h
  obtain ⟨state, expiry, hrec, hspent, hnow, hact⟩ := burn_answer hop hanswer
  rw [lookup_applyAll_empty] at hrec hact
  have hkey : tokenPrefix <+: c.key := by
    cases hsound.proposed c (List.mem_of_getElem? hc) with
    | write _ hwrite _ _ => simp [hop] at hwrite
    | mint => cases hop
    | burn _ _ hkey _ => exact hkey
  -- There is a record, so there was a mint.
  have hminted : ∃ q < n, ∃ m, cs[q]? = some m ∧ Mints c.key m := by
    by_contra hnot
    push Not at hnot
    rw [show actAll (cs.take n) c.key none = none from
      valueAt_eq_none hsound.proposed hkey fun q hq m hm => hnot q hq m hm] at hrec
    cases hrec
  obtain ⟨q, hqn, m, hm, hmint⟩ := hminted
  have halive : valueAt cs n c.key = some m.value := by
    refine (minted_or_dead hsound hkey hm hmint hqn).resolve_right ?_
    rintro (hdead | ⟨e, hdead⟩)
    · rw [show actAll (cs.take n) c.key none = none from hdead] at hrec
      cases hrec
    · rw [show actAll (cs.take n) c.key none = _ from hdead, Option.bind_some,
        decodeTokenRecord_encodeTokenRecord] at hrec
      cases hrec
      exact hspent rfl
  have hdead : Dead (valueAt cs (n + 1) c.key) := by
    rw [valueAt_succ hc]
    exact .inr ⟨expiry, hact⟩
  cases hsound.proposed m (List.mem_of_getElem? hm) with
  | write _ hwrite _ _ => simp [hmint.1] at hwrite
  | burn => cases hmint.1
  | mint secret now ttl hsecret =>
    have hkeys : tokenPrefix ++ hexEncode (T.sum256 secret) = c.key := hmint.2
    rw [show actAll (cs.take n) c.key none = _ from halive, Option.bind_some,
      decodeTokenRecord_encodeTokenRecord] at hrec
    cases hrec
    rw [hkeys] at hm
    refine ⟨q, hqn, secret, now, ttl, hm, hkeys.symm, hsecret, ?_, halive, hdead⟩
    rwa [expires, int64_int64] at hnow

/-- **A token is redeemed once.** -/
theorem Redeems.unique {n n' : Nat} {c c' : Command} (hsound : Sound T cs) (h : Redeems cs n key c)
    (h' : Redeems cs n' key c') : n = n' := by
  wlog hlt : n < n' generalizing n n' c c'
  · rcases Nat.lt_or_eq_of_le (not_lt.mp hlt) with hlt | heq
    · exact (this h' h hlt).symm
    · exact heq.symm
  obtain ⟨q, hqn, secret, now, ttl, hm, hkey, -, -, -, hdead⟩ := h.spec hsound
  obtain ⟨_, _, _, _, _, -, -, -, -, halive, -⟩ := h'.spec hsound
  have hdead' := dead_mono hsound (hkey ▸ List.prefix_append _ _) hm ⟨rfl, rfl⟩
    (Nat.lt_succ_of_lt hqn) hlt hdead
  rw [halive] at hdead'
  exact absurd hdead' (by simp [Dead, encodeTokenRecord, tokenFresh, tokenSpent])

/-! ### Catching up -/

/-- The bucket after the commands behind the first `k`, up to the first `n`. -/
def replayed (cs : List Command) (k n : Nat) (kv : Store) : Store := applyAll ((cs.take n).drop k) kv

theorem replayed_zero (n : Nat) (kv : Store) : replayed cs 0 n kv = applyAll (cs.take n) kv := rfl

theorem replayed_self (n : Nat) (kv : Store) : replayed cs n n kv = kv := by
  simp [replayed, applyAll]

theorem replayed_trans {k l n : Nat} (hkl : k ≤ l) (hln : l ≤ n) (kv : Store) :
    replayed cs l n (replayed cs k l kv) = replayed cs k n kv := by
  have hsplit : (cs.take n).drop k = (cs.take l).drop k ++ (cs.take n).drop l := by
    rw [List.drop_take, List.drop_take, List.drop_take,
      show n - k = (l - k) + (n - l) by omega, List.take_add, List.drop_drop,
      show k + (l - k) = l by omega]
  rw [replayed, replayed, replayed, hsplit, applyAll_append]

theorem replayed_succ {k n : Nat} {c : Command} (hkn : k ≤ n) (hc : cs[n]? = some c) (kv : Store) :
    replayed cs k (n + 1) kv = (c.apply (replayed cs k n kv)).1 := by
  have hlt : n < cs.length := (List.getElem?_eq_some_iff.mp hc).1
  rw [replayed, List.take_add_one, hc, Option.toList_some,
    List.drop_append_of_le_length (by rw [List.length_take]; omega), applyAll_append]
  rfl

/-- **A replay makes up for a part of its range that was there before.** -/
theorem replayed_replayed {k l n : Nat} (hln : l ≤ n) (kv : Store) :
    replayed cs k n (replayed cs k l kv) = replayed cs k n kv := by
  have hpfx : cs.take l <+: cs.take n := List.take_prefix_take_left hln
  exact applyAll_applyAll (fun c hc => (hpfx.drop k).subset hc) kv

theorem replayed_append {k n : Nat} (hn : n ≤ cs.length) (cs' : List Command) (kv : Store) :
    replayed (cs ++ cs') k n kv = replayed cs k n kv := by
  rw [replayed, List.take_append_of_le_length hn]
  rfl

/-- A bucket that stands at `k`, perhaps with more in it, is at the fold by `bound`. -/
def CatchesUp (cs : List Command) (k : Nat) (kv : Store) (bound : Nat) : Prop :=
  ∃ m, k ≤ m ∧ m ≤ bound ∧ replayed cs k m kv = replayed cs 0 m ∅

theorem CatchesUp.fold {k n bound : Nat} (h : CatchesUp cs k kv bound) (hn : bound ≤ n) :
    replayed cs k n kv = replayed cs 0 n ∅ := by
  obtain ⟨m, hkm, hmb, hm⟩ := h
  have hmn := hmb.trans hn
  rw [← replayed_trans hkm hmn, hm, replayed_trans (Nat.zero_le m) hmn]

theorem CatchesUp.mono {k bound bound' : Nat} (h : CatchesUp cs k kv bound)
    (hle : bound ≤ bound') : CatchesUp cs k kv bound' := by
  obtain ⟨m, hkm, hmb, hm⟩ := h
  exact ⟨m, hkm, hmb.trans hle, hm⟩

/-- A bucket that catches up, and has been replayed from, still does so from any point between. -/
theorem CatchesUp.replayed {k l n bound bound' : Nat} (h : CatchesUp cs k kv bound)
    (hkl : k ≤ l) (hln : l ≤ n) (hn : n ≤ bound') (hbound : bound ≤ bound') :
    CatchesUp cs l (Raft.replayed cs k n kv) bound' := by
  have hbound' := hbound
  refine ⟨bound', hln.trans hn, Nat.le_refl _, ?_⟩
  rw [← replayed_trans hkl hln, replayed_replayed hn, replayed_trans hkl (hln.trans hn)]
  exact h.fold hbound

/-! ### The cluster -/

/-- The log of these commands. -/
def logOf (J : Json) (cs : List Command) : List Bytes := cs.map (encode J.command)

theorem commands_logOf (hcs : ∀ c ∈ cs, checkKey c.key = true) :
    commands J (logOf J cs) = cs := by
  induction cs with
  | nil => rfl
  | cons c cs ih =>
    have hkey := validUTF8_of_validKey (validKey_of_checkKey (hcs c List.mem_cons_self))
    rw [logOf, List.map_cons, commands, List.filterMap_cons_some (b := c)
      (by simp [decodeCommand_encode J.command hkey, Except.toOption])]
    exact congrArg (c :: ·) (ih fun c' hc' => hcs c' (List.mem_cons_of_mem _ hc'))

theorem stateAt_logOf (hcs : ∀ c ∈ cs, checkKey c.key = true) (n : Nat) :
    stateAt J (logOf J cs) n = applyAll (cs.take n) ∅ := by
  rw [stateAt_eq, logOf, ← List.map_take, ← logOf,
    commands_logOf fun c hc => hcs c (List.mem_of_mem_take hc)]

/-- A node that catches up with the log, from the snapshot `kv` that was installed last. -/
structure Node.Follows (cs : List Command) (n : Node) (kv : Store) : Prop where
  keys : ∀ key ∈ kv, checkKey key = true
  catches : CatchesUp cs n.base kv n.born
  now : n.fsm.kv = replayed cs n.base n.applied kv
  base_le : n.base ≤ n.applied
  base_lt : n.base < n.next
  next_le : n.next ≤ n.applied + 1
  /-- While it is behind the log of its start, nothing new was applied. -/
  applied_le : n.applied ≤ max n.born (n.next - 1)
  length : n.applied ≤ cs.length
  born_le : n.born ≤ cs.length
  running : n.fsm.failed = false

/-- The reply is the one that the fold gives. -/
def Reply.Right (cs : List Command) (r : Reply ι) : Prop :=
  r.live = true → ∃ c, cs[r.index - 1]? = some c ∧
    r.result = response (c.apply (applyAll (cs.take (r.index - 1)) ∅)).2

/-- The invariant of the cluster. -/
structure Follows (T : TokenCrypto) (J : Json) (cs : List Command) (c : Cluster ι) : Prop where
  sound : Sound T cs
  log : c.log = logOf J cs
  node : ∀ i, ∃ kv, (c.node i).Follows cs kv
  pool : ∀ p ∈ c.pool, p.1 ≤ cs.length ∧ ∃ kv, (∀ key ∈ kv, checkKey key = true) ∧
    CatchesUp cs p.1 kv cs.length ∧ ∀ f f' : Fsm, f.restore J.entry p.2 = (.ok (), f') →
      f' = { f with kv := kv, lastApplied := none }
  replies : ∀ r ∈ c.replies, r.Right cs ∧ 0 < r.index ∧ r.index ≤ cs.length

theorem CatchesUp.append {k bound : Nat} (h : CatchesUp cs k kv bound)
    (hbound : bound ≤ cs.length) (cs' : List Command) : CatchesUp (cs ++ cs') k kv bound := by
  obtain ⟨m, hkm, hmb, hm⟩ := h
  have hlength := hmb.trans hbound
  exact ⟨m, hkm, hmb, by rw [replayed_append hlength, replayed_append hlength, hm]⟩

theorem Node.Follows.append {n : Node} (h : n.Follows cs kv) (cs' : List Command) :
    n.Follows (cs ++ cs') kv where
  keys := h.keys
  catches := h.catches.append h.born_le cs'
  now := by rw [h.now, replayed_append h.length]
  base_le := h.base_le
  base_lt := h.base_lt
  next_le := h.next_le
  applied_le := h.applied_le
  length := by
    have := h.length
    rw [List.length_append]
    omega
  born_le := by
    have := h.born_le
    rw [List.length_append]
    omega
  running := h.running

/-- The node has everything that was delivered to it, once it is past its start. -/
theorem Node.Follows.fold {n : Node} (h : n.Follows cs kv) (hlive : n.born < n.next) :
    n.applied = n.next - 1 ∧ n.fsm.kv = applyAll (cs.take (n.next - 1)) ∅ := by
  have happlied : n.applied = n.next - 1 := by
    have hle := h.applied_le
    have hnext := h.next_le
    omega
  refine ⟨happlied, ?_⟩
  rw [h.now, happlied, h.catches.fold (by omega), replayed_zero]

/-- **Delivery** keeps a node on its way, and answers a live proposal as the fold does. -/
theorem Node.Follows.delivered {n : Node} (hcs : ∀ c ∈ cs, checkKey c.key = true)
    (h : n.Follows cs kv) {data : Bytes} (hentry : (logOf J cs)[n.next - 1]? = some data) :
    (n.delivered J data).Follows cs kv ∧
      ∀ i : ι, Reply.Right cs ⟨i, n.next, n.born < n.next, (n.fsm.apply J.command n.next data).1⟩ := by
  rw [logOf, List.getElem?_map, Option.map_eq_some_iff] at hentry
  obtain ⟨c, hc, rfl⟩ := hentry
  have hkey := validUTF8_of_validKey (validKey_of_checkKey (hcs c (List.mem_of_getElem? hc)))
  have hdecode := decodeCommand_encode J.command hkey
  have hlt : n.next - 1 < cs.length := (List.getElem?_eq_some_iff.mp hc).1
  have hbase := h.base_lt
  have htaken := taken J n.fsm n.next (encode J.command c)
  unfold Node.delivered Reply.Right
  generalize (n.fsm.apply J.command n.next (encode J.command c)).1 = r at htaken ⊢
  generalize (n.fsm.apply J.command n.next (encode J.command c)).2 = f at htaken ⊢
  cases htaken with
  | refused hfailed => exact absurd (hfailed.symm.trans h.running) (by simp)
  | failing e _ hdata => exact absurd (hdata.symm.trans hdecode) (by simp)
  | skipped c' hfailed hdata m hlast hm =>
    have happlied : n.applied = m := by rw [Node.applied, hlast, Option.getD_some]
    have hle := h.applied_le
    refine ⟨⟨h.keys, h.catches, h.now, h.base_le, Nat.lt_succ_of_lt hbase, ?_, ?_, h.length,
      h.born_le, h.running⟩, fun i hlive => ?_⟩
    · change n.next + 1 ≤ n.applied + 1
      omega
    · change n.applied ≤ max n.born (n.next + 1 - 1)
      omega
    · -- A node past its start has no entry to skip.
      have hfold := (h.fold (by simpa using hlive)).1
      omega
  | applied c' hfailed hdata hlast =>
    rw [hdecode] at hdata
    cases hdata
    have hnext : n.next = n.applied + 1 := by
      refine Nat.le_antisymm h.next_le (Nat.succ_le_of_lt ?_)
      unfold Node.applied
      cases hn : n.fsm.lastApplied with
      | none => exact hbase
      | some m => exact hlast m hn
    rw [hnext, Nat.add_sub_cancel] at hc hlt
    refine ⟨⟨h.keys, h.catches, ?_, ?_, Nat.lt_succ_of_lt hbase, Nat.le_refl _, ?_, ?_,
      h.born_le, h.running⟩, fun i hlive => ⟨c, ?_, ?_⟩⟩
    · change (c.apply n.fsm.kv).1 = replayed cs n.base n.next kv
      rw [hnext, replayed_succ h.base_le hc, ← h.now]
    · change n.base ≤ n.next
      omega
    · change n.next ≤ max n.born (n.next + 1 - 1)
      omega
    · change n.next ≤ cs.length
      omega
    · rw [hnext, Nat.add_sub_cancel]
      exact hc
    · rw [(h.fold (by simpa using hlive)).2]

/-! ### Proposals in the log -/

/-- A command that mints comes from a call that does. -/
theorem Proposed.of_mints {c : Command} (h : Proposed T c) (hmint : Mints key c) :
    ∃ secret now ttl, secret.length = 32 ∧ key = tokenPrefix ++ hexEncode (T.sum256 secret) ∧
      Request.command T (.mintJoinToken secret now ttl) = .ok c ∧
      c.value = encodeTokenRecord tokenFresh (expires now ttl) := by
  cases h with
  | write _ hop _ _ => simp [hmint.1] at hop
  | burn => cases hmint.1
  | mint secret now ttl hsecret =>
    refine ⟨secret, now, ttl, hsecret, hmint.2.symm, ?_, rfl⟩
    rw [Request.command, tokenKey_tokenOf hsecret, Option.getD_some]

theorem eq_mint_of_command {r : Request} {c : Command} (h : Request.command T r = .ok c)
    (hop : c.op = .tokenMint) : ∃ secret now ttl, r = .mintJoinToken secret now ttl := by
  cases r with
  | mintJoinToken secret now ttl => exact ⟨secret, now, ttl, rfl⟩
  | put k value =>
    dsimp only [Request.command] at h
    split_ifs at h
    cases h
    cases hop
  | delete k =>
    dsimp only [Request.command] at h
    split_ifs at h
    cases h
    cases hop
  | redeemJoinToken token now =>
    dsimp only [Request.command] at h
    split at h
    · cases h
    · cases h
      cases hop
  | claim record =>
    cases h
    cases hop
  | release =>
    cases h
    cases hop

/-- A new proposal keeps the log sound. -/
theorem Sound.append (h : Sound T cs) {c : Cluster ι} (hlog : c.log = logOf J cs) {data : Bytes}
    (hissued : Issued T J c (.commit data)) :
    ∃ cmd, data = encode J.command cmd ∧ Sound T (cs ++ [cmd]) := by
  obtain ⟨r, cmd, hcmd, rfl, hmint⟩ := hissued
  have hproposed := proposed_of_command hcmd fun secret now ttl hr => (hmint secret now ttl hr).1
  -- The secret of an earlier mint is another one, so the key is another one.
  have hfresh : ∀ (key : Key) (k : Nat) (c' : Command), cs[k]? = some c' → Mints key c' →
      ¬ Mints key cmd := by
    intro key k c' hc' hmints' hmints
    obtain ⟨secret', now', ttl', hlength', hkey', hcmd', -⟩ :=
      (h.proposed c' (List.mem_of_getElem? hc')).of_mints hmints'
    obtain ⟨secret, now, ttl, rfl⟩ := eq_mint_of_command hcmd hmints.1
    obtain ⟨hlength, hnew⟩ := hmint secret now ttl rfl
    have hkey : cmd.key = tokenPrefix ++ hexEncode (T.sum256 secret) := by
      dsimp only [Request.command] at hcmd
      rw [tokenKey_tokenOf hlength] at hcmd
      cases hcmd
      rfl
    have hsum := hexEncode_injective (List.append_cancel_left (hkey.symm.trans (hmints.2.trans hkey')))
    have hsecret := T.sum256_inj _ _ hlength hlength' hsum
    subst hsecret
    refine hnew now' ttl' c' hcmd' ?_
    rw [hlog]
    exact List.mem_map_of_mem (List.mem_of_getElem? hc')
  refine ⟨cmd, rfl, fun c' hc' => ?_, fun key k k' c₁ c₂ hc₁ hc₂ hm₁ hm₂ => ?_⟩
  · rcases List.mem_append.mp hc' with hc' | hc'
    · exact h.proposed c' hc'
    · rw [List.mem_singleton] at hc'
      subst hc'
      exact hproposed
  · rw [List.getElem?_append] at hc₁ hc₂
    have hlast : ∀ {j : Nat} {d : Command}, [cmd][j]? = some d → j = 0 ∧ d = cmd := by
      intro j d hd
      cases j with
      | zero =>
        cases hd
        exact ⟨rfl, rfl⟩
      | succ j => cases hd
    split_ifs at hc₁ hc₂ with h₁ h₂ h₂
    · exact h.mint_once key k k' c₁ c₂ hc₁ hc₂ hm₁ hm₂
    · obtain ⟨-, rfl⟩ := hlast hc₂
      exact absurd hm₂ (hfresh key k c₁ hc₁ hm₁)
    · obtain ⟨-, rfl⟩ := hlast hc₁
      exact absurd hm₁ (hfresh key k' c₂ hc₂ hm₂)
    · have := (hlast hc₁).1
      have := (hlast hc₂).1
      omega

theorem Reply.Right.append {r : Reply ι} (h : r.Right cs) (cs' : List Command) :
    r.Right (cs ++ cs') := by
  intro hlive
  obtain ⟨c, hc, hresult⟩ := h hlive
  have hlt := (List.getElem?_eq_some_iff.mp hc).1
  refine ⟨c, by rw [List.getElem?_append_left hlt, hc], ?_⟩
  rw [List.take_append_of_le_length (Nat.le_of_lt hlt), hresult]

theorem Follows.set [DecidableEq ι] {c : Cluster ι} (h : Follows T J cs c) (i : ι) {n : Node}
    (hn : n.Follows cs kv) : Follows T J cs (c.set i n) where
  sound := h.sound
  log := h.log
  node j := by
    unfold Cluster.set
    dsimp only
    by_cases hj : j = i
    · subst hj
      rw [Function.update_self]
      exact ⟨kv, hn⟩
    · rw [Function.update_of_ne hj]
      exact h.node j
  pool := h.pool
  replies := h.replies

/-- **Every step keeps the invariant.** -/
theorem Follows.step [DecidableEq ι] {c c' : Cluster ι} {e : Event ι} (h : ∃ cs, Follows T J cs c)
    (he : Issued T J c e) (hstep : Step J c e c') : ∃ cs, Follows T J cs c' := by
  obtain ⟨cs, h⟩ := h
  have hcs : ∀ c ∈ cs, checkKey c.key = true := fun c hc => (h.sound.proposed c hc).checkKey
  have hlength : c.log.length = cs.length := by rw [h.log, logOf, List.length_map]
  cases hstep with
  | commit data hkey =>
    obtain ⟨cmd, rfl, hsound⟩ := h.sound.append h.log he
    refine ⟨cs ++ [cmd], hsound, ?_, ?_, ?_, ?_⟩
    · dsimp only
      rw [h.log, logOf, logOf, List.map_append]
      rfl
    · intro i
      obtain ⟨kv, hi⟩ := h.node i
      exact ⟨kv, hi.append _⟩
    · intro p hp
      obtain ⟨hle, kv, hkeys, hcatches, hrestore⟩ := h.pool p hp
      have hgrow : cs.length ≤ (cs ++ [cmd]).length := by simp
      exact ⟨hle.trans hgrow, kv, hkeys, (hcatches.append (Nat.le_refl _) _).mono hgrow, hrestore⟩
    · intro r hr
      obtain ⟨hright, hpos, hle⟩ := h.replies r hr
      refine ⟨hright.append _, hpos, ?_⟩
      rw [List.length_append]
      omega
  | deliver i data hentry =>
    obtain ⟨kv, hi⟩ := h.node i
    rw [h.log] at hentry
    obtain ⟨hn, hreply⟩ := hi.delivered (ι := ι) hcs hentry
    obtain ⟨hsound, hlog, hnode, hpool, -⟩ := h.set i hn
    refine ⟨cs, hsound, hlog, hnode, hpool, fun r hr => ?_⟩
    rcases List.mem_append.mp hr with hr | hr
    · exact h.replies r hr
    · rw [List.mem_singleton] at hr
      subst hr
      have hlt := (List.getElem?_eq_some_iff.mp hentry).1
      have hbase := hi.base_lt
      rw [logOf, List.length_map] at hlt
      refine ⟨hreply i, ?_, ?_⟩ <;> dsimp only <;> omega
  | restart i start habove hbelow =>
    obtain ⟨kv, hi⟩ := h.node i
    have hle := hi.length
    have hborn := hi.born_le
    refine ⟨cs, h.set i ⟨hi.keys, hi.catches.mono (by rw [hlength]; exact hborn), hi.now,
      hi.base_le, habove, hbelow, ?_, hle, le_of_eq hlength, rfl⟩⟩
    refine le_trans ?_ (Nat.le_max_left _ _)
    dsimp only
    rw [hlength]
    exact hle
  | snapshot i data hdata =>
    obtain ⟨kv, hi⟩ := h.node i
    have hbase := hi.base_lt
    have hnext := hi.next_le
    have hle := hi.length
    refine ⟨cs, h.sound, h.log, h.node, fun p hp => ?_, h.replies⟩
    rcases List.mem_cons.mp hp with rfl | hp
    · have hkeys : ∀ key ∈ (c.node i).fsm.kv, checkKey key = true := by
        intro key hkey
        rw [hi.now] at hkey
        exact checkKey_of_mem_applyAll
          (fun c' hc' => hcs c' (List.mem_of_mem_take (List.mem_of_mem_drop hc'))) hi.keys hkey
      obtain ⟨data', hdata', hrestore⟩ := snapshot_restores J.entry hi.running hkeys
      rw [hdata] at hdata'
      cases hdata'
      refine ⟨by dsimp only; omega, _, hkeys, ?_, fun f f' hf' => ?_⟩
      · rw [hi.now]
        exact hi.catches.replayed (by dsimp only; omega) (by dsimp only; omega) hle hi.born_le
      · rw [hrestore] at hf'
        cases hf'
        rfl
    · exact h.pool p hp
  | install i index data fsm hpool hrestore =>
    obtain ⟨hle, kv, hkeys, hcatches, hcontent⟩ := h.pool _ hpool
    have hfsm := hcontent _ _ hrestore
    subst hfsm
    obtain ⟨_, hi⟩ := h.node i
    refine ⟨cs, h.set i ⟨hkeys, ?_, ?_, Nat.le_refl _, Nat.lt_succ_self _, Nat.le_refl _,
      ?_, hle, le_of_eq hlength, hi.running⟩⟩
    · dsimp only
      rw [hlength]
      exact hcatches
    · exact (replayed_self _ _).symm
    · exact Nat.le_max_right _ _
  | foreign => exact he.elim

theorem follows_init : Follows T J [] (Cluster.init ι) where
  sound := ⟨by simp, by simp⟩
  log := rfl
  node _ := ⟨∅, by simp [Finmap.notMem_empty], ⟨0, Nat.le_refl _, Nat.le_refl _, rfl⟩, rfl,
    Nat.le_refl _, Nat.one_pos, Nat.le_refl _, Nat.zero_le _, Nat.le_refl _, Nat.le_refl _, rfl⟩
  pool := by simp [Cluster.init]
  replies := by simp [Cluster.init]

/-- An entry of the log is the encoding of its command. -/
theorem Follows.entry {c : Cluster ι} (h : Follows T J cs c) {n : Nat} {data : Bytes}
    (hdata : c.log[n]? = some data) (hdecode : decodeCommand J.command data = .ok cmd) :
    cs[n]? = some cmd := by
  rw [h.log, logOf, List.getElem?_map, Option.map_eq_some_iff] at hdata
  obtain ⟨cmd', hcmd', rfl⟩ := hdata
  have hcheck := (h.sound.proposed cmd' (List.mem_of_getElem? hcmd')).checkKey
  rw [decodeCommand_encode J.command (validUTF8_of_validKey (validKey_of_checkKey hcheck))] at hdecode
  cases hdecode
  exact hcmd'

/-- What a reply says about the log. -/
theorem Follows.redeems {c : Cluster ι} (h : Follows T J cs c) {r : Reply ι} {now : Time}
    (hr : Redeemed J c r key now) :
    0 < r.index ∧ ∃ cmd, Redeems cs (r.index - 1) key cmd ∧ cmd.now = now := by
  obtain ⟨hmem, hlive, hresult, data, cmd, hdata, hdecode, hop, hkey, hnow⟩ := hr
  obtain ⟨hright, hpos, -⟩ := h.replies r hmem
  obtain ⟨cmd', hcmd', hanswer⟩ := hright hlive
  have hcmd := h.entry hdata hdecode
  rw [hcmd] at hcmd'
  cases hcmd'
  refine ⟨hpos, cmd, ⟨hcmd, hop, hkey, ?_⟩, hnow⟩
  rw [hresult] at hanswer
  cases hnone : (cmd.apply (applyAll (cs.take (r.index - 1)) ∅)).2 with
  | none => rfl
  | some e =>
    rw [hnone] at hanswer
    cases hanswer

theorem Follows.stateAt {c : Cluster ι} (h : Follows T J cs c) (n : Nat) :
    (Raft.stateAt J c.log n).lookup key = valueAt cs n key := by
  rw [h.log, stateAt_logOf fun c hc => (h.sound.proposed c hc).checkKey, lookup_applyAll_empty]

theorem not_redeemable_of_dead (h : Dead (kv.lookup key)) : ¬ Redeemable kv key := by
  rintro ⟨expiry, hlookup⟩
  rw [hlookup] at h
  simp [Dead, encodeTokenRecord, tokenFresh, tokenSpent] at h

/--
**Join tokens are single-use.**  In every state the cluster reaches: the replies that
report a redemption of one token are all for one entry; that entry comes after the mint
of the token, its proposer's time is not after the expiry, and the record is redeemable
before it; and a record that was spent or pruned never becomes redeemable again.
-/
theorem join_token_single_use [DecidableEq ι] (J : Json) (T : TokenCrypto) (c : Cluster ι)
    (hrun : Run.Reachable (Step J) (Issued T J) (Cluster.init ι) c) :
    (∀ key r r' now now', Redeemed J c r key now → Redeemed J c r' key now' → r.index = r'.index) ∧
    (∀ key r now, Redeemed J c r key now → ∃ m expiry, MintedAt T J c m key expiry ∧ m < r.index ∧
      now ≤ expiry ∧ Redeemable (stateAt J c.log (r.index - 1)) key) ∧
    ∀ key m expiry j k, MintedAt T J c m key expiry → m ≤ j → j ≤ k →
      ¬ Redeemable (stateAt J c.log j) key → ¬ Redeemable (stateAt J c.log k) key := by
  obtain ⟨cs, h⟩ := hrun.invariant (I := fun c => ∃ cs, Follows T J cs c) ⟨[], follows_init⟩
    fun _ _ _ hinv he hstep => Follows.step hinv he hstep
  refine ⟨fun key r r' now now' hr hr' => ?_, fun key r now hr => ?_, ?_⟩
  · obtain ⟨hpos, cmd, hredeems, -⟩ := h.redeems hr
    obtain ⟨hpos', cmd', hredeems', -⟩ := h.redeems hr'
    have heq := hredeems.unique h.sound hredeems'
    omega
  · obtain ⟨hpos, cmd, hredeems, rfl⟩ := h.redeems hr
    obtain ⟨q, hqn, secret, now, ttl, hm, hkey, hsecret, hnow, halive, -⟩ := hredeems.spec h.sound
    have hcheck : validUTF8 key = true :=
      validUTF8_of_validKey (validKey_of_checkKey (h.sound.proposed _ (List.mem_of_getElem? hm)).checkKey)
    refine ⟨q + 1, expires now ttl, ⟨Nat.succ_pos q, _, secret, now, ttl,
      ⟨.tokenMint, key, encodeTokenRecord tokenFresh (expires now ttl), int64 now⟩, ?_,
      decodeCommand_encode J.command hcheck, ?_, rfl, rfl⟩, by omega, hnow, expires now ttl, ?_⟩
    · rw [h.log, Nat.add_sub_cancel, logOf, List.getElem?_map, hm, Option.map_some]
    · rw [Request.command, tokenKey_tokenOf hsecret, Option.getD_some, ← hkey]
    · rw [h.stateAt, halive]
  · rintro key m expiry j k ⟨hpos, data, secret, now, ttl, cmd, hdata, hdecode, hcmd, rfl, rfl⟩ hmj hjk
      hnot
    have hm := h.entry hdata hdecode
    have hmint : Mints cmd.key cmd := by
      cases hcmd
      exact ⟨rfl, rfl⟩
    obtain ⟨secret', now', ttl', -, hkey, -, hvalue⟩ :=
      (h.sound.proposed cmd (List.mem_of_getElem? hm)).of_mints hmint
    have hpfx : tokenPrefix <+: cmd.key := hkey ▸ List.prefix_append _ _
    have hdead : Dead (valueAt cs j cmd.key) := by
      refine (minted_or_dead h.sound hpfx hm hmint (by omega)).resolve_left fun halive => hnot ?_
      exact ⟨expires now' ttl', by rw [h.stateAt, halive, hvalue]⟩
    refine not_redeemable_of_dead ?_
    rw [h.stateAt]
    exact dead_mono h.sound hpfx hm hmint (by omega) hjk hdead

/-! ### A token that is minted and redeemed twice -/

/-- Tokens that hide nothing. -/
def TokenCrypto.transparent : TokenCrypto where
  base64 := ⟨id, some, fun _ _ => rfl⟩
  sum256 := id
  length_sum256 _ h := h
  sum256_inj _ _ _ _ h := h

def sevens : Bytes := List.replicate 32 7

/-- The key of the token with this secret. -/
def sevensKey : Key := tokenPrefix ++ hexEncode sevens

def mintSevens : Command :=
  ⟨.tokenMint, sevensKey, encodeTokenRecord tokenFresh (expires 0 0), int64 0⟩

def burnSevens : Command := ⟨.tokenBurn, sevensKey, [], int64 1⟩

/-- Nothing is proposed but that the token be minted, at first, and redeemed. -/
def OneToken (c : Cluster ι) : Event ι → Prop
  | .commit data => data = encode Json.transparent.command mintSevens ∧ c.log = [] ∨
      data = encode Json.transparent.command burnSevens
  | .foreign _ _ => False
  | _ => True

instance decidableOneToken (c : Cluster ι) : DecidablePred (OneToken c)
  | .commit _ => inferInstanceAs (Decidable (_ ∧ _ ∨ _))
  | .foreign _ _ => .isFalse id
  | .deliver _ | .restart _ _ | .snapshot _ | .install _ _ _ => .isTrue trivial

theorem OneToken.issued {c : Cluster ι} {e : Event ι} (h : OneToken c e) :
    Issued .transparent .transparent c e := by
  have hkey : tokenKey .transparent (tokenOf .transparent sevens) = some sevensKey :=
    tokenKey_tokenOf (List.length_replicate ..)
  cases e with
  | commit data =>
    rcases h with ⟨rfl, hlog⟩ | rfl
    · refine ⟨.mintJoinToken sevens 0 0, mintSevens, by rw [Request.command, hkey]; rfl, rfl, ?_⟩
      rintro secret now ttl ⟨⟩
      refine ⟨List.length_replicate .., fun _ _ _ _ => ?_⟩
      rw [hlog]
      exact List.not_mem_nil
    · refine ⟨.redeemJoinToken (tokenOf .transparent sevens) 1, burnSevens, ?_, rfl, nofun⟩
      rw [Request.command, hkey]
      rfl
  | foreign index data => exact h
  | deliver i => trivial
  | restart i start => trivial
  | snapshot i => trivial
  | install i index data => trivial

/-- Of two redemptions the first succeeds, and the second finds the token used. -/
theorem join_token_single_use_twice :
    ∃ c : Cluster Bool,
      Run.Reachable (Step .transparent) (Issued .transparent .transparent) (Cluster.init Bool) c ∧
      (∃ r, Redeemed .transparent c r sevensKey (int64 1)) ∧
      (∃ r ∈ c.replies, r.index = 3 ∧ r.result = .error (.raft .tokenUsed)) ∧
      ∀ r' now', Redeemed .transparent c r' sevensKey now' → r'.index = 2 := by
  have hrun : (Run.path (Cluster.next .transparent) OneToken (.init Bool)
      ([mintSevens, burnSevens, burnSevens].map (.commit ∘ encode Json.transparent.command) ++
        List.replicate 3 (.deliver true) ++ List.replicate 2 (.deliver false))).map
          (fun c => (c.log, c.replies))
      = some ([mintSevens, burnSevens, burnSevens].map (encode Json.transparent.command),
          [⟨true, 1, true, .ok ()⟩, ⟨true, 2, true, .ok ()⟩, ⟨true, 3, true, .error (.raft .tokenUsed)⟩,
            ⟨false, 1, true, .ok ()⟩, ⟨false, 2, true, .ok ()⟩]) := by decide +kernel
  obtain ⟨c, hreach, hc⟩ := Run.Reachable.exists_of_path hrun
  obtain ⟨hlog, hreplies⟩ := Prod.mk.inj hc
  have hissued := hreach.mono fun _ _ => OneToken.issued
  have hr : Redeemed .transparent c ⟨true, 2, true, .ok ()⟩ sevensKey (int64 1) := by
    refine ⟨by rw [hreplies]; simp, rfl, rfl, _, burnSevens, by rw [hlog]; rfl, ?_, rfl, rfl, rfl⟩
    decide +kernel
  refine ⟨c, hissued, ⟨_, hr⟩, ⟨⟨true, 3, true, .error (.raft .tokenUsed)⟩, by rw [hreplies]; simp, rfl, rfl⟩,
    fun r' now' hr' => ?_⟩
  exact (join_token_single_use .transparent .transparent c hissued).1 sevensKey r' _ now' _ hr' hr

end UbixVault.Raft
