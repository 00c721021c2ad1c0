/-
How long a wrapped payload is kept.

The store keeps a payload for exactly the duration it is given and refuses more than its
maximum.  What a header denotes is a number of any size.  Seconds come out of it modulo
2^64 nanoseconds, so a large number can turn into a duration that the store accepts, and
so can the parts of a duration that add up to 2^64.
-/
import UbixVault.Api.Wrapping
import UbixVault.Proofs.Duration
import UbixVault.Proofs.Wrapping

namespace UbixVault.Wrapping

open Program

variable {st : Store} {h : Handler} {header : Bytes} {payload : RawMessage} {ttl : Time}
  {env : Env} {w : World}

/-! ### What the store does -/

/-- A payload that is kept for a duration, with the record that the store holds. -/
structure Kept (st : Store) (payload : RawMessage) (duration : Time) (info : Info) (w : World) :
    Prop where
  record : ∃ blob, w.store.lookup (st.storeKey info.token) = some blob ∧
    st.json.unmarshal blob = some ⟨compact payload, info.creationTime, info.expiresAt⟩
  expiry : info.expiresAt = info.creationTime + duration

/-- The payload can be encoded at a time, with any expiry the store accepts. -/
def Encodes (st : Store) (payload : RawMessage) (now : Time) : Prop :=
  ∀ ttl, ttl ≤ maxTTL → ∃ blob, st.json.marshal ⟨payload, now, now + ttl⟩ = some blob

/--
The store keeps a payload as long as it was told, and if nothing fails it refuses one only
for its lifetime.
-/
theorem wrap_spec (st : Store) (payload : RawMessage) (ttl : Time) (env : Env) (w : World) :
    Yields env.answer (st.wrap payload ttl) w
    (fun info w' => Kept st payload (effectiveTTL ttl) info w' ∧ effectiveTTL ttl ≤ maxTTL)
    (fun _ _ => env.Works → (∀ n, Encodes st payload (env.clock n)) →
      maxTTL < effectiveTTL ttl) := by
  unfold Store.wrap
  dsimp only
  by_cases hmax : effectiveTTL ttl > maxTTL
  · rw [if_pos hmax]
    exact Yields.throw fun _ _ => hmax
  rw [if_neg hmax]
  refine Yields.bind (Yields.bind (Act.yields_context (Act.randRead_spec.mono ?_ ?_)))
  · rintro b w₁ -
    refine Yields.pure (Yields.bind (Act.now_spec.mono ?_ fun _ _ hfalse => hfalse.elim))
    rintro now w₂ ⟨rfl, -⟩
    cases hblob : st.json.marshal ⟨payload, _, _ + effectiveTTL ttl⟩ with
    | none =>
      refine Yields.throw fun _ hencodes => ?_
      obtain ⟨blob, hsome⟩ := hencodes _ (effectiveTTL ttl) (not_lt.mp hmax)
      rw [hblob] at hsome
      cases hsome
    | some blob =>
      refine Yields.bind (Act.yields_context ((Act.put_exact (validKey_storeKey _)).mono ?_ ?_))
      · rintro - w₃ ⟨rfl, -⟩
        refine Yields.pure ⟨⟨⟨blob, ?_, st.json.unmarshal_marshal _ _ hblob⟩, rfl⟩, not_lt.mp hmax⟩
        exact Finmap.lookup_insert _
      · rintro - w₃ ⟨-, hfails⟩ hworks
        exact hworks.elim hfails
  · intro e w₁ hbroke hworks
    exact absurd hbroke.faulted hworks.not_faulted

/-! ### What the header says -/

namespace Handler

/-- The duration that a header denotes, as a number of nanoseconds of any size. -/
def denoted (h : Handler) (header : Bytes) : Option Time :=
  if header = [] then some 0
  else
    match Duration.signedParts h.fraction header with
    | some (true, ns) => some (-Int.ofNat ns.sum)
    | some (false, ns) => some (Int.ofNat ns.sum)
    | none => (Duration.atoi64 header).map (· * Duration.second)

/-- Zero means the default. -/
def lifetime (d : Time) : Time := if d = 0 then defaultTTL else d

/-- What is accepted is kept for the lifetime denoted, and more than the maximum is refused. -/
structure LifetimeExact (h : Handler) (header : Bytes) : Prop where
  exact : ∀ env w body info w', (h.wrapRequest header body).run (Env.answer env) w = (.ok info, w') →
    ∃ d payload, h.denoted header = some d ∧ body = .ok payload ∧
      Kept h.wrapping payload (lifetime d) info w'
  capped : ∀ d, h.denoted header = some d → maxTTL < d → ∀ env w body,
    ∃ r, ((h.wrapRequest header body).run (Env.answer env) w).1 = .error r

/-- A request whose header was read is served as the store serves it. -/
theorem wrapRequest_cases (hread : h.parseWrapTTL header = .ok ttl) (payload : RawMessage)
    (env : Env) (w : World) :
    (∃ info w', (h.wrapRequest header (.ok payload)).run env.answer w = (.ok info, w') ∧
      Kept h.wrapping payload (effectiveTTL ttl) info w' ∧ effectiveTTL ttl ≤ maxTTL) ∨
    (∃ r w', (h.wrapRequest header (.ok payload)).run env.answer w = (.error r, w') ∧
      (env.Works → (∀ n, Encodes h.wrapping payload (env.clock n)) →
        maxTTL < effectiveTTL ttl)) := by
  have hwrap := wrap_spec h.wrapping payload ttl env w
  unfold wrapRequest
  rw [hread]
  dsimp only
  rw [run_bind]
  rcases hrun : Program.exec env.answer (h.wrapping.wrap payload ttl) w with ⟨r, w'⟩
  rw [show (h.wrapping.wrap payload ttl).run.run env.answer w = (r, w') from hrun]
  cases r with
  | ok info =>
    obtain ⟨hkept, hmax⟩ := hwrap.of_ok hrun
    exact .inl ⟨info, w', rfl, hkept, hmax⟩
  | error e => exact .inr ⟨_, w', rfl, hwrap.of_error hrun⟩

/-- A request that was accepted had a header that was read, and a body. -/
theorem accepted {body : Decoded RawMessage} {info : Info} {w' : World}
    (haccepted : (h.wrapRequest header body).run env.answer w = (.ok info, w')) :
    ∃ ttl payload, h.parseWrapTTL header = .ok ttl ∧ body = .ok payload ∧
      Kept h.wrapping payload (effectiveTTL ttl) info w' ∧ effectiveTTL ttl ≤ maxTTL := by
  cases hread : h.parseWrapTTL header with
  | error r =>
    unfold wrapRequest at haccepted
    rw [hread] at haccepted
    cases haccepted
  | ok ttl =>
    cases body with
    | error message =>
      unfold wrapRequest at haccepted
      rw [hread] at haccepted
      cases haccepted
    | ok payload =>
      rcases wrapRequest_cases hread payload env w with
        ⟨info', w₁, hrun, hkept, hmax⟩ | ⟨r, w₁, hrun, -⟩
      · cases haccepted.symm.trans hrun
        exact ⟨ttl, payload, rfl, rfl, hkept, hmax⟩
      · cases haccepted.symm.trans hrun

/-- A header that is refused does no harm. -/
theorem LifetimeExact.of_refused (hread : ∃ r, h.parseWrapTTL header = .error r) :
    LifetimeExact h header := by
  obtain ⟨r, hread⟩ := hread
  constructor
  · intro env w body info w' haccepted
    obtain ⟨ttl, payload, hok, -⟩ := accepted haccepted
    rw [hread] at hok
    cases hok
  · intro d hd hmax env w body
    refine ⟨r, ?_⟩
    unfold wrapRequest
    rw [hread]
    rfl

/-- For a header that is read, it comes down to the duration that is read. -/
theorem lifetimeExact_of_read {d : Time} (hencodes : Encodes h.wrapping payload 0)
    (hread : h.parseWrapTTL header = .ok ttl) (hdenoted : h.denoted header = some d) :
    LifetimeExact h header ↔
      (effectiveTTL ttl ≤ maxTTL → d ≤ maxTTL ∧ effectiveTTL ttl = lifetime d) := by
  constructor
  · intro hexact hle
    rcases wrapRequest_cases hread payload .faultless ⟨∅, 0⟩ with
      ⟨info, w', hrun, hkept, -⟩ | ⟨r, w', -, hmax⟩
    · obtain ⟨d', payload', hd', -, hkept'⟩ := hexact.exact _ _ _ _ _ hrun
      cases hdenoted.symm.trans hd'
      refine ⟨not_lt.mp fun hmax => ?_, add_left_cancel (hkept.expiry.symm.trans hkept'.expiry)⟩
      obtain ⟨r, hrefused⟩ := hexact.capped d hdenoted hmax .faultless ⟨∅, 0⟩ (.ok payload)
      rw [hrun] at hrefused
      cases hrefused
    · exact absurd (hmax works_faultless fun _ => hencodes) (not_lt.mpr hle)
  · intro hsame
    constructor
    · intro env w body info w' haccepted
      obtain ⟨ttl', payload, hok, hbody, hkept, hmax⟩ := accepted haccepted
      cases hread.symm.trans hok
      exact ⟨d, payload, hdenoted, hbody, (hsame hmax).2 ▸ hkept⟩
    · intro d' hd' hmax env w body
      cases hdenoted.symm.trans hd'
      rcases hrun : (h.wrapRequest header body).run env.answer w with ⟨r, w'⟩
      cases r with
      | error r => exact ⟨r, rfl⟩
      | ok info =>
        obtain ⟨ttl', payload, hok, -, -, hle⟩ := accepted hrun
        cases hread.symm.trans hok
        exact absurd (hsame hle).1 (not_le.mpr hmax)

/-! ### Seconds -/

/-- The header is a number of seconds that the source multiplies. -/
def Counts (h : Handler) (header : Bytes) (secs : Int) : Prop :=
  header ≠ [] ∧ Duration.signedParts h.fraction header = none ∧
    Duration.atoi64 header = some secs ∧ 0 ≤ secs

theorem Counts.read {secs : Int} (hcounts : h.Counts header secs) :
    h.denoted header = some (secs * Duration.second) ∧
      h.parseWrapTTL header = .ok (Duration.seconds secs) := by
  obtain ⟨hne, hparts, hatoi, hpos⟩ := hcounts
  unfold denoted parseWrapTTL
  rw [if_neg hne, if_neg hne, Duration.parseDuration_eq, hparts, hatoi]
  refine ⟨rfl, ?_⟩
  rw [Option.filter_some_pos (by simpa using hpos)]
  rfl

/-- A product that is large stays large when it is reduced to 64 bits, or is not large. -/
def Survives (n : Int) : Prop := n ≤ maxTTL ∨ ∃ k, maxTTL < n - k * 2 ^ 64 ∧ n - k * 2 ^ 64 < 2 ^ 63

theorem effectiveTTL_of_nonneg {d : Time} (hd : 0 ≤ d) : effectiveTTL d = lifetime d := by
  unfold effectiveTTL lifetime
  rcases hd.eq_or_lt with rfl | hpos
  · rfl
  · rw [if_neg (not_le.mpr hpos), if_neg hpos.ne']

theorem effectiveTTL_le_iff {d : Time} : effectiveTTL d ≤ maxTTL ↔ d ≤ maxTTL := by
  unfold effectiveTTL
  split_ifs with hd
  · exact ⟨fun _ => hd.trans (by decide), fun _ => by decide⟩
  · exact Iff.rfl

/-- Of what is large, something large has to be left in 64 bits. -/
theorem large_in_bits_iff {m n : Int} (hm : 0 ≤ m) :
    (n ≤ m ∨ ∃ k, m < n - k * 2 ^ 64 ∧ n - k * 2 ^ 64 < 2 ^ 63) ↔
      (n.bmod (2 ^ 64) ≤ m → n ≤ m) := by
  have hsplit : n.bmod (2 ^ 64) + (2 ^ 64 : Nat) * n.bdiv (2 ^ 64) = n := Int.bmod_add_bdiv n (2 ^ 64)
  have hlt : n.bmod (2 ^ 64) < 2 ^ 63 := Int.bmod_lt (by decide)
  have hge : -2 ^ 63 ≤ n.bmod (2 ^ 64) := Int.le_bmod (by decide)
  constructor
  · rintro (hsmall | ⟨k, hlarge, hfits⟩) hle
    · exact hsmall
    · omega
  · intro h
    by_cases hsmall : n ≤ m
    · exact .inl hsmall
    · exact .inr ⟨n.bdiv (2 ^ 64), by omega, by omega⟩

theorem survives_iff {n : Int} : Survives n ↔ (n.bmod (2 ^ 64) ≤ maxTTL → n ≤ maxTTL) :=
  large_in_bits_iff (by decide)

theorem Counts.exact_iff {secs : Int} (hcounts : h.Counts header secs)
    (hencodes : Encodes h.wrapping payload 0) :
    LifetimeExact h header ↔ Survives (secs * Duration.second) := by
  have hn : 0 ≤ secs * Duration.second := mul_nonneg hcounts.2.2.2 (by decide)
  obtain ⟨hdenoted, hread⟩ := hcounts.read
  rw [lifetimeExact_of_read hencodes hread hdenoted, effectiveTTL_le_iff, survives_iff]
  refine forall_congr' fun hle => and_iff_left_of_imp fun hsmall => ?_
  have hfits : (secs * Duration.second).bmod (2 ^ 64) = secs * Duration.second :=
    Int.bmod_eq_of_le (by omega) (hsmall.trans_lt (by decide))
  rw [Duration.seconds, hfits, effectiveTTL_of_nonneg hn]

/-! ### Durations -/

/-- A sum in 64 bits that is not mistaken for another one. -/
def Adds (negative : Bool) (n : Nat) : Prop :=
  if negative then n = 0 ∨ n % 2 ^ 64 ≠ 0 else n ≤ maxTTL ∨ maxTTL < ((n % 2 ^ 64 : Nat) : Int)

/-- A duration is refused if it is negative. -/
theorem parseWrapTTL_duration {d : Time} (hne : header ≠ [])
    (hparse : Duration.parseDuration h.fraction header = some d) :
    (d < 0 → ∃ r, h.parseWrapTTL header = .error r) ∧ (0 ≤ d → h.parseWrapTTL header = .ok d) := by
  unfold parseWrapTTL
  rw [if_neg hne, hparse]
  exact ⟨fun hd => ⟨_, if_pos hd⟩, fun hd => if_neg (not_lt.mpr hd)⟩

/-- A header that is neither a duration nor a number is refused. -/
theorem parseWrapTTL_refused (hne : header ≠ [])
    (hparse : Duration.parseDuration h.fraction header = none) (hatoi : atoi header = none) :
    ∃ r, h.parseWrapTTL header = .error r := by
  unfold parseWrapTTL Duration.atoi64
  rw [if_neg hne, hparse, hatoi]
  exact ⟨_, rfl⟩

/-- The default is a duration that no negative one denotes. -/
theorem default_iff {n : Nat} :
    (effectiveTTL 0 ≤ maxTTL → -Int.ofNat n ≤ maxTTL ∧ effectiveTTL 0 = lifetime (-Int.ofNat n)) ↔
      n = 0 := by
  refine ⟨fun h => ?_, fun hn _ => by rw [hn]; decide⟩
  by_contra hn
  have hlifetime := (h (by decide)).2
  rw [lifetime, if_neg (by simpa using hn)] at hlifetime
  have hpos : (0 : Int) < effectiveTTL 0 := by decide
  rw [hlifetime] at hpos
  exact absurd hpos (by simp)

/-- The remainder is a duration that the sum denotes only where nothing was taken off. -/
theorem remainder_iff {n : Nat} :
    (effectiveTTL (Int.ofNat (n % 2 ^ 64)) ≤ maxTTL →
      Int.ofNat n ≤ maxTTL ∧ effectiveTTL (Int.ofNat (n % 2 ^ 64)) = lifetime (Int.ofNat n)) ↔
      (n : Int) ≤ maxTTL ∨ maxTTL < ((n % 2 ^ 64 : Nat) : Int) := by
  rw [effectiveTTL_le_iff]
  constructor
  · intro h
    exact (lt_or_ge maxTTL ((n % 2 ^ 64 : Nat) : Int)).symm.imp_left fun hle => (h hle).1
  · rintro (hsmall | hlarge) hle
    · have hmod : n % 2 ^ 64 = n := by
        refine Nat.mod_eq_of_lt ?_
        have hlt := hsmall.trans_lt (by decide : (maxTTL : Int) < (2 ^ 64 : Nat))
        exact_mod_cast hlt
      rw [hmod]
      exact ⟨hsmall, effectiveTTL_of_nonneg (Int.natCast_nonneg n)⟩
    · exact absurd hle (not_le.mpr hlarge)

theorem lifetimeExact_of_parts {negative : Bool} {ns : List Nat}
    (hparts : Duration.signedParts h.fraction header = some (negative, ns))
    (hencodes : Encodes h.wrapping payload 0) :
    LifetimeExact h header ↔ (Duration.Fits 0 ns → Adds negative ns.sum) := by
  have hne : header ≠ [] := by
    rintro rfl
    cases hparts
  have hparse : Duration.parseDuration h.fraction header
      = (Duration.add 0 ns).bind (Duration.signed negative) := by
    rw [Duration.parseDuration_eq, hparts]
    rfl
  have hatoi := Duration.atoi_of_signedParts h.fraction hparts
  have hdenoted : h.denoted header
      = if negative then some (-Int.ofNat ns.sum) else some (Int.ofNat ns.sum) := by
    unfold denoted
    rw [if_neg hne, hparts]
    cases negative with
    | true => rfl
    | false => rfl
  cases hadd : Duration.add 0 ns with
  | none =>
    have hatoi := hatoi.resolve_left (by rintro rfl; cases hadd)
    have hread := parseWrapTTL_refused hne (by rw [hparse, hadd]; rfl) hatoi
    refine iff_of_true (.of_refused hread) fun hfits => ?_
    have hsum := (Duration.add_eq_some (Nat.zero_le _)).mpr ⟨hfits, rfl⟩
    rw [hadd] at hsum
    cases hsum
  | some d =>
    obtain ⟨hfits, hd⟩ := (Duration.add_eq_some (Nat.zero_le _)).mp hadd
    rw [Nat.zero_add] at hd
    rw [forall_prop_of_true hfits, Adds, ← hd]
    rw [hadd, Option.bind_some, Duration.signed] at hparse
    cases negative with
    | true =>
      rw [if_pos rfl] at hparse hdenoted ⊢
      obtain ⟨hrefused, hread⟩ := parseWrapTTL_duration hne hparse
      by_cases hzero : d = 0
      · rw [hzero] at hread
        rw [lifetimeExact_of_read hencodes (hread (by decide)) hdenoted,
          or_iff_left (not_not_intro hzero)]
        exact default_iff
      · have hnegative : -Int.ofNat d < 0 := by simpa [Nat.pos_iff_ne_zero] using hzero
        exact iff_of_true (.of_refused (hrefused hnegative)) (.inr hzero)
    | false =>
      rw [if_neg Bool.false_ne_true] at hparse hdenoted ⊢
      by_cases hmax : d > 2 ^ 63 - 1
      · rw [if_pos hmax] at hparse
        have hatoi := hatoi.resolve_left (by rintro rfl; cases hadd; cases hmax)
        refine iff_of_true (.of_refused (parseWrapTTL_refused hne hparse hatoi)) (.inr ?_)
        exact lt_of_lt_of_le (by decide : (maxTTL : Int) < (2 ^ 63 - 1 : Nat)) (by exact_mod_cast hmax.le)
      · rw [if_neg hmax] at hparse
        have hread := (parseWrapTTL_duration hne hparse).2 (Int.natCast_nonneg d)
        rw [lifetimeExact_of_read hencodes hread hdenoted, hd]
        exact remainder_iff

/--
**When a lifetime is exact and capped.**  A number of seconds is if it is within the
maximum, or exceeds it even after whole multiples of 2^64 nanoseconds have been taken off.
A duration is unless its parts add up to more than 64 bits without being refused, and what
is left of their sum is accepted.
-/
theorem lifetimeExact_iff (hencodes : Encodes h.wrapping payload 0) :
    LifetimeExact h header ↔
      (∀ secs, h.Counts header secs → Survives (secs * Duration.second)) ∧
      ∀ negative ns, Duration.signedParts h.fraction header = some (negative, ns) →
        Duration.Fits 0 ns → Adds negative ns.sum := by
  cases hparts : Duration.signedParts h.fraction header with
  | some p =>
    obtain ⟨negative, ns⟩ := p
    rw [lifetimeExact_of_parts hparts hencodes]
    constructor
    · intro hadds
      refine ⟨fun secs hcounts => ?_, fun negative ns heq => ?_⟩
      · rw [hcounts.2.1] at hparts
        cases hparts
      · cases heq
        exact hadds
    · exact fun hboth => hboth.2 negative ns rfl
  | none =>
    rw [and_iff_left (by nofun)]
    constructor
    · exact fun hexact secs hcounts => (hcounts.exact_iff hencodes).mp hexact
    intro hsurvives
    by_cases hempty : header = []
    · have hread : h.parseWrapTTL header = .ok 0 := if_pos hempty
      have hdenoted : h.denoted header = some 0 := if_pos hempty
      exact (lifetimeExact_of_read hencodes hread hdenoted).mpr (by decide)
    by_cases hcounts : ∃ secs, h.Counts header secs
    · obtain ⟨secs, hcounts⟩ := hcounts
      exact (hcounts.exact_iff hencodes).mpr (hsurvives secs hcounts)
    · refine .of_refused ?_
      have hnone : (Duration.atoi64 header).filter (0 ≤ ·) = none := by
        refine Option.filter_eq_none_iff.mpr fun secs hsecs => ?_
        simpa using fun hpos => hcounts ⟨secs, hempty, hparts, hsecs, hpos⟩
      unfold parseWrapTTL
      rw [if_neg hempty, Duration.parseDuration_eq, hparts, hnone]
      exact ⟨_, rfl⟩

end Handler

/-- A handler over an empty store. -/
def plainHandler : Handler := ⟨Store.transparent, fun _ _ => 0, fun _ => []⟩

theorem encodes_plainHandler : Encodes plainHandler.wrapping [] 0 := fun _ _ => ⟨_, rfl⟩

/-- An hour in seconds, and an hour and a half as a duration. -/
theorem lifetimeExact_hour :
    plainHandler.LifetimeExact (str "3600") ∧ plainHandler.LifetimeExact (str "1h30m") := by
  refine ⟨(Handler.lifetimeExact_iff encodes_plainHandler).mpr ⟨fun secs hcounts => .inl ?_, ?_⟩,
    (Handler.lifetimeExact_iff encodes_plainHandler).mpr ⟨fun secs hcounts => ?_, ?_⟩⟩
  · have hatoi : Duration.atoi64 (str "3600") = some 3600 := by decide +kernel
    cases hatoi.symm.trans hcounts.2.2.1
    decide
  · have hparts : Duration.signedParts (fun _ _ => 0) (str "3600") = none := by decide +kernel
    exact fun negative ns heq => nomatch hparts.symm.trans heq
  · have hatoi : Duration.atoi64 (str "1h30m") = none := by decide +kernel
    cases hatoi.symm.trans hcounts.2.2.1
  · have hparts : Duration.signedParts (fun _ _ => 0) (str "1h30m")
        = some (false, [3600000000000, 1800000000000]) := by decide +kernel
    intro negative ns heq _
    cases hparts.symm.trans heq
    exact .inl (by decide)

/--
More than five hundred years in seconds, which are kept for a third of a second, and as a
duration, which is kept for five minutes.
-/
theorem lifetime_wraps :
    (plainHandler.denoted (str "18446744074") = some 18446744074000000000 ∧
      (maxTTL : Int) < 18446744074000000000 ∧
      ∃ info w', (plainHandler.wrapRequest (str "18446744074") (.ok (str "null"))).run
        (Env.answer .faultless) ⟨∅, 0⟩ = (.ok info, w') ∧
        info.expiresAt = info.creationTime + 290448384) ∧
    plainHandler.denoted (str "9223372036854775808ns9223372036854775808ns") = some (2 ^ 64) ∧
      ∃ info w', (plainHandler.wrapRequest (str "9223372036854775808ns9223372036854775808ns")
        (.ok (str "null"))).run (Env.answer .faultless) ⟨∅, 0⟩ = (.ok info, w') ∧
        info.expiresAt = info.creationTime + defaultTTL := by
  exact ⟨⟨by decide +kernel, by decide, ⟨tokenOf zeros, 290448384, 0, 290448384⟩, _,
      Prod.ext (by decide +kernel) rfl, rfl⟩,
    by decide +kernel, ⟨tokenOf zeros, defaultTTL, 0, defaultTTL⟩, _,
      Prod.ext (by decide +kernel) rfl, rfl⟩

end UbixVault.Wrapping
