/-
What the claims of an accepted token say.

The check compares texts, and two kinds of claims have a text that is not their value.
What is absent or has no value of its own is the empty text, so a binding to the empty
text takes it for a match.  An integer of seven digits or more is printed with an
exponent, so a binding to its digits refuses it and one to that text takes it.  The
check is exact except where such a claim decides it.
-/
import UbixVault.JwtAuth
import UbixVault.Proofs.Basic

namespace UbixVault.JwtAuth

/-! ### Texts of numbers -/

theorem exponent_mem_sprintInteger {n : Int} (h : ¬ n.natAbs < 10 ^ 6) : (0x65 : Byte) ∈ sprintInteger n := by
  have hmem : (0x65 : Byte) ∈ scientific n.natAbs := by
    have he : (0x65 : Byte) ∈ str "e+" := by decide_cbv
    exact List.mem_append_left _ (List.mem_append_right _ he)
  unfold sprintInteger
  rw [if_neg h]
  split_ifs
  · exact List.mem_cons_of_mem _ hmem
  · exact hmem

theorem exponent_notMem_itoa (n : Int) : (0x65 : Byte) ∉ itoa n := by
  have hdecimal : ∀ k, (0x65 : Byte) ∉ decimal k := by
    intro k hk
    obtain ⟨d, hd, heq⟩ := mem_decimal hk
    interval_cases d <;> exact absurd heq (by decide)
  cases n with
  | ofNat n => exact hdecimal n
  | negSucc n =>
    intro h
    rcases List.mem_cons.mp h with h | h
    · exact absurd h (by decide)
    · exact hdecimal _ h

theorem sprintInteger_ne_itoa {n : Int} (h : ¬ n.natAbs < 10 ^ 6) : sprintInteger n ≠ itoa n := by
  intro heq
  have hmem := exponent_mem_sprintInteger h
  rw [heq] at hmem
  exact exponent_notMem_itoa n hmem

/-! ### Values -/

/-- A claim has the value that a binding asks for. -/
def Carries : Option Claim → Bytes → Prop
  | some (.text s), want => want = s
  | some (.bool b), want => want = str (if b then "true" else "false")
  | some (.integer n), want => want = itoa n
  | some (.float printed _), want => want = printed
  | _, _ => False

/-- There is no claim, or none with a value of its own. -/
def Valueless : Option Claim → Prop
  | none => True
  | some .null => True
  | some (.array _) => True
  | some .object => True
  | _ => False

/-- A claim that a binding takes for a match. -/
inductive TakenWrongly : Option Claim → Bytes → Prop
  | valueless {claim : Option Claim} : Valueless claim → TakenWrongly claim []
  | exponent {n : {n : Int // n.natAbs ≤ 2 ^ 53}} :
      ¬ n.val.natAbs < 10 ^ 6 → TakenWrongly (some (.integer n)) (sprintInteger n)

/-- A claim that a binding refuses although it has the value. -/
inductive RefusedWrongly : Option Claim → Bytes → Prop
  | digits {n : {n : Int // n.natAbs ≤ 2 ^ 53}} :
      ¬ n.val.natAbs < 10 ^ 6 → RefusedWrongly (some (.integer n)) (itoa n)

/-- A claim that has the value, and is not refused. -/
def Settled (claim : Option Claim) (want : Bytes) : Prop :=
  Carries claim want ∧ ¬ RefusedWrongly claim want

theorem stringifyClaim_eq_nil {claim : Option Claim} (h : Valueless claim) : stringifyClaim claim = [] := by
  match claim, h with
  | none, _ => rfl
  | some .null, _ => rfl
  | some (.array _), _ => rfl
  | some .object, _ => rfl

theorem not_carries_of_valueless {claim : Option Claim} (h : Valueless claim) (want : Bytes) :
    ¬ Carries claim want := by
  match claim, h with
  | none, _ => exact id
  | some .null, _ => exact id
  | some (.array _), _ => exact id
  | some .object, _ => exact id

theorem stringifyClaim_ne_of_refused {claim : Option Claim} {want : Bytes} (h : RefusedWrongly claim want) :
    stringifyClaim claim ≠ want := by
  cases h with
  | digits hlarge => exact sprintInteger_ne_itoa hlarge

theorem stringifyClaim_of_settled {claim : Option Claim} {want : Bytes} (h : Settled claim want) :
    stringifyClaim claim = want := by
  obtain ⟨hcarries, hnot⟩ := h
  match claim with
  | none => exact absurd hcarries id
  | some .null => exact absurd hcarries id
  | some (.array _) => exact absurd hcarries id
  | some .object => exact absurd hcarries id
  | some (.text s) => exact hcarries.symm
  | some (.float printed _) => exact hcarries.symm
  | some (.bool true) => exact hcarries.symm
  | some (.bool false) => exact hcarries.symm
  | some (.integer n) =>
    have hwant : want = itoa n := hcarries
    subst hwant
    exact if_pos (not_not.mp fun hlarge => hnot (.digits hlarge))

/-- Where the text of a claim and its value disagree. -/
theorem stringifyClaim_eq_iff (claim : Option Claim) (want : Bytes) :
    stringifyClaim claim = want ↔ Settled claim want ∨ TakenWrongly claim want := by
  constructor
  · intro h
    by_cases hcarries : Carries claim want
    · exact .inl ⟨hcarries, fun hrefused => stringifyClaim_ne_of_refused hrefused h⟩
    · refine .inr ?_
      match claim with
      | none => exact h ▸ .valueless trivial
      | some .null => exact h ▸ .valueless trivial
      | some (.array _) => exact h ▸ .valueless trivial
      | some .object => exact h ▸ .valueless trivial
      | some (.text s) => exact absurd h.symm hcarries
      | some (.float printed _) => exact absurd h.symm hcarries
      | some (.bool true) => exact absurd h.symm hcarries
      | some (.bool false) => exact absurd h.symm hcarries
      | some (.integer n) =>
        subst h
        refine .exponent fun hsmall => hcarries ?_
        exact if_pos hsmall
  · intro h
    rcases h with h | h
    · exact stringifyClaim_of_settled h
    · cases h with
      | valueless hvalue => exact stringifyClaim_eq_nil hvalue
      | exponent _ => rfl

theorem carries_iff (claim : Option Claim) (want : Bytes) :
    Carries claim want ↔ Settled claim want ∨ RefusedWrongly claim want := by
  constructor
  · intro h
    by_cases hrefused : RefusedWrongly claim want
    · exact .inr hrefused
    · exact .inl ⟨h, hrefused⟩
  · intro h
    rcases h with h | h
    · exact h.1
    · cases h with
      | digits _ => rfl

theorem not_carries_of_taken {claim : Option Claim} {want : Bytes} (h : TakenWrongly claim want) :
    ¬ Carries claim want := by
  cases h with
  | valueless hvalue => exact not_carries_of_valueless hvalue []
  | exponent hlarge => exact sprintInteger_ne_itoa hlarge

/-! ### Audiences -/

/-- A token names one of the audiences, alone or in an array. -/
def NamesOneOf (aud : Option Claim) (allowed : List Bytes) : Prop :=
  ∃ a ∈ allowed, aud = some (.text a) ∨ ∃ items, aud = some (.array items) ∧ .text a ∈ items

theorem mem_audiences {aud : Option Claim} {a : Bytes} :
    a ∈ audiences aud ↔ aud = some (.text a) ∨ ∃ items, aud = some (.array items) ∧ .text a ∈ items := by
  match aud with
  | none => simp [audiences]
  | some .null => simp [audiences]
  | some .object => simp [audiences]
  | some (.bool _) => simp [audiences]
  | some (.integer _) => simp [audiences]
  | some (.float _ _) => simp [audiences]
  | some (.text s) => simp [audiences, eq_comm]
  | some (.array items) =>
    simp only [audiences, List.mem_filterMap]
    constructor
    · intro ⟨item, hitem, hvalue⟩
      match item, hvalue with
      | .text s, hvalue =>
        rw [← Option.some.inj hvalue]
        exact .inr ⟨items, rfl, hitem⟩
    · intro h
      rcases h with h | ⟨items', h, hmem⟩
      · exact absurd h nofun
      · cases h
        exact ⟨.text a, hmem, rfl⟩

theorem audienceMatches_iff (aud : Option Claim) (allowed : List Bytes) :
    audienceMatches aud allowed = true ↔ NamesOneOf aud allowed := by
  simp only [audienceMatches, List.any_eq_true, decide_eq_true_eq]
  constructor
  · intro ⟨a, ha, want, hwant, heq⟩
    subst heq
    exact ⟨a, hwant, mem_audiences.mp ha⟩
  · intro ⟨a, hallowed, haud⟩
    exact ⟨a, mem_audiences.mpr haud, a, hallowed, rfl⟩

/-! ### The checks -/

theorem checkBound_eq_ok {claims : Claims} (order : List ((_ : Bytes) × Bytes)) :
    checkBound claims order = .ok () ↔ ∀ e ∈ order, stringifyClaim (claims.lookup e.1) = e.2 := by
  induction order with
  | nil => simp [checkBound]
  | cons e rest ih =>
    unfold checkBound
    by_cases h : stringifyClaim (claims.lookup e.1) = e.2
    · rw [if_neg (not_not.mpr h), ih]
      simp [h]
    · rw [if_pos h]
      simp [h]

/-- The times of a token are valid: it has not expired, and it is valid already. -/
def TimesValid (now : Time) (claims : Claims) : Prop :=
  (∃ exp, numericClaim claims (str "exp") = some exp ∧ now ≤ exp + leeway) ∧
    ∀ nbf, numericClaim claims (str "nbf") = some nbf → nbf ≤ now + leeway

/-- The issuer of a token is the one that is bound, if one is. -/
def IssuerValid (cfg : Config) (claims : Claims) : Prop :=
  cfg.boundIssuer ≠ [] → claims.lookup (str "iss") = some (.text cfg.boundIssuer)

variable {now : Time} {cfg : Config} {role : Role} {claims : Claims} {order : List ((_ : Bytes) × Bytes)}

theorem checkTimes_eq_ok (h : TimesValid now claims) : checkTimes now claims = .ok () := by
  obtain ⟨⟨exp, hexp, hle⟩, hnbf⟩ := h
  unfold checkTimes
  rw [hexp]
  simp only [if_neg (not_lt.mpr hle)]
  cases h : numericClaim claims (str "nbf") with
  | none => rfl
  | some nbf => simp only [if_neg (not_lt.mpr (hnbf nbf h))]

/-- A claim that is no text is no issuer. -/
theorem issuerValid_iff :
    IssuerValid cfg claims ↔ ¬ (cfg.boundIssuer ≠ [] ∧ issuer claims ≠ cfg.boundIssuer) := by
  unfold IssuerValid
  rw [not_and_not_right]
  refine forall_congr' fun hbound => ⟨fun h => by rw [issuer, h], fun h => ?_⟩
  unfold issuer at h
  split at h
  · next hiss => rw [hiss, h]
  · exact absurd h.symm hbound

/-- With valid times and issuer, the audience and the bound claims decide. -/
theorem validateClaims_eq_ok (htimes : TimesValid now claims) (hissuer : IssuerValid cfg claims) :
    validateClaims now cfg role order claims = .ok () ↔
      (role.boundAudiences ≠ [] → NamesOneOf (claims.lookup (str "aud")) role.boundAudiences) ∧
        ∀ e ∈ order, stringifyClaim (claims.lookup e.1) = e.2 := by
  have hrun : validateClaims now cfg role order claims
      = if role.boundAudiences ≠ [] ∧ ¬ audienceMatches (claims.lookup (str "aud")) role.boundAudiences then
          .error .audienceMismatch
        else checkBound claims order := by
    unfold validateClaims
    rw [checkTimes_eq_ok htimes]
    simp only [if_neg (issuerValid_iff.mp hissuer)]
    split_ifs <;> rfl
  rw [hrun, ← audienceMatches_iff, ← checkBound_eq_ok]
  split_ifs with h
  · simp [h.1, h.2]
  · have haud : role.boundAudiences ≠ [] →
        audienceMatches (claims.lookup (str "aud")) role.boundAudiences = true := by
      intro hne
      by_contra hno
      exact h ⟨hne, hno⟩
    exact ⟨fun hok => ⟨haud, hok⟩, fun hok => hok.2⟩

/-! ### Acceptance -/

/-- A role asks for a value of a claim. -/
def Role.Binds (role : Role) (name want : Bytes) : Prop := role.boundClaims.lookup name = some want

/-- The token names a bound audience, if any are bound. -/
def AudienceValid (role : Role) (claims : Claims) : Prop :=
  role.boundAudiences ≠ [] → NamesOneOf (claims.lookup (str "aud")) role.boundAudiences

/-- Tokens are accepted exactly if they name a bound audience and carry every bound claim. -/
structure AcceptsExactly (now : Time) (cfg : Config) (role : Role) (order : List ((_ : Bytes) × Bytes))
    (claims : Claims) : Prop where
  exact : validateClaims now cfg role order claims = .ok () ↔
    AudienceValid role claims ∧ ∀ name want, role.Binds name want → Carries (claims.lookup name) want
  lacking : ∀ name want, role.Binds name want → claims.lookup name = none →
    validateClaims now cfg role order claims ≠ .ok ()

/-- Nothing but claims that are misread, all in one way, decides on the token. -/
def Misjudged (role : Role) (claims : Claims) : Prop :=
  AudienceValid role claims ∧
    (((∃ name want, role.Binds name want ∧ TakenWrongly (claims.lookup name) want) ∧
        ∀ name want, role.Binds name want →
          Settled (claims.lookup name) want ∨ TakenWrongly (claims.lookup name) want) ∨
      ((∃ name want, role.Binds name want ∧ RefusedWrongly (claims.lookup name) want) ∧
        ∀ name want, role.Binds name want →
          Settled (claims.lookup name) want ∨ RefusedWrongly (claims.lookup name) want))

theorem accepted_iff (htimes : TimesValid now claims) (hissuer : IssuerValid cfg claims)
    (horder : IsOrder role.boundClaims order) :
    validateClaims now cfg role order claims = .ok () ↔
      AudienceValid role claims ∧ ∀ name want, role.Binds name want →
        stringifyClaim (claims.lookup name) = want := by
  rw [validateClaims_eq_ok htimes hissuer]
  refine and_congr_right fun _ => ?_
  constructor
  · intro h name want hbinds
    exact h ⟨name, want⟩ (horder.mem_iff.mpr hbinds)
  · intro h e he
    exact h e.1 e.2 (horder.mem_iff.mp he)

/-- The check of a token is exact unless only misread claims decide on it. -/
theorem acceptsExactly_iff (htimes : TimesValid now claims) (hissuer : IssuerValid cfg claims)
    (horder : IsOrder role.boundClaims order) :
    AcceptsExactly now cfg role order claims ↔ ¬ Misjudged role claims := by
  have haccepted := accepted_iff htimes hissuer horder
  constructor
  · intro h ⟨haud, hmisread⟩
    rcases hmisread with ⟨⟨name, want, hbinds, htaken⟩, hall⟩ | ⟨⟨name, want, hbinds, hrefused⟩, hall⟩
    · have hok := haccepted.mpr ⟨haud, fun n w hb => (stringifyClaim_eq_iff _ _).mpr (hall n w hb)⟩
      exact not_carries_of_taken htaken ((h.exact.mp hok).2 name want hbinds)
    · have hok := h.exact.mpr ⟨haud, fun n w hb => (carries_iff _ _).mpr (hall n w hb)⟩
      exact stringifyClaim_ne_of_refused hrefused ((haccepted.mp hok).2 name want hbinds)
  · intro h
    have hexact : validateClaims now cfg role order claims = .ok () ↔
        AudienceValid role claims ∧ ∀ name want, role.Binds name want →
          Carries (claims.lookup name) want := by
      rw [haccepted]
      refine and_congr_right fun haud => ⟨fun hall name want hbinds => ?_, fun hall name want hbinds => ?_⟩
      · by_contra hno
        have htaken := (stringifyClaim_eq_iff _ _).mp (hall name want hbinds)
        refine h ⟨haud,
          .inl ⟨⟨name, want, hbinds, ?_⟩, fun n w hb => (stringifyClaim_eq_iff _ _).mp (hall n w hb)⟩⟩
        exact htaken.resolve_left fun hsettled => hno hsettled.1
      · by_contra hno
        have hrefused := (carries_iff _ _).mp (hall name want hbinds)
        refine h ⟨haud, .inr ⟨⟨name, want, hbinds, ?_⟩, fun n w hb => (carries_iff _ _).mp (hall n w hb)⟩⟩
        exact hrefused.resolve_left fun hsettled => hno (stringifyClaim_of_settled hsettled)
    refine ⟨hexact, fun name want hbinds hnone hok => ?_⟩
    have hcarries := (hexact.mp hok).2 name want hbinds
    rw [hnone] at hcarries
    exact hcarries

/-! ### Tokens of two roles -/

instance decidableTimesValid (now : Time) (claims : Claims) : Decidable (TimesValid now claims) :=
  inferInstanceAs (Decidable ((∃ exp ∈ numericClaim claims (str "exp"), _) ∧
    ∀ nbf ∈ numericClaim claims (str "nbf"), _))

instance decidableIssuerValid (cfg : Config) (claims : Claims) : Decidable (IssuerValid cfg claims) :=
  decidable_of_iff _ issuerValid_iff.symm

instance decidableCarries : ∀ claim want, Decidable (Carries claim want)
  | some (.text s), want => inferInstanceAs (Decidable (want = s))
  | some (.bool b), want => inferInstanceAs (Decidable (want = str (if b then "true" else "false")))
  | some (.integer n), want => inferInstanceAs (Decidable (want = itoa n))
  | some (.float printed _), want => inferInstanceAs (Decidable (want = printed))
  | none, _ | some .null, _ | some (.array _), _ | some .object, _ => .isFalse id

/-- A token that expires in the year 2100, and has one more claim. -/
def tokenWith (name : Bytes) (claim : Claim) : Claims :=
  (Finmap.singleton (str "exp") (.integer ⟨4102444800, by decide⟩)).insert name claim

/-- A role that binds one claim. -/
def binding (name want : Bytes) : Role := ⟨[], Finmap.singleton name want⟩

/-- No issuer is bound. -/
def anyIssuer : Config := ⟨[]⟩

/-- A token without the bound claim is accepted, and one with the bound number is not. -/
theorem bindings_misread :
    (validateClaims 0 anyIssuer (binding (str "tier") []) [⟨str "tier", []⟩]
        (tokenWith (str "sub") (.text (str "alice"))) = .ok () ∧
      (tokenWith (str "sub") (.text (str "alice"))).lookup (str "tier") = none ∧
      ¬ AcceptsExactly 0 anyIssuer (binding (str "tier") []) [⟨str "tier", []⟩]
        (tokenWith (str "sub") (.text (str "alice")))) ∧
    validateClaims 0 anyIssuer (binding (str "uid") (str "1000000")) [⟨str "uid", str "1000000"⟩]
        (tokenWith (str "uid") (.integer ⟨1000000, by decide⟩)) ≠ .ok () ∧
      stringifyClaim ((tokenWith (str "uid") (.integer ⟨1000000, by decide⟩)).lookup (str "uid"))
        = str "1e+06" := by
  have hnone : (tokenWith (str "sub") (.text (str "alice"))).lookup (str "tier") = none :=
    Option.isNone_iff_eq_none.mp (by decide +kernel)
  have hok : validateClaims 0 anyIssuer (binding (str "tier") []) [⟨str "tier", []⟩]
      (tokenWith (str "sub") (.text (str "alice"))) = .ok () := by decide +kernel
  have hbinds : (binding (str "tier") []).Binds (str "tier") [] := Finmap.lookup_singleton_eq
  exact ⟨⟨hok, hnone, fun h => h.lacking _ _ hbinds hnone hok⟩, by decide +kernel, by decide +kernel⟩

/-- Claims that are bound, and the values that are asked for. -/
def bounds : List ((_ : Bytes) × Bytes) :=
  [⟨str "sub", str "alice"⟩, ⟨str "admin", str "true"⟩, ⟨str "level", str "3"⟩]

/-- A role that binds an audience and a text, a boolean and an integer. -/
def boundRole : Role := ⟨[str "vault", str "backup"], bounds.toFinmap⟩

def boundIssuer : Config := ⟨str "idp"⟩

/-- A token with other audiences too. -/
def boundToken : Claims :=
  List.toFinmap [⟨str "exp", .integer ⟨4102444800, by decide⟩⟩,
    ⟨str "nbf", .integer ⟨-62135596800, by decide⟩⟩,
    ⟨str "iss", .text (str "idp")⟩, ⟨str "aud", .array [.text (str "web"), .null, .text (str "vault")]⟩,
    ⟨str "sub", .text (str "alice")⟩, ⟨str "admin", .bool true⟩, ⟨str "level", .integer ⟨3, by decide⟩⟩]

/-- The token is accepted, and rightly so. -/
theorem acceptsExactly_boundToken :
    validateClaims 0 boundIssuer boundRole bounds boundToken = .ok () ∧
      AcceptsExactly 0 boundIssuer boundRole bounds boundToken := by
  refine ⟨by decide +kernel, ?_⟩
  have horder : IsOrder boundRole.boundClaims bounds := rfl
  have hcarries : ∀ e ∈ bounds, Carries (boundToken.lookup e.1) e.2 := by decide +kernel
  have hprinted : ∀ e ∈ bounds, stringifyClaim (boundToken.lookup e.1) = e.2 := by decide +kernel
  refine (acceptsExactly_iff (by decide +kernel) (by decide +kernel) horder).mpr ?_
  rintro ⟨-, ⟨⟨name, want, hbinds, htaken⟩, -⟩ | ⟨⟨name, want, hbinds, hrefused⟩, -⟩⟩
  · exact not_carries_of_taken htaken (hcarries ⟨name, want⟩ (horder.mem_iff.mpr hbinds))
  · exact stringifyClaim_ne_of_refused hrefused (hprinted ⟨name, want⟩ (horder.mem_iff.mpr hbinds))

end UbixVault.JwtAuth
