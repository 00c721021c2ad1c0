/-
What the rules of a token are, and who gets which.

The rules come from policies and identity records that are read one by one.  They
are a function of those records: `stored` and `entityAt` say what a reader finds,
and `aclFor_spec` what the rules are then.  Two questions are settled from there:
whether a rule with a placeholder that has no value can count, and whether a token
that was handed on can do more than the one it came from.
-/
import UbixVault.Api.Auth
import UbixVault.Proofs.Identity
import UbixVault.Proofs.Policy
import UbixVault.Proofs.Reading
import UbixVault.Proofs.Template
import UbixVault.Proofs.Token.Calls

namespace UbixVault

open Program

/-! ### What is read -/

/-- The records that decide about requests: policies and identities. -/
def Governs (key : Key) : Prop := PolicyStore.storePrefix <+: key ∨ IdentityEngine.mountPrefix <+: key

theorem governs_policy (name : Bytes) : Governs (PolicyStore.key name) :=
  .inl (List.prefix_append _ _)

namespace IdentityEngine

variable {E : IdentityEngine}

theorem governs_entity (id : String) : Governs (entityKey id) := by
  refine .inr ?_
  unfold entityKey
  rw [List.append_assoc]
  exact List.prefix_append _ _

theorem governs_aliases {key : Key} (h : aliasesPrefix <+: key) : Governs key :=
  .inr ((List.prefix_append _ _).trans h)

theorem governs_groups {key : Key} (h : groupsPrefix <+: key) : Governs key :=
  .inr ((List.prefix_append _ _).trans h)

theorem steady_readRecord {α : Type} (json : Codec Byte α fun _ => True) (what : String)
    (missing : Err) {key : Key} (hkey : Governs key) :
    Steady Governs (readRecord json what missing key) := by
  refine ((Steady.get hkey).context _).bind fun blob => ?_
  cases blob with
  | none => exact Steady.throw _
  | some blob =>
    dsimp only
    cases json.unmarshal blob with
    | none => exact Steady.throw _
    | some a => exact Steady.pure a

theorem steady_readAll {α : Type} {read : Bytes → Act α} {missing : IdentityError}
    (hread : ∀ id, Steady Governs (read id)) (ids : List Bytes) :
    Steady Governs (readAll read (.identity missing) ids) := by
  induction ids with
  | nil => exact Steady.pure []
  | cons id ids ih =>
    refine ((hread id).optional (by nofun) (by nofun)).bind fun record => ?_
    exact ih.bind fun rest => Steady.pure _

theorem steady_groupPolicies (id : String) : Steady Governs (E.groupPoliciesForEntity id) := by
  have hgroups : ∀ id, Steady Governs (E.readGroup id) := fun id =>
    steady_readRecord _ _ _ (governs_groups (List.prefix_append _ _))
  have haliases : ∀ id, Steady Governs (E.readAlias id) := fun id =>
    steady_readRecord _ _ _ (governs_aliases (List.prefix_append _ _))
  refine ((Steady.list fun _ => governs_groups).context _).bind fun ids => ?_
  refine (steady_readAll hgroups ids).bind fun groups => ?_
  refine Steady.bind ?_ fun asserted => Steady.pure _
  refine ((Steady.list fun _ => governs_aliases).context _).bind fun ids => ?_
  exact (steady_readAll haliases ids).bind fun aliases => Steady.pure _

theorem steady_activeEntity (id : String) : Steady Governs (E.activeEntity id) :=
  ((steady_readRecord _ _ _ (governs_entity id)).optional (by nofun) (by nofun)).bind fun _ => Steady.pure _

theorem steady_policiesFor (id : String) : Steady Governs (E.policiesFor id) := by
  unfold policiesFor
  split_ifs with hid
  · exact Steady.pure []
  · refine (steady_activeEntity id).bind fun entity => ?_
    cases entity with
    | none => exact Steady.pure []
    | some entity => exact (steady_groupPolicies id).bind fun _ => Steady.pure _

theorem steady_templateValues (id : String) : Steady Governs (E.templateValues id) := by
  unfold templateValues
  split_ifs with hid
  · exact Steady.pure none
  · exact (steady_activeEntity id).bind fun _ => Steady.pure _

end IdentityEngine

theorem PolicyStore.steady_get (S : PolicyStore) (name : Bytes) : Steady Governs (S.get name) := by
  unfold PolicyStore.get
  split_ifs with hname
  · exact Steady.throw _
  · refine ((Steady.get (governs_policy name)).context _).bind fun data => ?_
    cases data with
    | none => exact Steady.throw _
    | some data => exact Steady.ofExcept _

namespace Auth

variable {h : Auth}

theorem steady_contributed (tok : Token) : Steady Governs (h.contributed tok) := by
  unfold contributed
  cases h.identity with
  | none => exact Steady.pure _
  | some engine =>
    dsimp only
    split_ifs with hid
    · exact Steady.pure _
    · refine (engine.steady_policiesFor _).bind fun names => ?_
      exact (engine.steady_templateValues _).bind fun vals => Steady.pure _

theorem steady_load {lookup : Bytes → Act Policy} (hlookup : ∀ name, Steady Governs (lookup name))
    (resolve : Option Resolver) (names : List String) :
    Steady Governs (load lookup resolve names) := by
  induction names with
  | nil => exact Steady.pure []
  | cons name names ih =>
    refine ((hlookup _).optional (by nofun) (by nofun)).bind fun p => ?_
    exact ih.bind fun rest => Steady.pure _

theorem steady_aclFor (tok : Token) : Steady Governs (h.aclFor tok) := by
  refine (steady_contributed tok).bind fun (names, resolve) => ?_
  exact (steady_load h.policies.steady_get resolve _).bind fun _ => Steady.pure _

end Auth

/-! ### What is found -/

variable {env : Env} {w : World}

/-- The policy that is stored under a name. -/
def PolicyStore.stored (S : PolicyStore) (store : Store) (name : Bytes) : Option Policy :=
  (store.lookup (PolicyStore.key name)).bind fun data => (S.parse name data).toOption

/-- The entity with this id, if it is there and not disabled. -/
def IdentityEngine.entityAt (E : IdentityEngine) (store : Store) (id : String) : Option Entity :=
  ((store.lookup (entityKey id)).bind E.entityJson.unmarshal).filter (!·.disabled)

theorem IdentityEngine.activeEntity_spec {E : IdentityEngine} {id : String} :
    Yields env.answer (E.activeEntity id) w
      (fun entity w' => entity = E.entityAt w.store id ∧ w'.store = w.store)
      (fun _ _ => True) := by
  refine Yields.bind (Act.yields_optional (Yields.bind (Act.yields_context (Act.get_found.mono ?_ ?_))))
  · rintro blob w₁ ⟨rfl, hs⟩
    unfold entityAt
    cases w.store.lookup (entityKey id) with
    | none => exact ⟨rfl, hs⟩
    | some blob =>
      dsimp only [Option.bind_some]
      cases E.entityJson.unmarshal blob with
      | none => exact Yields.throw trivial
      | some entity => exact Yields.pure (Yields.pure ⟨rfl, hs⟩)
  · rintro e w₁ (rfl | rfl)
    · exact trivial
    · exact trivial

/-- An entity that is missing or disabled contributes no policies. -/
theorem IdentityEngine.policiesFor_spec {E : IdentityEngine} {id : String} :
    Yields env.answer (E.policiesFor id) w
      (fun names w' => (E.entityAt w.store id = none → names = []) ∧ w'.store = w.store)
      (fun _ _ => True) := by
  unfold policiesFor
  split_ifs with hid
  · exact Yields.pure ⟨fun _ => rfl, rfl⟩
  refine Yields.bind (activeEntity_spec.mono ?_ fun _ _ _ => trivial)
  rintro entity w₁ ⟨rfl, hs₁⟩
  cases hentity : E.entityAt w.store id with
  | none => exact Yields.pure ⟨fun _ => rfl, hs₁⟩
  | some entity =>
    refine Yields.bind (((E.steady_groupPolicies id).yields env w₁).mono ?_ fun _ _ _ => trivial)
    exact fun _ w₂ hs₂ => Yields.pure ⟨nofun, hs₂.trans hs₁⟩

/-- `find` says what `lookup` answers; what is missing is nothing. -/
def Finds (lookup : Bytes → Act Policy) (find : Store → Bytes → Option Policy) : Prop :=
  ∀ (env : Env) (w : World) (name : Bytes),
    Yields env.answer (Act.optional (lookup name) (.policy .policyNotFound)) w
      (fun p w' => p = find w.store name ∧ w'.store = w.store) (fun _ _ => True)

theorem PolicyStore.finds_get (S : PolicyStore) : Finds S.get S.stored := by
  intro env w name
  refine Act.yields_optional ?_
  unfold PolicyStore.get
  split_ifs with hname
  · exact Yields.throw trivial
  · refine Yields.bind (Act.yields_context (Act.get_found.mono ?_ ?_))
    · rintro data w₁ ⟨rfl, hs⟩
      unfold PolicyStore.stored
      cases w.store.lookup (key name) with
      | none => exact Yields.throw ⟨rfl, hs⟩
      | some data =>
        refine Act.yields_ofExcept ?_ ?_
        · intro p hp
          exact ⟨by rw [Option.bind_some, hp]; rfl, hs⟩
        · intro e he
          split_ifs
          exact ⟨by rw [Option.bind_some, he]; rfl, hs⟩
    · rintro e w₁ (rfl | rfl)
      · exact trivial
      · exact trivial

theorem Finds.map {lookup : Bytes → Act Policy} {find : Store → Bytes → Option Policy}
    (hfinds : Finds lookup find) (g : Bytes → Policy → Policy) :
    Finds (fun name => do return g name (← lookup name))
      fun store name => (find store name).map (g name) := by
  intro env w name
  have h := hfinds env w name
  unfold Yields at h ⊢
  rw [Act.exec_optional] at h ⊢
  rw [exec_bind]
  rcases hrun : exec env.answer (lookup name) w with ⟨r, w'⟩
  rw [hrun] at h
  cases r with
  | ok p =>
    obtain ⟨hp, hs⟩ := h
    exact ⟨congrArg (Option.map (g name)) hp, hs⟩
  | error e =>
    dsimp only at h ⊢
    split_ifs at h ⊢
    · obtain ⟨hp, hs⟩ := h
      exact ⟨congrArg (Option.map (g name)) hp, hs⟩
    · exact h

namespace Auth

variable {h : Auth} {tok : Token}

/-- The entity whose values count for a token. -/
def entityOf (h : Auth) (store : Store) (tok : Token) : Option Entity :=
  h.identity.bind fun E => if tok.entityID = "" then none else E.entityAt store tok.entityID

theorem contributed_spec :
    Yields env.answer (h.contributed tok) w
      (fun r w' => r.2 = (h.entityOf w.store tok).map IdentityEngine.templateValue ∧
        w'.store = w.store ∧ (h.entityOf w.store tok = none → r = ([], none)))
      (fun _ _ => True) := by
  unfold contributed entityOf
  cases h.identity with
  | none => exact Yields.pure ⟨rfl, rfl, fun _ => rfl⟩
  | some E =>
    dsimp only [Option.bind_some]
    split_ifs with hid
    · exact Yields.pure ⟨rfl, rfl, fun _ => rfl⟩
    · refine Yields.bind (IdentityEngine.policiesFor_spec.mono ?_ fun _ _ _ => trivial)
      rintro names w₁ ⟨hnone, hs₁⟩
      refine Yields.bind ?_
      unfold IdentityEngine.templateValues
      rw [if_neg hid]
      refine Yields.bind (IdentityEngine.activeEntity_spec.mono ?_ fun _ _ _ => trivial)
      rintro entity w₂ ⟨rfl, hs₂⟩
      rw [hs₁]
      refine Yields.pure (Yields.pure ⟨rfl, hs₂.trans hs₁, fun hentity => ?_⟩)
      rw [hnone hentity, hentity]
      rfl

theorem load_spec {lookup : Bytes → Act Policy} {find : Store → Bytes → Option Policy}
    (hfinds : Finds lookup find) (resolve : Option Resolver) (names : List String) :
    Yields env.answer (load lookup resolve names) w
      (fun ps w' =>
        ps = names.filterMap (fun name => (find w.store (str name)).map (expand resolve)) ∧
          w'.store = w.store)
      (fun _ _ => True) := by
  induction names generalizing w with
  | nil => exact Yields.pure ⟨rfl, rfl⟩
  | cons name names ih =>
    refine Yields.bind ((hfinds env w (str name)).mono ?_ fun _ _ _ => trivial)
    rintro p w₁ ⟨rfl, hs₁⟩
    refine Yields.bind (ih.mono ?_ fun _ _ _ => trivial)
    rintro rest w₂ ⟨rfl, hs₂⟩
    refine Yields.pure ⟨?_, hs₂.trans hs₁⟩
    rw [hs₁]
    cases hfind : find w.store (str name) <;> simp [hfind]

/-- The policies a token has, its own and those of its entity. -/
def Attached (h : Auth) (env : Env) (w : World) (tok : Token) (names : List String) : Prop :=
  ∃ more resolve w', (h.contributed tok).exec env w = (.ok (more, resolve), w') ∧
    names = tok.policies ++ more

/-- The values that count for a token; without an entity there are none. -/
def values (h : Auth) (store : Store) (tok : Token) : Option Resolver :=
  (h.entityOf store tok).map IdentityEngine.templateValue

/-- **What the rules of a token are.** -/
theorem mem_rules_of_aclWith {lookup : Bytes → Act Policy}
    {find : Store → Bytes → Option Policy} (hfinds : Finds lookup find) {acl : Acl} {w' : World}
    (hrun : (h.aclWith lookup tok).exec env w = (.ok acl, w')) :
    ∃ names, h.Attached env w tok names ∧ ∀ r, r ∈ acl.rules ↔
      ∃ name ∈ names, ∃ p, find w.store (str name) = some p ∧
        r ∈ (expand (h.values w.store tok) p).rules := by
  obtain ⟨⟨more, resolve⟩, w₁, hmore, hload⟩ := exec_bind_eq_ok env.answer hrun
  obtain ⟨ps, w₂, hps, hacl⟩ := exec_bind_eq_ok env.answer hload
  obtain ⟨hresolve, hs₁, -⟩ := contributed_spec.of_ok hmore
  obtain ⟨rfl, -⟩ := (load_spec hfinds _ _).of_ok hps
  cases hacl
  refine ⟨tok.policies ++ more, ⟨more, resolve, w₁, hmore, rfl⟩, fun r => ?_⟩
  dsimp only at hresolve
  unfold values
  rw [← hresolve, hs₁]
  simp only [Acl.ofPolicies, List.mem_flatMap, List.mem_filterMap, Option.map_eq_some_iff]
  constructor
  · rintro ⟨_, ⟨name, hname, p, hp, rfl⟩, hr⟩
    exact ⟨name, hname, p, hp, hr⟩
  · rintro ⟨name, hname, p, hp, hr⟩
    exact ⟨_, ⟨name, hname, p, hp, rfl⟩, hr⟩

end Auth

/-! ### Rules with a placeholder that has no value -/

/-- The policy without one of its rules. -/
def Policy.without (r : Rule) (p : Policy) : Policy := { p with rules := p.rules.filter (· ≠ r) }

theorem Policy.mem_without {r r' : Rule} {p : Policy} :
    r' ∈ (p.without r).rules ↔ r' ∈ p.rules ∧ r' ≠ r := by
  simp [Policy.without]

namespace Auth

variable {h : Auth} {tok : Token} {r r' : Rule} {p : Policy}

/-- `aclFor`, had the rule not been in the policy. -/
def aclWithout (h : Auth) (n : Bytes) (r : Rule) (tok : Token) : Act Acl :=
  h.aclWith (fun name => do
    let p ← h.policies.get name
    return if name = n then p.without r else p) tok

/-- Where there are values, a rule that lacks one is dropped before it can count. -/
theorem mem_expand_without {f : Resolver} (hr : ¬ Resolves f r.path) :
    r' ∈ (expand (some f) (p.without r)).rules ↔ r' ∈ (expand (some f) p).rules := by
  simp only [expand, Policy.templated_rules, List.mem_filterMap, Policy.mem_without]
  constructor
  · rintro ⟨r₀, ⟨hr₀, -⟩, hsome⟩
    exact ⟨r₀, hr₀, hsome⟩
  · rintro ⟨r₀, hr₀, hsome⟩
    refine ⟨r₀, ⟨hr₀, ?_⟩, hsome⟩
    rintro rfl
    exact hr (Rule.templated_eq_some_iff.mp hsome).1

/-- Two readings of the policies of a token find the same names. -/
theorem Attached.unique {names names' : List String} (ha : h.Attached env w tok names)
    (ha' : h.Attached env w tok names') : names' = names := by
  obtain ⟨more, resolve, w₁, hrun, rfl⟩ := ha
  obtain ⟨more', resolve', w₂, hrun', rfl⟩ := ha'
  rw [hrun] at hrun'
  cases hrun'
  rfl

/-- Without an entity that is there and not disabled, a token has its own policies only. -/
theorem Attached.eq_of_no_entity {names : List String} (hnames : h.Attached env w tok names)
    (hentity : h.entityOf w.store tok = none) : names = tok.policies := by
  obtain ⟨more, resolve, w', hrun, rfl⟩ := hnames
  obtain ⟨-, -, hmore⟩ := contributed_spec.of_ok hrun
  cases hmore hentity
  rw [List.append_nil]

/-- The rules of stored policies, without one rule of one of them. -/
def rulesWithout (h : Auth) (store : Store) (names : List String) (n : Bytes) (r : Rule) :
    List Rule :=
  names.flatMap fun name =>
    ((h.policies.stored store (str name)).map fun p =>
      if str name = n then (p.without r).rules else p.rules).getD []

theorem mem_rulesWithout {store : Store} {names : List String} {n : Bytes} :
    r' ∈ h.rulesWithout store names n r ↔ ∃ name ∈ names, ∃ p,
      h.policies.stored store (str name) = some p ∧
        r' ∈ (if str name = n then p.without r else p).rules := by
  unfold rulesWithout
  rw [List.mem_flatMap]
  refine exists_congr fun name => and_congr_right fun _ => ?_
  cases h.policies.stored store (str name) with
  | none => simp
  | some p =>
    simp only [Option.map_some, Option.getD_some, Option.some.injEq, exists_eq_left']
    split_ifs <;> rfl

/--
**A rule with a placeholder that has no value counts for nothing** exactly if the token
has an entity that is there and not disabled, or the rule, read word by word, is idle next
to the other rules of the policies of the token.
-/
theorem unresolved_rule_idle_iff (h : Auth) (env : Env) (w w₁ w₂ : World) (tok : Token)
    (acl acl' : Acl) (names : List String) (name : String) (p : Policy) (r : Rule)
    (hacl : (h.aclFor tok).exec env w = (.ok acl, w₁))
    (hacl' : (h.aclWithout (str name) r tok).exec env w = (.ok acl', w₂))
    (hnames : h.Attached env w tok names) (hname : name ∈ names)
    (hstored : h.policies.stored w.store (str name) = some p) (hr : r ∈ p.rules)
    (hunresolved : ¬ Resolves ((h.values w.store tok).getD fun _ => none) r.path) :
    (∀ path c, acl'.allows path c = acl.allows path c) ↔
      (h.entityOf w.store tok).isSome = true ∨
        Idle [r] (h.rulesWithout w.store tok.policies (str name) r) := by
  have hfinds := h.policies.finds_get
  obtain ⟨names₁, hnames₁, hrules⟩ := mem_rules_of_aclWith hfinds hacl
  obtain ⟨names₂, hnames₂, hrules'⟩ := mem_rules_of_aclWith
    (hfinds.map fun n p => if n = str name then p.without r else p) hacl'
  obtain rfl := hnames.unique hnames₁
  obtain rfl := hnames.unique hnames₂
  have hvalues : (h.values w.store tok).isSome = (h.entityOf w.store tok).isSome :=
    Option.isSome_map
  simp only [Option.map_eq_some_iff, exists_exists_and_eq_and] at hrules'
  cases hv : h.values w.store tok with
  | some f =>
    rw [hv] at hunresolved hvalues hrules hrules'
    have hsame : ∀ r', r' ∈ acl'.rules ↔ r' ∈ acl.rules := by
      intro r'
      rw [hrules, hrules']
      refine exists_congr fun n => and_congr_right fun _ => exists_congr fun q =>
        and_congr_right fun _ => ?_
      split_ifs
      · exact mem_expand_without hunresolved
      · exact Iff.rfl
    exact iff_of_true (fun path c => allows_congr hsame) (.inl hvalues.symm)
  | none =>
    rw [hv] at hvalues hrules hrules'
    have hentity : h.entityOf w.store tok = none := by simpa using hvalues.symm
    obtain rfl := hnames.eq_of_no_entity hentity
    have hkept : ∀ r', r' ∈ acl'.rules ↔ r' ∈ h.rulesWithout w.store tok.policies (str name) r :=
      fun r' => (hrules' r').trans mem_rulesWithout.symm
    have hsplit : ∀ r', r' ∈ acl.rules ↔
        r' ∈ [r] ∨ r' ∈ h.rulesWithout w.store tok.policies (str name) r := by
      intro r'
      rw [hrules, mem_rulesWithout, List.mem_singleton]
      constructor
      · rintro ⟨n, hn, q, hq, hr'⟩
        by_cases heq : r' = r
        · exact .inl heq
        · refine .inr ⟨n, hn, q, hq, ?_⟩
          split_ifs
          · exact Policy.mem_without.mpr ⟨hr', heq⟩
          · exact hr'
      · rintro (rfl | ⟨n, hn, q, hq, hr'⟩)
        · exact ⟨name, hname, p, hstored, hr⟩
        · refine ⟨n, hn, q, hq, ?_⟩
          split_ifs at hr'
          · exact (Policy.mem_without.mp hr').1
          · exact hr'
    have hsame : ∀ path c, acl'.allows path c
        = (Acl.mk (h.rulesWithout w.store tok.policies (str name) r)).allows path c :=
      fun path c => allows_congr hkept
    rw [← hvalues]
    simp only [Option.isSome_none, Bool.false_eq_true, false_or, hsame]
    exact allows_eq_iff hsplit

/-! ### Tokens without an entity -/

theorem entityOf_of_no_entity (hid : tok.entityID = "") (store : Store) :
    h.entityOf store tok = none := by
  unfold entityOf
  cases h.identity <;> simp [hid]

/-- Such a token has the rules of its own policies, word by word. -/
theorem acl_of_no_entity (hid : tok.entityID = "") {acl : Acl} {w' : World}
    (hrun : (h.aclFor tok).exec env w = (.ok acl, w')) :
    acl = Acl.ofPolicies (tok.policies.filterMap fun name => h.policies.stored w.store (str name)) := by
  obtain ⟨⟨more, resolve⟩, w₁, hmore, hload⟩ := exec_bind_eq_ok env.answer hrun
  obtain ⟨ps, w₂, hps, hacl⟩ := exec_bind_eq_ok env.answer hload
  obtain ⟨-, hs₁, hnone⟩ := contributed_spec.of_ok hmore
  cases hnone (entityOf_of_no_entity hid _)
  obtain ⟨rfl, -⟩ := (load_spec h.policies.finds_get _ _).of_ok hps
  cases hacl
  rw [List.append_nil, hs₁]
  refine congrArg Acl.ofPolicies (List.filterMap_congr fun name _ => ?_)
  exact Option.map_id'

/-! ### A placeholder without an entity -/

/-- A handler without identities. -/
def bare : Auth := ⟨none, .transparent, Platform.transparent.tokens⟩

/-- A token with policies and nothing else. -/
def holder (policies : List String) : Token :=
  { id := str "t", policies, entityID := "", createdTime := 0, expiresAt := 0, maxExpiresAt := 0
    parentHash := [] }

/-- The store that holds just these policies. -/
def storing (ps : List Policy) : Store :=
  ps.foldr (fun p s => s.insert (PolicyStore.key p.name)
    (PolicyStore.transparent.json.marshal p.document)) ∅

/-- Everybody's own secret. -/
def ownRule : Rule := ⟨str "secret/\x7b\x7bidentity.entity.id\x7d\x7d", [.read]⟩

/-- Every secret. -/
def allRule : Rule := ⟨str "secret/*", [.read]⟩

theorem ownRule_unresolved : ¬ Resolves (fun _ => none) ownRule.path := by
  intro hresolves
  have hnone : expandTemplate (fun _ => none) ownRule.path = none := by decide_cbv
  rw [expandTemplate_of_resolves hresolves] at hnone
  cases hnone

/-- Without an entity a placeholder is read word by word, and the rule grants. -/
theorem unresolved_rule_grants :
    ∃ (h : Auth) (env : Env) (w w₁ w₂ : World) (tok : Token) (acl acl' : Acl)
      (names : List String) (name : String) (p : Policy) (r : Rule) (path : Bytes),
      (h.aclFor tok).exec env w = (.ok acl, w₁) ∧
      (h.aclWithout (str name) r tok).exec env w = (.ok acl', w₂) ∧
      h.Attached env w tok names ∧ name ∈ names ∧
      h.policies.stored w.store (str name) = some p ∧ r ∈ p.rules ∧
      ¬ Resolves ((h.values w.store tok).getD fun _ => none) r.path ∧
      acl.allows path .read = true ∧ acl'.allows path .read = false :=
  ⟨bare, .faultless, ⟨storing [⟨str "p", [ownRule]⟩], 0⟩, _, _, holder ["p"], ⟨[ownRule]⟩, ⟨[]⟩,
    ["p"], "p", ⟨str "p", [ownRule]⟩, ownRule, ownRule.path, exec_eq_of_fst _ (by decide +kernel),
    exec_eq_of_fst _ (by decide +kernel), ⟨[], none, _, rfl, rfl⟩, by simp, by decide +kernel,
    by simp, ownRule_unresolved, by decide +kernel, by decide +kernel⟩

/-- A policy with both rules. -/
def bothStored : Store := storing [⟨str "p", [ownRule, allRule]⟩]

/-- Where all secrets are granted anyway, the rule is idle. -/
theorem unresolved_rule_idle_among_all :
    ∃ acl acl' w₁ w₂,
      (bare.aclFor (holder ["p"])).exec .faultless ⟨bothStored, 0⟩ = (.ok acl, w₁) ∧
      (bare.aclWithout (str "p") ownRule (holder ["p"])).exec .faultless ⟨bothStored, 0⟩
        = (.ok acl', w₂) ∧
      ∀ path c, acl'.allows path c = acl.allows path c := by
  have hacl : (bare.aclFor (holder ["p"])).exec .faultless ⟨bothStored, 0⟩
      = (.ok ⟨[allRule, ownRule]⟩, _) := exec_eq_of_fst _ (by decide +kernel)
  have hacl' : (bare.aclWithout (str "p") ownRule (holder ["p"])).exec .faultless ⟨bothStored, 0⟩
      = (.ok ⟨[allRule]⟩, _) := exec_eq_of_fst _ (by decide +kernel)
  have hstored : bare.policies.stored bothStored (str "p")
      = some ⟨str "p", [allRule, ownRule]⟩ := by decide +kernel
  have hothers : bare.rulesWithout bothStored ["p"] (str "p") ownRule = [allRule] := by
    decide +kernel
  refine ⟨_, _, _, _, hacl, hacl', (unresolved_rule_idle_iff bare .faultless _ _ _ (holder ["p"]) _ _
    ["p"] "p" _ ownRule hacl hacl' ⟨[], none, _, rfl, rfl⟩ (by simp) hstored (by simp)
    ownRule_unresolved).mpr (.inr ?_)⟩
  rw [show (holder ["p"]).policies = ["p"] from rfl, hothers]
  have hmatch : ∀ path, matchPath ownRule.path path = true → matchPath allRule.path path = true := by
    intro path hpath
    have heq : ownRule.path = path := by
      simpa [matchPath, show ownRule.path.getLast? ≠ some star by decide +kernel] using hpath
    rw [← heq]
    decide +kernel
  refine ⟨?_, ?_⟩
  · rintro path ⟨r, hr, -, hdeny⟩
    rw [List.mem_singleton.mp hr] at hdeny
    exact absurd hdeny (by decide)
  · rintro path c ⟨r, hr, hpath, hc⟩
    rw [List.mem_singleton.mp hr] at hpath hc
    exact .inl ⟨allRule, List.mem_cons_self, hmatch path hpath, hc⟩

/-! ### Tokens that are handed on -/

/-- Nothing is missing only if everything is held. -/
theorem subset_of_notIn {want held : List String} (hnil : notIn want held = []) :
    ∀ name ∈ want, name ∈ held := by
  -- What was found missing stays in the list.
  have hgrows : ∀ (names missing : List String), missing ⊆ names.foldl (fun missing p =>
      if !held.contains p && !missing.contains p then missing ++ [p] else missing) missing := by
    intro names
    induction names with
    | nil => exact fun missing => List.Subset.refl _
    | cons n names ih =>
      intro missing
      refine List.Subset.trans ?_ (ih _)
      dsimp only
      split_ifs
      · exact List.subset_append_left _ _
      · exact List.Subset.refl _
  intro name hname
  by_contra hheld
  obtain ⟨before, after, rfl⟩ := List.append_of_mem hname
  unfold notIn at hnil
  rw [List.foldl_append, List.foldl_cons] at hnil
  have hin : name ∈ ([] : List String) := by
    rw [← hnil]
    refine hgrows _ _ ?_
    split_ifs with hcond
    · exact List.mem_append_right _ List.mem_cons_self
    · simpa [hheld] using hcond
  exact List.not_mem_nil hin

theorem createChild_holds {st : TokenStore} {parent C : Token} {policies : List String} {ttl : Time}
    {w' : World} (hrun : (st.createChild parent policies ttl).exec env w = (.ok C, w')) :
    C.policies = policies ∧ C.entityID = "" := by
  obtain ⟨now, w₁, -, hrun⟩ := exec_bind_eq_ok env.answer hrun
  obtain ⟨t, w₂, hcreate, hrun⟩ := exec_bind_eq_ok env.answer hrun
  obtain ⟨_, w₃, -, hrun⟩ := exec_bind_eq_ok env.answer hrun
  cases hrun
  obtain ⟨id, w₄, -, hcreate⟩ := exec_bind_eq_ok env.answer hcreate
  obtain ⟨now, w₅, -, hcreate⟩ := exec_bind_eq_ok env.answer hcreate
  obtain ⟨_, w₆, -, hcreate⟩ := exec_bind_eq_ok env.answer hcreate
  cases hcreate
  exact ⟨rfl, rfl⟩

/-- The rules that count for a token where the store is this one. -/
def Rules (h : Auth) (store : Store) (tok : Token) (acl : Acl) : Prop :=
  ∃ env w w', w.store = store ∧ (h.aclFor tok).exec env w = (.ok acl, w')

/-- Whoever is not root has its rules looked at, and hands on what it holds unless they say sudo. -/
theorem child_of_tokenCreate {P C : Token} {req : TokenCreateRequest} {w' : World}
    (hroot : P.isRoot = false) (hrun : (h.tokenCreate P req).exec env w = (.ok (.ok C), w')) :
    ∃ acl w₁, (h.aclFor P).exec env w = (.ok acl, w₁) ∧
      (acl.allows (str "auth/token/create") .«sudo» = true ∨
        (∀ name ∈ C.policies, name ∈ P.policies) ∧ C.entityID = "") := by
  unfold tokenCreate at hrun
  split_ifs at hrun
  · cases hrun
  · cases hrun
  · cases hrun
  cases httl : requestedTTL req.ttl with
  | none =>
    rw [httl] at hrun
    cases hrun
  | some ttl =>
    rw [httl] at hrun
    obtain ⟨isSudo, w₁, hsudo, hrun⟩ := exec_bind_eq_ok env.answer hrun
    unfold hasSudo at hsudo
    rw [hroot, if_neg (by simp)] at hsudo
    obtain ⟨acl, w₂, hacl, hsudo⟩ := exec_bind_eq_ok env.answer hsudo
    cases hsudo
    refine ⟨acl, w₁, hacl, ?_⟩
    cases hallows : acl.allows (str "auth/token/create") .«sudo» with
    | true => exact .inl rfl
    | false =>
      rw [hallows] at hrun
      simp only [Bool.not_false, if_true] at hrun
      split_ifs at hrun with hmissing
      · cases hrun
      · obtain ⟨C', w₃, hchild, hrun⟩ := exec_bind_eq_ok env.answer hrun
        cases hrun
        obtain ⟨hpolicies, hid⟩ := createChild_holds hchild
        refine .inr ⟨?_, hid⟩
        rw [hpolicies]
        exact subset_of_notIn (not_not.mp hmissing)

/-- A rule without placeholders is left as it is. -/
theorem mem_expand_of_plain {resolve : Option Resolver} (hr : r ∈ p.rules)
    (hplain : Resolves (fun _ => none) r.path) : r ∈ (expand resolve p).rules := by
  cases resolve with
  | none => exact hr
  | some f =>
    -- No piece is a placeholder, so each has its own text as its value.
    have htext : ∀ q ∈ pieces r.path, q.value f = some q.source := by
      intro q hq
      have hsome := hplain q hq
      cases q with
      | text s => rfl
      | hole s => cases hsome
    have hresolves : Resolves f r.path := fun q hq => by rw [htext q hq]; rfl
    have hpath : replaced f r.path = r.path := by
      conv_rhs => rw [← @pieces_source r.path]
      unfold replaced
      refine List.flatMap_congr fun q hq => ?_
      rw [htext q hq]
      rfl
    simp only [expand, Policy.templated_rules, List.mem_filterMap]
    refine ⟨r, hr, Rule.templated_eq_some_iff.mpr ⟨hresolves, ?_⟩⟩
    rw [hpath]

theorem permits_mono {acl acl' : Acl} {method : Method} {path : Bytes}
    (hmono : ∀ c, acl.allows path c = true → acl'.allows path c = true)
    (hpermits : permits acl method path = true) : permits acl' method path = true := by
  have hwrites : (acl.allows path .create || acl.allows path .update) = true →
      (acl'.allows path .create || acl'.allows path .update) = true := by
    rw [Bool.or_eq_true, Bool.or_eq_true]
    exact Or.imp (hmono _) (hmono _)
  cases method with
  | get => exact hmono _ hpermits
  | list => exact hmono _ hpermits
  | delete => exact hmono _ hpermits
  | post => exact hwrites hpermits
  | put => exact hwrites hpermits
  | other => cases hpermits

/-- An answer is yes because nothing has to be asked, or because the rules permit it. -/
theorem exec_authorize_of_rules {method : Method} {path : Bytes} {acl : Acl} {w' : World}
    (hacl : (h.aclFor tok).exec env w = (.ok acl, w')) (hpermits : permits acl method path = true) :
    ∃ w₁, (h.authorize tok method path).exec env w = (.ok true, w₁) := by
  unfold authorize
  split_ifs
  · exact ⟨w, rfl⟩
  · exact ⟨w, rfl⟩
  · refine ⟨w', ?_⟩
    rw [← hpermits]
    exact exec_bind_ok env.answer hacl _

theorem rules_of_authorize {method : Method} {path : Bytes} {w' : World}
    (hroot : tok.isRoot = false) (hopen : openTo path = false)
    (hrun : (h.authorize tok method path).exec env w = (.ok true, w')) :
    ∃ acl, (h.aclFor tok).exec env w = (.ok acl, w') ∧ permits acl method path = true := by
  unfold authorize at hrun
  rw [hroot, hopen, if_neg (by simp), if_neg (by simp)] at hrun
  obtain ⟨acl, w₁, hacl, hrun⟩ := exec_bind_eq_ok env.answer hrun
  obtain ⟨hpermits, rfl⟩ : Except.ok (permits acl method path) = Except.ok (ε := Err) true ∧ w₁ = w' :=
    Prod.mk.inj hrun
  exact ⟨acl, hacl, Except.ok.inj hpermits⟩

/--
**A child can do no more than its parent**, as long as no rule that denies the path was
left behind with a policy the child did not get, and the rules that match the path
have no placeholders where the parent has an entity to replace them.
-/
theorem child_authorized_only_as_parent (h : Auth) (env : Env) (w w₁ : World) (P C : Token)
    (req : TokenCreateRequest) (store : Store) (method : Method) (path : Bytes)
    (hroot : P.isRoot = false)
    (hsudo : ∀ acl, h.Rules w.store P acl → acl.allows (str "auth/token/create") .«sudo» = false)
    (hissued : (h.tokenCreate P req).exec env w = (.ok (.ok C), w₁))
    (hsame : SameOn Governs w.store store)
    (hdenies : ∀ aclP aclC, h.Rules store P aclP → h.Rules store C aclC →
      ∀ r ∈ aclP.rules, Denies [r] path → r ∈ aclC.rules)
    (hplain : (h.entityOf store P).isSome = true → ∀ aclC, h.Rules store C aclC →
      ∀ r ∈ aclC.rules, matchPath r.path path = true → Resolves (fun _ => none) r.path)
    (envC : Env) (wC wC₁ : World) (hwC : wC.store = store)
    (hchild : (h.authorize C method path).exec envC wC = (.ok true, wC₁))
    (envP : Env) (wP : World) (hwP : wP.store = store) (hworks : envP.Works) :
    ∃ wP₁, (h.authorize P method path).exec envP wP = (.ok true, wP₁) := by
  obtain ⟨aclP, w₂, haclP, hcase⟩ := child_of_tokenCreate hroot hissued
  obtain ⟨hsub, hid⟩ : (∀ name ∈ C.policies, name ∈ P.policies) ∧ C.entityID = "" := by
    refine hcase.resolve_left ?_
    rw [hsudo aclP ⟨env, w, w₂, rfl, haclP⟩]
    exact Bool.false_ne_true
  -- The rules of the parent were read when the child was issued; they are read again.
  obtain ⟨wP₁, haclP'⟩ := (steady_aclFor P).again haclP hworks (by rwa [hwP])
  cases hopen : openTo path with
  | true =>
    refine ⟨wP, ?_⟩
    unfold authorize
    rw [hroot, hopen, if_neg (by simp), if_pos rfl]
    rfl
  | false =>
    have hCroot : C.isRoot = false := by
      unfold Token.isRoot at hroot ⊢
      rw [List.contains_eq_mem, decide_eq_false_iff_not] at hroot ⊢
      exact fun hmem => hroot (hsub _ hmem)
    obtain ⟨aclC, haclC, hpermits⟩ := rules_of_authorize hCroot hopen hchild
    have hrulesP : h.Rules store P aclP := ⟨envP, wP, wP₁, hwP, haclP'⟩
    have hrulesC : h.Rules store C aclC := ⟨envC, wC, wC₁, hwC, haclC⟩
    refine exec_authorize_of_rules haclP' (permits_mono (fun c hc => ?_) hpermits)
    rw [allows_iff] at hc ⊢
    obtain ⟨hnone, r, hr, hmatch, hcap⟩ := hc
    constructor
    · rintro ⟨r', hr', hmatch', hdeny⟩
      have hdenies' : Denies [r'] path := ⟨r', List.mem_cons_self, hmatch', hdeny⟩
      exact hnone ⟨r', hdenies aclP aclC hrulesP hrulesC r' hr' hdenies', hmatch', hdeny⟩
    · refine ⟨r, ?_, hmatch, hcap⟩
      obtain ⟨name, hname, p, hp, hrp⟩ :
          ∃ name ∈ C.policies, ∃ p, h.policies.stored wC.store (str name) = some p ∧ r ∈ p.rules := by
        rw [acl_of_no_entity hid haclC] at hr
        obtain ⟨p, hp, hrp⟩ := List.mem_flatMap.mp hr
        obtain ⟨name, hname, hp⟩ := List.mem_filterMap.mp hp
        exact ⟨name, hname, p, hp, hrp⟩
      obtain ⟨names, ⟨more, resolve, w₃, -, hnames⟩, hmem⟩ :=
        mem_rules_of_aclWith h.policies.finds_get haclP'
      refine (hmem r).mpr ⟨name, ?_, p, ?_, ?_⟩
      · rw [hnames]
        exact List.mem_append_left _ (hsub name hname)
      · rw [hwP, ← hwC]
        exact hp
      · unfold values
        rw [hwP]
        cases hentity : h.entityOf store P with
        | none => exact hrp
        | some entity =>
          rw [hentity] at hplain
          exact mem_expand_of_plain hrp (hplain rfl aclC hrulesC r hr hmatch)

/-- A request for these policies, with defaults otherwise. -/
def asking (policies : List String) : TokenCreateRequest :=
  { policies, ttl := none, numUses := 0, type := [], entityAlias := [] }

/-- Two policies in the store. -/
def pairStore (a b : List Rule) : Store := storing [⟨str "a", a⟩, ⟨str "b", b⟩]

/-- What who holds both gets on asking for the first. -/
def handedOn (a b : List Rule) : Except Err (Except Response Token) × World :=
  (bare.tokenCreate (holder ["a", "b"]) (asking ["a"])).exec .faultless ⟨pairStore a b, 0⟩

/-- The child of who holds both. -/
def childHolder (a b : List Rule) : Token :=
  ((handedOn a b).1.toOption.bind Except.toOption).getD (holder [])

theorem Rules.eq_of_no_entity {store : Store} {acl : Acl} (hrules : h.Rules store tok acl)
    (hid : tok.entityID = "") :
    acl = Acl.ofPolicies (tok.policies.filterMap fun name => h.policies.stored store (str name)) := by
  obtain ⟨env, w, w', rfl, hrun⟩ := hrules
  exact acl_of_no_entity hid hrun

/-- One secret is closed. -/
def closedRule : Rule := ⟨str "secret/x", [.deny]⟩

/-- Without the policy that denies, the child reads what its parent cannot. -/
theorem child_escapes_deny :
    ∃ (h : Auth) (env : Env) (w w₁ : World) (P C : Token) (req : TokenCreateRequest)
      (method : Method) (path : Bytes) (w₂ w₃ : World), P.isRoot = false ∧
      (∀ acl, h.Rules w.store P acl → acl.allows (str "auth/token/create") .«sudo» = false) ∧
      (h.tokenCreate P req).exec env w = (.ok (.ok C), w₁) ∧
      (h.authorize C method path).exec env w = (.ok true, w₂) ∧
      (h.authorize P method path).exec env w = (.ok false, w₃) := by
  refine ⟨bare, .faultless, ⟨pairStore [allRule] [closedRule], 0⟩, _, holder ["a", "b"],
    childHolder [allRule] [closedRule], asking ["a"], .get, str "secret/x", _, _, by decide +kernel,
    fun acl hacl => ?_, exec_eq_of_fst _ (by decide +kernel), exec_eq_of_fst _ (by decide +kernel),
    exec_eq_of_fst _ (by decide +kernel)⟩
  rw [hacl.eq_of_no_entity rfl]
  decide +kernel

/-- Two policies that only grant. -/
def grants : Store := pairStore [allRule] [ownRule]

/-- With such policies the child reads what its parent reads. -/
theorem child_authorized_only_as_parent_granted :
    ∃ C w₁ w₂ w₃, (bare.tokenCreate (holder ["a", "b"]) (asking ["a"])).exec .faultless ⟨grants, 0⟩
        = (.ok (.ok C), w₁) ∧
      (bare.authorize C .get (str "secret/x")).exec .faultless ⟨grants, 0⟩ = (.ok true, w₂) ∧
      (bare.authorize (holder ["a", "b"]) .get (str "secret/x")).exec .faultless ⟨grants, 0⟩
        = (.ok true, w₃) := by
  have hissued : (bare.tokenCreate (holder ["a", "b"]) (asking ["a"])).exec .faultless ⟨grants, 0⟩
      = (.ok (.ok (childHolder [allRule] [ownRule])), _) := exec_eq_of_fst _ (by decide +kernel)
  have hchild : (bare.authorize (childHolder [allRule] [ownRule]) .get (str "secret/x")).exec
      .faultless ⟨grants, 0⟩ = (.ok true, _) := exec_eq_of_fst _ (by decide +kernel)
  have hsudo : ∀ acl, bare.Rules grants (holder ["a", "b"]) acl →
      acl.allows (str "auth/token/create") .«sudo» = false := by
    intro acl hacl
    rw [hacl.eq_of_no_entity rfl]
    decide +kernel
  have hdenies : ∀ aclP aclC, bare.Rules grants (holder ["a", "b"]) aclP →
      bare.Rules grants (childHolder [allRule] [ownRule]) aclC →
      ∀ r ∈ aclP.rules, Denies [r] (str "secret/x") → r ∈ aclC.rules := by
    rintro aclP - hP - r hr ⟨r', hr', -, hdeny⟩
    have hnone : ∀ r ∈ aclP.rules, Capability.deny ∉ r.capabilities := by
      rw [hP.eq_of_no_entity rfl]
      decide +kernel
    rw [List.mem_singleton.mp hr'] at hdeny
    exact absurd hdeny (hnone r hr)
  obtain ⟨w₄, hparent⟩ := child_authorized_only_as_parent bare .faultless _ _ (holder ["a", "b"]) _
    (asking ["a"]) _ .get (str "secret/x") (by decide +kernel) hsudo hissued (.refl _) hdenies
    (by nofun) .faultless _ _ rfl hchild .faultless ⟨grants, 0⟩ rfl works_faultless
  exact ⟨_, _, _, w₄, hissued, hchild, hparent⟩

end Auth

/-! ### A name that ends in a star -/

/-- Everybody's own secret, by name. -/
def namedRule : Rule := ⟨str "secret/\x7b\x7bidentity.entity.name\x7d\x7d", [.read]⟩

/--
A login whose subject ends in a star makes an entity whose name ends in one.  A rule for
the secret of that name then matches the secrets of others.
-/
theorem templated_widens :
    ∃ (E : IdentityEngine) (env : Env) (w w' : World) (id : String) (entity : Entity) (p : Policy)
      (r r' : Rule) (path path' : Bytes),
      (E.resolveAlias "jwt" "a*" []).exec env w = (.ok id, w') ∧
        E.entityAt w'.store id = some entity ∧
        r ∈ p.rules ∧ r.path.getLast? ≠ some star ∧
        r.templated (IdentityEngine.templateValue entity) = some r' ∧
        r' ∈ (p.templated (IdentityEngine.templateValue entity)).rules ∧
        matchPath r'.path path = true ∧ matchPath r'.path path' = true ∧ path ≠ path' := by
  refine ⟨.transparent, .faultless, ⟨∅, 0⟩, _, "00000000000000000000000000000000",
    ⟨"00000000000000000000000000000000", "jwt/a*", [], ∅, false, 0⟩, ⟨str "own", [namedRule]⟩,
    namedRule, ⟨str "secret/jwt/a*", [.read]⟩, str "secret/jwt/a*", str "secret/jwt/admin",
    exec_eq_of_fst _ ?_, ?_, by simp, ?_, ?_, ?_, ?_, ?_, ?_⟩
  all_goals decide +kernel

end UbixVault
