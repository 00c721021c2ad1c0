/-
The policies of an LDAP login.

A login reads the mapping of every group the directory names, so a name that no key may
have makes it fail, mapped or not.  Otherwise the policies of the token are those of the
groups together.
-/
import UbixVault.LdapAuth
import UbixVault.Proofs.Identity
import UbixVault.Proofs.Platform
import UbixVault.Proofs.Token.Calls

namespace UbixVault.LdapAuth

open Program

/-- What the groups are mapped to. -/
abbrev Mapping : Type := Bytes → Option (List String)

/-- The policies that groups are mapped to, together. -/
def Mapping.union (mapping : Mapping) (groups : List Bytes) : Finset String :=
  (groups.flatMap fun g => (mapping g).getD []).toFinset

theorem Mapping.mem_union {mapping : Mapping} {groups : List Bytes} {p : String} :
    p ∈ mapping.union groups ↔ ∃ g ∈ groups, ∃ ps, mapping g = some ps ∧ p ∈ ps := by
  unfold Mapping.union
  rw [List.mem_toFinset, List.mem_flatMap]
  refine exists_congr fun g => and_congr_right fun _ => ?_
  cases mapping g with
  | none => simp
  | some ps => simp

theorem Mapping.union_cons (mapping : Mapping) (g : Bytes) (groups : List Bytes) :
    mapping.union (g :: groups) = ((mapping g).getD []).toFinset ∪ mapping.union groups := by
  unfold Mapping.union
  rw [List.flatMap_cons, List.toFinset_append]

namespace Method

variable {m : Method} {env : Env} {w : World} {mapping : Mapping}

/-- The store holds these mappings. -/
def Holds (m : Method) (s : Store) (mapping : Mapping) : Prop :=
  ∀ g, s.lookup (m.groupKey g) = (mapping g).map m.groupJson.marshal

theorem validKey_groupKey (m : Method) (g : Bytes) : validKey (m.groupKey g) = validKey g := by
  have hform : m.groupKey g = m.pfx ++ slash :: (str "groups" ++ slash :: g) := by
    have hgroups : str "/groups/" = slash :: (str "groups" ++ [slash]) := by decide_cbv
    simp [groupKey, hgroups]
  have hplain : validKey (str "groups") = true := by decide_cbv
  rw [hform, validKey_append_slash, validKey_append_slash, m.validKey_pfx, hplain, Bool.true_and,
    Bool.true_and]

theorem validKey_configKey (m : Method) : validKey m.configKey = true := by
  have hform : m.configKey = m.pfx ++ slash :: str "config" := by
    have hconfig : str "/config" = slash :: str "config" := by decide_cbv
    rw [configKey, hconfig]
  have hplain : validKey (str "config") = true := by decide_cbv
  rw [hform, validKey_append_slash, m.validKey_pfx, hplain, Bool.true_and]

/-! ### Reading the mappings -/

theorem readGroup_spec (hworks : env.Works) (hholds : m.Holds w.store mapping) {g : Bytes} :
    Yields env.answer (m.readGroup g) w
      (fun ps w' => validKey g = true ∧ ps = (mapping g).getD [] ∧ w'.store = w.store)
      (fun _ _ => validKey g = false) := by
  rw [← m.validKey_groupKey]
  refine Yields.bind (Act.yields_context (hworks.get_iff.mono ?_ fun _ _ h => h))
  rintro r w₁ ⟨hkey, rfl, hs₁⟩
  rw [hholds g]
  cases mapping g with
  | none => exact Yields.pure ⟨hkey, rfl, hs₁⟩
  | some ps =>
    simp only [Option.map_some, m.groupJson.unmarshal_marshal ps trivial]
    exact Yields.pure ⟨hkey, rfl, hs₁⟩

/-- The groups are read unless one has a name that no key may have. -/
theorem collect_spec (hworks : env.Works) (groups : List Bytes) (policySet : Finset String)
    (hholds : m.Holds w.store mapping) :
    Yields env.answer (m.collect groups policySet) w
      (fun found w' => (∀ g ∈ groups, validKey g = true) ∧ found = policySet ∪ mapping.union groups ∧
        w'.store = w.store)
      (fun _ _ => ¬ ∀ g ∈ groups, validKey g = true) := by
  induction groups generalizing policySet w with
  | nil => exact Yields.pure ⟨by simp, by simp [Mapping.union], rfl⟩
  | cons g groups ih =>
    simp only [List.forall_mem_cons]
    refine Yields.bind ((readGroup_spec hworks hholds).mono ?_ fun _ _ hg => by simp [hg])
    rintro ps w₁ ⟨hg, rfl, hs₁⟩
    refine (ih _ (hs₁ ▸ hholds)).mono ?_ fun _ _ hrest h => hrest h.2
    rintro found w₂ ⟨hrest, rfl, hs₂⟩
    exact ⟨⟨hg, hrest⟩, by rw [Mapping.union_cons, Finset.union_assoc], hs₂.trans hs₁⟩

/-! ### Issuing the token -/

theorem createWithEntityBounded_works {st : TokenStore} (hworks : env.Works) {policies : List String}
    {expiresAt bound : Time} {entityID : String} {parentHash : Bytes} (w : World) :
    Yields env.answer (st.createWithEntityBounded policies expiresAt entityID bound parentHash) w
      (fun t w' => t.policies = policies ∧
        w'.store.lookup (st.storeKey t.id) = some (st.json.marshal t))
      (fun _ _ => False) := by
  refine Yields.bind (generateID_spec.mono ?_ fun _ _ h => hworks.not_faulted h.faulted)
  rintro id w₁ -
  refine Yields.bind (Act.now_spec.mono ?_ fun _ _ h => h.elim)
  rintro now w₂ -
  refine Yields.bind (Act.yields_context ((hworks.put (st.validKey_storeKey _)).mono ?_ fun _ _ h => h))
  rintro - w₃ rfl
  exact Yields.pure ⟨rfl, Finmap.lookup_insert _⟩

/-- The identity engine, if there is one, can find or make the entity of the user. -/
def Resolves (identity : Option IdentityEngine) (store : Store) (username : String)
    (groups : List Bytes) : Prop :=
  ∀ E ∈ identity, E.Resolvable store "ldap" username (groups.map text)

variable {identity : Option IdentityEngine} {username : String} {groups : List Bytes}

theorem resolveEntity_iff (hworks : env.Works) (huser : username ≠ "") :
    Yields env.answer
      (TokenStore.resolveEntity (identity.map (·.resolveAlias)) "ldap" username (groups.map text)) w
      (fun _ _ => Resolves identity w.store username groups)
      (fun _ _ => ¬ Resolves identity w.store username groups) := by
  unfold TokenStore.resolveEntity Resolves
  cases identity with
  | none => exact Yields.pure (by simp)
  | some E =>
    have hmount : validKey (str "ldap") = true := by decide_cbv
    simp only [Option.map_some, if_neg huser, Option.mem_some_iff, forall_eq']
    exact Act.yields_context (E.resolveAlias_spec hworks hmount)

theorem createForLogin_spec {st : TokenStore} (hworks : env.Works) (huser : username ≠ "")
    {policies : List String} {ttl maxTTL : Time} :
    Yields env.answer
      (st.createForLogin (identity.map (·.resolveAlias)) policies ttl maxTTL "ldap" username
        (groups.map text)) w
      (fun t w' => Resolves identity w.store username groups ∧ t.policies = policies ∧
        w'.store.lookup (st.storeKey t.id) = some (st.json.marshal t))
      (fun _ _ => ¬ Resolves identity w.store username groups) := by
  refine Yields.bind (TokenStore.loginBound_spec.mono ?_ fun _ _ h => h.elim)
  rintro bound w₁ ⟨-, hs₁⟩
  refine Yields.bind ((resolveEntity_iff hworks huser).mono ?_ fun _ _ h => hs₁ ▸ h)
  intro entityID w₂ hresolves
  rw [hs₁] at hresolves
  refine Yields.bind (Act.now_spec.mono ?_ fun _ _ h => h.elim)
  intro now w₃ _
  exact (createWithEntityBounded_works hworks w₃).mono (fun _ _ h => ⟨hresolves, h⟩) fun _ _ h => h.elim

/-! ### Logging in -/

/-- A login issues a token with the policies of the groups: sorted, each once, and no others. -/
def IssuesUnion (m : Method) (env : Env) (w : World) (username password : String)
    (groups : List Bytes) (mapping : Mapping) : Prop :=
  ∃ t w', exec env.answer (m.login username password) w = (.ok t, w') ∧
    w'.store.lookup (m.tokens.storeKey t.id) = some (m.tokens.json.marshal t) ∧
    t.policies.Pairwise (· < ·) ∧
    ∀ p, p ∈ t.policies ↔ ∃ g ∈ groups, ∃ ps, mapping g = some ps ∧ p ∈ ps

/-- What makes a login succeed: every group has a name that a key may have, and the user has an
entity or can get one. -/
def Admits (identity : Option IdentityEngine) (store : Store) (username : String)
    (groups : List Bytes) : Prop :=
  (∀ g ∈ groups, validKey g = true) ∧ Resolves identity store username groups

variable {cfg : Config} {password : String}

theorem login_spec (hworks : env.Works) (haliaser : m.aliaser = identity.map (·.resolveAlias))
    (hconfig : w.store.lookup m.configKey = some (m.configJson.marshal cfg))
    (hholds : m.Holds w.store mapping) (huser : username ≠ "") (hpassword : password ≠ "")
    (hauth : m.authenticate cfg username password = .ok groups) :
    Yields env.answer (m.login username password) w
      (fun t w' => Admits identity w.store username groups ∧ t.policies = (mapping.union groups).inOrder ∧
        w'.store.lookup (m.tokens.storeKey t.id) = some (m.tokens.json.marshal t))
      (fun _ _ => ¬ Admits identity w.store username groups) := by
  have hread : Yields env.answer m.readConfig w (fun c w' => c = cfg ∧ w'.store = w.store)
      (fun _ _ => False) := by
    refine Yields.bind (Act.yields_context ((hworks.get m.validKey_configKey).mono ?_ fun _ _ h => h))
    rintro _ w₁ ⟨rfl, rfl⟩
    simp only [hconfig, m.configJson.unmarshal_marshal cfg trivial]
    exact Yields.pure ⟨rfl, rfl⟩
  refine Yields.bind (hread.mono ?_ fun _ _ h => h.elim)
  rintro _ w₁ ⟨rfl, hs₁⟩
  rw [if_neg (by simp [huser, hpassword]), hauth]
  refine Yields.bind (Act.yields_ofExcept ?_ fun _ h => by cases h)
  rintro _ ⟨⟩
  refine Yields.bind ((collect_spec hworks groups ∅ (hs₁ ▸ hholds)).mono ?_ fun _ _ h hadmits => h hadmits.1)
  rintro _ w₂ ⟨hgroups, rfl, hs₂⟩
  have hs : w₂.store = w.store := hs₂.trans hs₁
  rw [haliaser, Finset.empty_union]
  refine (createForLogin_spec hworks huser).mono ?_ fun _ _ h hadmits => h (hs ▸ hadmits.2)
  rintro t w₃ ⟨hresolves, hpolicies, hstored⟩
  exact ⟨⟨hgroups, hs ▸ hresolves⟩, hpolicies, hstored⟩

/-- A login issues the union exactly if every group has a name that a key may have and the user
has an entity or can get one. -/
theorem issuesUnion_iff (hworks : env.Works) (haliaser : m.aliaser = identity.map (·.resolveAlias))
    (hconfig : w.store.lookup m.configKey = some (m.configJson.marshal cfg))
    (hholds : m.Holds w.store mapping) (huser : username ≠ "") (hpassword : password ≠ "")
    (hauth : m.authenticate cfg username password = .ok groups) :
    m.IssuesUnion env w username password groups mapping ↔
      Admits identity w.store username groups := by
  have hlogin := login_spec hworks haliaser hconfig hholds huser hpassword hauth
  constructor
  · rintro ⟨t, w', hrun, -⟩
    exact (Yields.of_ok hlogin hrun).1
  · intro hadmits
    obtain ⟨t, w', hrun, -, hpolicies, hstored⟩ :=
      (hlogin.mono (fun _ _ h => h) fun _ _ h => h hadmits).returns
    refine ⟨t, w', hrun, hstored, ?_, fun p => ?_⟩
    · rw [hpolicies]
      exact Finset.pairwise_inOrder _
    · rw [hpolicies, Finset.mem_inOrder, Mapping.mem_union]

end Method

/-! ### Two logins -/

open Wire

def Config.wire : Wire Config :=
  (string.pair (bool.pair (bool.pair (string.pair (string.pair (string.pair (string.pair (string.pair
    (string.pair (string.pair (string.pair (int.pair int)))))))))))).via
    (fun c => (c.url, c.startTLS, c.insecureTLS, c.certificate, c.bindDN, c.bindPassword, c.userDN,
      c.userAttr, c.groupDN, c.groupAttr, c.groupFilter, c.tokenTTL, c.tokenMaxTTL))
    (fun (url, s, i, c, b, p, u, ua, g, ga, gf, t, mt) => ⟨url, s, i, c, b, p, u, ua, g, ga, gf, t, mt⟩)
    fun _ => rfl

/-- A directory at its default port, without certificates. -/
def defaultConfig : Config :=
  ⟨"ldap://localhost:389", false, false, "", "", "", "dc=example", "", "dc=example", "", "", 0, 0⟩

/-- A method with an identity engine, over a directory that names these groups of everybody. -/
def Method.transparent (groups : List Bytes) : Method where
  tokens := Platform.transparent.tokens
  aliaser := some IdentityEngine.transparent.resolveAlias
  pfx := str "auth/ldap"
  validKey_pfx := by decide_cbv
  configJson := Config.wire.codec
  groupJson := string.many.codec
  certPool _ := false
  authenticate _ _ _ := .ok groups

/-- A configured method that maps the group `dev`. -/
def devWorld : World :=
  let m := Method.transparent []
  ⟨(Finmap.singleton m.configKey (m.configJson.marshal defaultConfig)).insert (m.groupKey (str "dev"))
    (m.groupJson.marshal ["pki", "kv"]), 0⟩

def devMapping : Mapping := fun g => if g = str "dev" then some ["pki", "kv"] else none

theorem holds_devWorld (groups : List Bytes) :
    (Method.transparent groups).Holds devWorld.store devMapping := by
  intro g
  unfold devMapping devWorld
  by_cases hg : g = str "dev"
  · rw [hg, if_pos rfl]
    exact Finmap.lookup_insert _
  · have hkey : (Method.transparent groups).groupKey g ≠ (Method.transparent []).groupKey (str "dev") :=
      fun h => hg (List.append_cancel_left h)
    have hconfig : (Method.transparent groups).groupKey g ≠ (Method.transparent []).configKey := by
      intro h
      have htail := List.append_cancel_left ((List.append_assoc _ _ _).symm.trans h)
      exact absurd (congrArg (·.take 2) htail) (by decide_cbv)
    rw [Finmap.lookup_insert_of_ne _ hkey, if_neg hg]
    exact Finmap.lookup_eq_none.mpr (by simpa using hconfig)

/-- A directory that also names a group `..` locks its users out. -/
theorem login_fails_for_group_name :
    ¬ (Method.transparent [str "dev", str ".."]).IssuesUnion .faultless devWorld "alice" "secret"
        [str "dev", str ".."] devMapping ∧
      ∃ w', exec Env.faultless.answer ((Method.transparent [str "dev", str ".."]).login "alice" "secret")
        devWorld = (.error (.wrap "ldapauth: read group" (.storage .invalidKey)), w') := by
  have hfails : ∃ w', exec Env.faultless.answer
      ((Method.transparent [str "dev", str ".."]).login "alice" "secret") devWorld
        = (.error (.wrap "ldapauth: read group" (.storage .invalidKey)), w') :=
    ⟨_, exec_eq_of_fst _ (by decide +kernel)⟩
  refine ⟨fun ⟨t, w', hrun, _⟩ => ?_, hfails⟩
  obtain ⟨w'', hfail⟩ := hfails
  rw [hfail] at hrun
  simp at hrun

/-- A group that is named twice and one without a mapping change nothing, and the user gets an
entity. -/
theorem issuesUnion_dev :
    (Method.transparent [str "dev", str "qa", str "dev"]).IssuesUnion .faultless devWorld "alice" "secret"
      [str "dev", str "qa", str "dev"] devMapping := by
  have haliaser : (Method.transparent [str "dev", str "qa", str "dev"]).aliaser
      = (some IdentityEngine.transparent).map (·.resolveAlias) := rfl
  have hconfig : devWorld.store.lookup (Method.transparent []).configKey
      = some ((Method.transparent []).configJson.marshal defaultConfig) := by decide +kernel
  have hfresh : devWorld.store.lookup (IdentityEngine.aliasIndexKey "ldap" "alice") = none := by
    decide +kernel
  have hresolves : Method.Resolves (some .transparent) devWorld.store "alice"
      [str "dev", str "qa", str "dev"] := by
    rintro _ ⟨⟩
    exact ⟨by decide_cbv, by simp [hfresh]⟩
  exact (Method.issuesUnion_iff works_faultless haliaser hconfig (holds_devWorld _) (by decide)
    (by decide) rfl).mpr ⟨by decide +kernel, hresolves⟩

end UbixVault.LdapAuth
