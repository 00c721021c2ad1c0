/-
What a stored policy keeps of the policy that was parsed.

Storing goes through a map from paths to capabilities.  A JSON document cannot name a
path twice, but an HCL document can, and then the map keeps the last of the rules
with that path and loses the others.  Everything else comes back: the texts are
valid, so JSON keeps them, and evaluation does not depend on order.
-/
import UbixVault.Policy
import UbixVault.Proofs.Acl
import UbixVault.Proofs.Platform
import UbixVault.Proofs.Text

namespace UbixVault

open Program

/-! ### Texts that JSON keeps -/

theorem Capability.ofText_text (c : Capability) : ofText c.text = some c := by
  cases c <;> decide_cbv

theorem Capability.validUTF8_text (c : Capability) : validUTF8 c.text = true := by
  cases c <;> decide_cbv

/-! ### Rules with one path -/

/-- The last rule of each path. -/
def kept : List Rule → List Rule
  | [] => []
  | r :: rest => if r.path ∈ rest.map (·.path) then kept rest else r :: kept rest

/-- The rules that a later rule with the same path replaces. -/
def lost : List Rule → List Rule
  | [] => []
  | r :: rest => if r.path ∈ rest.map (·.path) then r :: lost rest else lost rest

variable {rules : List Rule} {r : Rule}

theorem mem_iff_lost_or_kept : r ∈ rules ↔ r ∈ lost rules ∨ r ∈ kept rules := by
  induction rules with
  | nil => simp [lost, kept]
  | cons r' rest ih =>
    simp only [lost, kept]
    split_ifs with h
    · simp only [List.mem_cons, ih]
      tauto
    · simp only [List.mem_cons, ih]
      tauto

/-- Each path has a rule that is kept. -/
theorem exists_mem_kept {path : Bytes} (h : path ∈ rules.map (·.path)) :
    ∃ r ∈ kept rules, r.path = path := by
  induction rules with
  | nil => simp at h
  | cons r rest ih =>
    simp only [kept]
    by_cases hrest : path ∈ rest.map (·.path)
    · obtain ⟨r', hr', hpath⟩ := ih hrest
      split_ifs
      · exact ⟨r', hr', hpath⟩
      · exact ⟨r', List.mem_cons_of_mem _ hr', hpath⟩
    · have hr : r.path = path := by
        simp only [List.map_cons, List.mem_cons] at h
        exact (h.resolve_right hrest).symm
      rw [if_neg (hr ▸ hrest)]
      exact ⟨r, List.mem_cons_self, hr⟩

/-! ### The stored document -/

/-- The loop of `Document`. -/
theorem lookup_foldl {d : Document} :
    (∀ r ∈ kept rules, (rules.foldl
        (fun d r => d.insert r.path (r.capabilities.map Capability.text)) d).lookup r.path
          = some (r.capabilities.map Capability.text)) ∧
      ∀ path ∉ rules.map (·.path), (rules.foldl
        (fun d r => d.insert r.path (r.capabilities.map Capability.text)) d).lookup path
          = d.lookup path := by
  induction rules generalizing d with
  | nil => simp [kept]
  | cons r rest ih =>
    obtain ⟨hkept, hother⟩ := ih (d := d.insert r.path (r.capabilities.map Capability.text))
    constructor
    · intro r' hr'
      simp only [kept] at hr'
      split_ifs at hr' with hmem
      · exact hkept r' hr'
      · rcases List.mem_cons.mp hr' with rfl | hr'
        · rw [List.foldl_cons, hother _ hmem, Finmap.lookup_insert]
        · exact hkept r' hr'
    · intro path hpath
      simp only [List.map_cons, List.mem_cons, not_or] at hpath
      rw [List.foldl_cons, hother path hpath.2, Finmap.lookup_insert_of_ne _ hpath.1]

namespace Policy

variable {p : Policy}

theorem lookup_document (hr : r ∈ kept p.rules) :
    p.document.lookup r.path = some (r.capabilities.map Capability.text) :=
  (@lookup_foldl p.rules ∅).1 r hr

theorem mem_document {path : Bytes} : path ∈ p.document ↔ ∃ r ∈ kept p.rules, r.path = path := by
  rw [← Finmap.lookup_isSome]
  constructor
  · intro hsome
    refine exists_mem_kept ?_
    by_contra hpath
    unfold document at hsome
    rw [lookup_foldl.2 path hpath] at hsome
    cases hsome
  · rintro ⟨r, hr, rfl⟩
    rw [lookup_document hr]
    rfl

theorem document_wf (h : ∀ r ∈ p.rules, validUTF8 r.path = true) : p.document.WF := by
  intro path caps hlookup
  have hmem : path ∈ p.document := by
    rw [← Finmap.lookup_isSome, hlookup]
    rfl
  obtain ⟨r, hr, rfl⟩ := mem_document.mp hmem
  rw [lookup_document hr, Option.some.injEq] at hlookup
  refine ⟨h r (mem_iff_lost_or_kept.mpr (.inr hr)), ?_⟩
  intro c hc
  rw [← hlookup, List.mem_map] at hc
  obtain ⟨capability, -, rfl⟩ := hc
  exact capability.validUTF8_text

end Policy

/-! ### What parsing delivers -/

theorem Document.mem_paths {d : Document} {path : Bytes} : path ∈ d.paths ↔ path ∈ d := by
  unfold paths
  rw [Finset.mem_inOrder, Finmap.mem_keys]

section MapM

variable {α β : Type} {f : α → Except Err β} {l : List α}

/-- A loop that returned has gone through every element. -/
theorem mem_of_mapM_ok {bs : List β} (h : l.mapM f = .ok bs) (b : β) :
    b ∈ bs ↔ ∃ a ∈ l, f a = .ok b := by
  induction l generalizing bs with
  | nil =>
    rw [List.mapM_nil] at h
    cases h
    simp
  | cons a l ih =>
    rw [List.mapM_cons] at h
    obtain ⟨b₁, hb₁, h⟩ := bind_eq_ok h
    obtain ⟨bs₁, hbs₁, h⟩ := bind_eq_ok h
    cases h
    rw [List.mem_cons, ih hbs₁]
    simp [hb₁, eq_comm]

/-- A loop whose steps all return does. -/
theorem mapM_isOk (h : ∀ a ∈ l, ∃ b, f a = .ok b) : ∃ bs, l.mapM f = .ok bs := by
  induction l with
  | nil => exact ⟨[], rfl⟩
  | cons a l ih =>
    obtain ⟨b, hb⟩ := h a List.mem_cons_self
    obtain ⟨bs, hbs⟩ := ih fun x hx => h x (List.mem_cons_of_mem _ hx)
    refine ⟨b :: bs, ?_⟩
    rw [List.mapM_cons, hb, hbs]
    rfl

end MapM

namespace PolicyStore

variable {S : PolicyStore} {name data : Bytes} {p : Policy} {doc : Document}

theorem path_of_ruleOf {path : Bytes} (h : ruleOf doc path = .ok r) : r.path = path := by
  obtain ⟨caps, -, h⟩ := bind_eq_ok h
  cases h
  rfl

/-- Capabilities come back from their texts. -/
theorem mapM_text (caps : List Capability) :
    (caps.map Capability.text).mapM readCapability = .ok caps := by
  induction caps with
  | nil => rfl
  | cons c caps ih =>
    rw [List.map_cons, List.mapM_cons, ih, readCapability, c.ofText_text]
    rfl

/-- One entry that was rendered. -/
theorem ruleOf_document (hr : r ∈ kept p.rules) : ruleOf p.document r.path = .ok r := by
  unfold ruleOf
  rw [p.lookup_document hr, Option.getD_some, mapM_text]
  rfl

/-- The rules of a JSON document are its entries. -/
theorem mem_rules_of_parse (hdoc : S.json.unmarshal data = some doc)
    (h : S.parse name data = .ok p) :
    p.name = name ∧ ∀ r, r ∈ p.rules ↔ ∃ path ∈ doc, ruleOf doc path = .ok r := by
  unfold parse at h
  rw [hdoc] at h
  obtain ⟨rules, hrules, h⟩ := bind_eq_ok h
  cases h
  refine ⟨rfl, fun r => ?_⟩
  dsimp only
  rw [(S.sorter.perm rules).mem_iff, mem_of_mapM_ok hrules]
  simp only [Document.mem_paths]

/-- **Reading back what was rendered** gives the last rule of each path. -/
theorem parse_document (hvalid : ∀ r ∈ p.rules, validUTF8 r.path = true) :
    ∃ p', S.parse name (S.json.marshal p.document) = .ok p' ∧
      ∀ r, r ∈ p'.rules ↔ r ∈ kept p.rules := by
  have hread := S.json.unmarshal_marshal p.document (p.document_wf hvalid)
  obtain ⟨rules, hrules⟩ : ∃ rules, p.document.paths.mapM (ruleOf p.document) = .ok rules := by
    refine mapM_isOk fun path hpath => ?_
    rw [Document.mem_paths] at hpath
    obtain ⟨r, hr, rfl⟩ := Policy.mem_document.mp hpath
    exact ⟨r, ruleOf_document hr⟩
  have hparse : S.parse name (S.json.marshal p.document) = .ok ⟨name, S.sorter.sort rules⟩ := by
    unfold parse
    rw [hread]
    dsimp only
    rw [hrules]
    rfl
  refine ⟨_, hparse, fun r => ?_⟩
  rw [(mem_rules_of_parse hread hparse).2]
  constructor
  · rintro ⟨path, hpath, hrule⟩
    obtain ⟨r', hr', rfl⟩ := Policy.mem_document.mp hpath
    rw [ruleOf_document hr'] at hrule
    cases hrule
    exact hr'
  · intro hr
    exact ⟨r.path, Policy.mem_document.mpr ⟨r, hr, rfl⟩, ruleOf_document hr⟩

/-! ### Valid paths -/

theorem validPath_of_parse (h : S.parse name data = .ok p) :
    p.name = name ∧ ∀ r ∈ p.rules, validUTF8 r.path = true := by
  cases hdoc : S.json.unmarshal data with
  | none =>
    unfold parse at h
    rw [hdoc] at h
    cases h
  | some doc =>
    obtain ⟨hname, hrules⟩ := mem_rules_of_parse hdoc h
    refine ⟨hname, fun r hr => ?_⟩
    obtain ⟨path, hpath, hrule⟩ := (hrules r).mp hr
    rw [path_of_ruleOf hrule]
    obtain ⟨caps, hcaps⟩ := Finmap.mem_iff.mp hpath
    exact (S.json.wf_of_unmarshal data doc hdoc path caps hcaps).1

theorem path_of_pathBlock {toks next : List Hcl.Token} (h : Hcl.pathBlock toks = .ok (r, next)) :
    ∃ pattern, r.path = encodeRunes pattern := by
  obtain ⟨_, -, h⟩ := bind_eq_ok h
  obtain ⟨⟨pattern, _⟩, -, h⟩ := bind_eq_ok h
  obtain ⟨_, -, h⟩ := bind_eq_ok h
  obtain ⟨_, -, h⟩ := bind_eq_ok h
  obtain ⟨_, -, h⟩ := bind_eq_ok h
  obtain ⟨_, -, h⟩ := bind_eq_ok h
  obtain ⟨_, -, h⟩ := bind_eq_ok h
  cases h
  exact ⟨pattern, rfl⟩

theorem validPath_of_pathBlocks {toks : List Hcl.Token} (h : Hcl.pathBlocks toks = .ok rules) :
    ∀ r ∈ rules, validUTF8 r.path = true := by
  fun_induction Hcl.pathBlocks toks generalizing rules with
  | case1 =>
    cases h
    simp
  | case2 => cases h
  | case3 toks _ r next hblock ih =>
    cases hrest : Hcl.pathBlocks next with
    | error e =>
      rw [hrest] at h
      cases h
    | ok rules' =>
      rw [hrest] at h
      cases h
      intro r' hr'
      rcases List.mem_cons.mp hr' with rfl | hr'
      · obtain ⟨pattern, hpath⟩ := path_of_pathBlock hblock
        rw [hpath]
        exact validUTF8_encodeRunes pattern
      · exact ih hrest r' hr'

/-- Whatever the format, every path of a parsed policy is valid text. -/
theorem validPath_of_parseDocument (h : S.parseDocument name data = .ok p) :
    p.name = name ∧ ∀ r ∈ p.rules, validUTF8 r.path = true := by
  unfold parseDocument at h
  split_ifs at h
  · exact validPath_of_parse h
  · unfold parseHCL at h
    split at h
    · cases h
    · obtain ⟨rules, hrules, h⟩ := bind_eq_ok h
      cases h
      refine ⟨rfl, fun r hr => ?_⟩
      exact validPath_of_pathBlocks hrules r ((S.sorter.perm rules).mem_iff.mp hr)

/-! ### Storing -/

variable {env : Env} {w : World}

theorem validKey_of_validName (h : validName name = true) : validKey (key name) = true := by
  simp only [validName, Bool.and_eq_true] at h
  exact h.2

theorem set_spec (hname : validName p.name = true) :
    Yields env.answer (S.set p) w
      (fun _ w' => w'.store = w.store.insert (key p.name) (S.json.marshal p.document))
      (fun _ _ => env.Faults) := by
  unfold set
  simp only [hname, Bool.not_true, Bool.false_eq_true, if_false]
  refine Yields.bind (Yields.pure ?_)
  refine Act.yields_context ((Act.put_spec (validKey_of_validName hname)).mono ?_ ?_)
  · rintro _ w' ⟨hs, -, -⟩
    exact hs
  · rintro _ w' ⟨-, hfault⟩
    exact ⟨_, _, hfault⟩

theorem get_spec (hname : validName name = true) {data : Bytes}
    (hstored : w.store.lookup (key name) = some data) (hparse : S.parse name data = .ok p) :
    Yields env.answer (S.get name) w (fun p' w' => p' = p ∧ w'.store = w.store)
      (fun _ _ => env.Faults) := by
  unfold get
  simp only [hname, Bool.not_true, Bool.false_eq_true, if_false]
  refine Yields.bind (Act.yields_context
    ((Act.get_spec (validKey_of_validName hname)).mono ?_ fun _ _ h => h.faulted.faults))
  rintro entry w₁ ⟨rfl, hs₁, -⟩
  rw [hstored]
  dsimp only
  rw [hparse]
  exact Yields.pure ⟨rfl, hs₁⟩

/-- A policy that was stored and retrieved allows the same. -/
def SameMeaning (p p' : Policy) : Prop :=
  ∀ path c, (Acl.ofPolicies [p']).allows path c = (Acl.ofPolicies [p]).allows path c

theorem sameMeaning_iff {p' : Policy} (h : ∀ r, r ∈ p'.rules ↔ r ∈ kept p.rules) :
    SameMeaning p p' ↔ Idle (lost p.rules) (kept p.rules) := by
  have hp : Acl.ofPolicies [p] = ⟨p.rules⟩ := by simp [Acl.ofPolicies]
  have hp' : Acl.ofPolicies [p'] = ⟨p'.rules⟩ := by simp [Acl.ofPolicies]
  unfold SameMeaning
  rw [hp, hp']
  have hkept : ∀ path c, (Acl.mk p'.rules).allows path c = (Acl.mk (kept p.rules)).allows path c :=
    fun path c => allows_congr h
  simp only [hkept]
  exact allows_eq_iff fun r => mem_iff_lost_or_kept

/-- If nothing fails, both calls return, and what is retrieved is the last rule of each path. -/
theorem set_get (hname : validName name = true) (hparse : S.parseDocument name data = .ok p) :
    (env.Works → ∃ w₁ p' w₂, (S.set p).exec env w = (.ok (), w₁) ∧
      (S.get name).exec env w₁ = (.ok p', w₂)) ∧
    ∀ w₁ p' w₂, (S.set p).exec env w = (.ok (), w₁) → (S.get name).exec env w₁ = (.ok p', w₂) →
      ∀ r, r ∈ p'.rules ↔ r ∈ kept p.rules := by
  obtain ⟨rfl, hvalid⟩ := validPath_of_parseDocument hparse
  obtain ⟨p', hp', hrules⟩ : ∃ p', S.parse p.name (S.json.marshal p.document) = .ok p' ∧
      ∀ r, r ∈ p'.rules ↔ r ∈ kept p.rules := parse_document hvalid
  have hget : ∀ w₁ : World, w₁.store = w.store.insert (key p.name) (S.json.marshal p.document) →
      Yields env.answer (S.get p.name) w₁ (fun p'' w₂ => p'' = p' ∧ w₂.store = w₁.store)
        (fun _ _ => env.Faults) := by
    intro w₁ hs₁
    refine get_spec hname ?_ hp'
    rw [hs₁, Finmap.lookup_insert]
  constructor
  · intro hworks
    have hset : Yields env.answer (S.set p) w _ fun _ _ => False :=
      (set_spec hname).mono (fun _ _ h => h) fun _ _ h => hworks.not_faults h
    obtain ⟨_, w₁, hrun₁, hs₁⟩ := hset.returns
    have hget' : Yields env.answer (S.get p.name) w₁ _ fun _ _ => False :=
      (hget w₁ hs₁).mono (fun _ _ h => h) fun _ _ h => hworks.not_faults h
    obtain ⟨p'', w₂, hrun₂, -⟩ := hget'.returns
    exact ⟨w₁, p'', w₂, hrun₁, hrun₂⟩
  · intro w₁ p'' w₂ hrun₁ hrun₂
    obtain ⟨rfl, -⟩ := (hget w₁ ((set_spec hname).of_ok hrun₁)).of_ok hrun₂
    exact hrules

/--
**Storing a policy keeps its meaning** exactly if the rules that a later rule with the
same path replaces are idle.
-/
theorem stored_policy_keeps_meaning_iff (S : PolicyStore) (name data : Bytes) (p : Policy)
    (hname : validName name = true) (hparse : S.parseDocument name data = .ok p) (env : Env)
    (w : World) :
    (env.Works → ∃ w₁ p' w₂, (S.set p).exec env w = (.ok (), w₁) ∧
      (S.get name).exec env w₁ = (.ok p', w₂)) ∧
    ∀ w₁ p' w₂, (S.set p).exec env w = (.ok (), w₁) → (S.get name).exec env w₁ = (.ok p', w₂) →
      (SameMeaning p p' ↔ Idle (lost p.rules) (kept p.rules)) := by
  obtain ⟨hreturns, hrules⟩ := set_get hname hparse
  exact ⟨hreturns, fun w₁ p' w₂ hset hget => sameMeaning_iff (hrules w₁ p' w₂ hset hget)⟩

end PolicyStore

/-! ### A document that names a path twice -/

/-- Only the letters and digits of plain text. -/
def Unicode.plain : Unicode where
  isLetter c := c.isAlpha
  isDigit c := c.isDigit
  isLetter_ascii _ _ := rfl
  isDigit_ascii _ _ := rfl

/-- Sorting that leaves rules with equal paths in the order they had. -/
def SortRules.stable : SortRules where
  sort rules := rules.insertionSort fun r r' => r.path ≤ r'.path
  perm rules := List.perm_insertionSort _ rules
  sorted rules := List.pairwise_insertionSort _ rules

instance decidableDocumentWF (d : Document) : Decidable d.WF :=
  decidable_of_iff (∀ path ∈ d.paths, ∀ caps ∈ d.lookup path,
    validUTF8 path = true ∧ ∀ c ∈ caps, validUTF8 c = true)
    ⟨fun h path caps hcaps =>
      h path (Document.mem_paths.mpr (Finmap.mem_iff.mpr ⟨caps, hcaps⟩)) caps hcaps,
      fun h path _ caps hcaps => h path caps hcaps⟩

/-- An encoding of documents that hides nothing and reads valid texts only. -/
def DocumentJson.transparent : DocumentJson :=
  let c : Codec Byte Document Document.WF := (Wire.finmap Wire.bytes Wire.bytes.many).codec
  { marshal := c.marshal
    unmarshal := fun data => (c.unmarshal data).filter fun d => decide d.WF
    unmarshal_marshal := by
      intro d hd
      rw [c.unmarshal_marshal d hd]
      simp [hd]
    wf_of_unmarshal := by
      intro data d h
      simpa using (Option.filter_eq_some_iff.mp h).2
    complaint := fun _ => [] }

def PolicyStore.transparent : PolicyStore := ⟨.transparent, .stable, .plain⟩

namespace PolicyStore

/-- Two blocks for one path: the first denies what the second grants. -/
def twiceNamed : Bytes :=
  str "path \"a\" \x7b capabilities = [\"deny\"] \x7d path \"a\" \x7b capabilities = [\"read\"] \x7d"

def denied : Policy := ⟨str "p", [⟨str "a", [.deny]⟩, ⟨str "a", [.read]⟩]⟩

theorem parse_twiceNamed : transparent.parseDocument (str "p") twiceNamed = .ok denied := by
  decide +kernel

/-- After the policy was stored, what it denied is allowed. -/
theorem storing_loses_deny :
    ∃ (S : PolicyStore) (name data : Bytes) (p : Policy) (env : Env) (w w₁ : World) (p' : Policy)
      (w₂ : World), validName name = true ∧ S.parseDocument name data = .ok p ∧
      (S.set p).exec env w = (.ok (), w₁) ∧ (S.get name).exec env w₁ = (.ok p', w₂) ∧
      (Acl.ofPolicies [p]).allows (str "a") .read = false ∧
      (Acl.ofPolicies [p']).allows (str "a") .read = true := by
  exact ⟨transparent, str "p", twiceNamed, denied, .faultless, ⟨∅, 0⟩, _,
    ⟨str "p", [⟨str "a", [.read]⟩]⟩, _, by decide +kernel, parse_twiceNamed,
    exec_eq_of_fst _ (by decide +kernel), exec_eq_of_fst _ (by decide +kernel), by decide +kernel,
    by decide +kernel⟩

/-- One block. -/
def onceNamed : Bytes := str "path \"a\" \x7b capabilities = [\"read\"] \x7d"

def granted : Policy := ⟨str "p", [⟨str "a", [.read]⟩]⟩

theorem stored_policy_keeps_meaning_once :
    ∃ w₁ p' w₂, (transparent.set granted).exec .faultless ⟨∅, 0⟩ = (.ok (), w₁) ∧
      (transparent.get (str "p")).exec .faultless w₁ = (.ok p', w₂) ∧ SameMeaning granted p' := by
  obtain ⟨hreturns, hiff⟩ := stored_policy_keeps_meaning_iff transparent (str "p") onceNamed granted
    (by decide +kernel) (by decide +kernel) .faultless ⟨∅, 0⟩
  obtain ⟨w₁, p', w₂, hset, hget⟩ := hreturns works_faultless
  refine ⟨w₁, p', w₂, hset, hget, (hiff w₁ p' w₂ hset hget).mpr ?_⟩
  have hlost : lost granted.rules = [] := by decide +kernel
  rw [hlost]
  exact .nil

end PolicyStore

end UbixVault
