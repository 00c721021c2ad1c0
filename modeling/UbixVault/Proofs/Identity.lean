/-
Which groups an entity belongs to.

The engine marks the groups the entity is a direct member of, and then passes over
all groups until a pass marks none.  Whatever the groups list, one another and
groups that are gone included, the passes end, and what is marked then is what a
direct membership leads to.

A login leads to an entity through its alias.  With a storage that works it does so
unless its name cannot stand in a key, or a record that it needs cannot be read.
-/
import UbixVault.Identity
import UbixVault.Lib.Wire
import UbixVault.Proofs.Basic
import UbixVault.Proofs.Outside
import UbixVault.Proofs.Text

namespace UbixVault

namespace IdentityEngine

open Program

/-- The groups that apply: the marked ones, and those that list one that applies. -/
inductive Applies (groups : List Group) (marked : List String) : String → Prop
  | marked {id : String} (h : id ∈ marked) : Applies groups marked id
  | nested {g : Group} {child : String} (hg : g ∈ groups) (hchild : child ∈ g.memberGroupIDs)
      (h : Applies groups marked child) : Applies groups marked g.id

variable {groups gs : List Group} {marked seed : List String} {id : String}

/-- What holds of the marked groups and goes over to those that list one holds of all that apply. -/
theorem Applies.least {P : String → Prop} (hmarked : ∀ id ∈ marked, P id)
    (hnested : ∀ g ∈ groups, ∀ child ∈ g.memberGroupIDs, P child → P g.id)
    (h : Applies groups marked id) : P id := by
  induction h with
  | marked h => exact hmarked _ h
  | nested hg hchild _ ih => exact hnested _ hg _ hchild ih

/-! ### One pass -/

theorem suffix_closePass (gs : List Group) (marked : List String) :
    marked <:+ closePass gs marked := by
  induction gs generalizing marked with
  | nil => exact List.suffix_rfl
  | cons g gs ih =>
    simp only [closePass]
    split_ifs
    · exact ih marked
    · exact (List.suffix_cons _ _).trans (ih _)
    · exact ih marked

theorem applies_of_mem_closePass (hsub : ∀ g ∈ gs, g ∈ groups)
    (hmarked : ∀ id ∈ marked, Applies groups seed id) (hid : id ∈ closePass gs marked) :
    Applies groups seed id := by
  induction gs generalizing marked with
  | nil => exact hmarked id hid
  | cons g gs ih =>
    rw [List.forall_mem_cons] at hsub
    simp only [closePass] at hid
    split_ifs at hid with hin hany
    · exact ih hsub.2 hmarked hid
    · refine ih hsub.2 (List.forall_mem_cons.mpr ⟨?_, hmarked⟩) hid
      obtain ⟨child, hchild, hin⟩ := List.any_eq_true.mp hany
      exact .nested hsub.1 hchild (hmarked child (List.contains_iff_mem.mp hin))
    · exact ih hsub.2 hmarked hid

/-- A pass marks a group that was not, or it leaves none to be marked. -/
theorem closePass_cases (gs : List Group) (marked : List String) :
    (∃ g ∈ gs, g.id ∉ marked ∧ g.id ∈ closePass gs marked) ∨
      closePass gs marked = marked ∧
        ∀ g ∈ gs, ∀ child ∈ g.memberGroupIDs, child ∈ marked → g.id ∈ marked := by
  induction gs with
  | nil => exact .inr ⟨rfl, by simp⟩
  | cons g gs ih =>
    simp only [closePass, List.contains_iff_mem, List.forall_mem_cons, List.exists_mem_cons_iff]
    split_ifs with hin hany
    · exact ih.imp .inr fun h => ⟨h.1, fun _ _ _ => hin, h.2⟩
    · exact .inl (.inl ⟨hin, (suffix_closePass gs _).subset List.mem_cons_self⟩)
    · refine ih.imp .inr fun h => ⟨h.1, fun child hchild hin => absurd ?_ hany, h.2⟩
      exact List.any_eq_true.mpr ⟨child, hchild, List.contains_iff_mem.mpr hin⟩

/-! ### All passes -/

def unmarked (groups : List Group) (marked : List String) : Finset String :=
  (groups.map (·.id)).toFinset \ marked.toFinset

/-- With fuel for the groups that are not marked, no pass is left out. -/
theorem mem_close_iff {fuel : Nat} (hfuel : (unmarked groups marked).card < fuel) :
    id ∈ close groups fuel marked ↔ Applies groups marked id := by
  -- Each pass but the last leaves fewer groups unmarked, so the fuel is enough.
  induction fuel generalizing marked with
  | zero => exact absurd hfuel (Nat.not_lt_zero _)
  | succ fuel ih =>
    have hsub := (suffix_closePass groups marked).subset
    simp only [close]
    rcases closePass_cases groups marked with ⟨g, hg, hout, hin⟩ | ⟨heq, hclosed⟩
    · have hlt :
          (unmarked groups (closePass groups marked)).card < (unmarked groups marked).card := by
        refine Finset.card_lt_card ((Finset.ssubset_iff_of_subset ?_).mpr ⟨g.id, ?_, ?_⟩)
        · exact Finset.sdiff_subset_sdiff le_rfl fun x hx => by simpa using hsub (by simpa using hx)
        · simpa [unmarked, hout] using ⟨g, hg, rfl⟩
        · simp [unmarked, hin]
      have hne : closePass groups marked ≠ marked := fun heq => hout (by rwa [heq] at hin)
      rw [if_neg hne, ih (by omega)]
      refine ⟨Applies.least ?_ fun _ hg _ hchild h => .nested hg hchild h,
        Applies.least (fun _ h => .marked (hsub h)) fun _ hg _ hchild h => .nested hg hchild h⟩
      exact fun _ => applies_of_mem_closePass (fun _ hg => hg) fun _ => .marked
    · rw [if_pos heq]
      exact ⟨.marked, Applies.least (fun _ h => h) hclosed⟩

/-- The passes the engine makes are enough. -/
theorem mem_closed_iff :
    id ∈ close groups (groups.length + 1) marked ↔ Applies groups marked id := by
  refine mem_close_iff (Nat.lt_succ_of_le ?_)
  calc (unmarked groups marked).card
      ≤ (groups.map (·.id)).toFinset.card := Finset.card_le_card Finset.sdiff_subset
    _ ≤ (groups.map (·.id)).length := List.toFinset_card_le _
    _ = groups.length := List.length_map _

/-! ### Reading the records -/

variable {env : Env} {w : World} {α : Type} {json : Codec Byte α fun _ => True} {pfx : Key}

/-- The records below a prefix. -/
def recordsAt (json : Codec Byte α fun _ => True) (pfx : Key) (store : Store) : List α :=
  (store.list pfx).filterMap fun id => (store.lookup (pfx ++ id)).bind json.unmarshal

theorem optional_readRecord (what : String) (missing : IdentityError) (key : Key) :
    Yields env.answer
      (Act.optional (readRecord json what (.identity missing) key) (.identity missing)) w
      (fun r w' => r = (w.store.lookup key).bind json.unmarshal ∧ w'.store = w.store)
      fun _ _ => True := by
  refine Act.yields_optional (Yields.bind (Act.yields_context (Act.get_found.mono ?_ ?_)))
  · rintro _ w₁ ⟨rfl, hs⟩
    cases w.store.lookup key with
    | none => exact Yields.throw (by simpa [Err.is] using hs)
    | some blob =>
      dsimp only [Option.bind_some]
      cases json.unmarshal blob with
      | none => exact Yields.throw (by simp [Err.is])
      | some a => exact Yields.pure ⟨rfl, hs⟩
  · rintro e w₁ (rfl | rfl) <;> simp [Err.is]

theorem readAll_spec (what : String) (missing : IdentityError) (ids : List Bytes) :
    Yields env.answer
      (readAll (fun id => readRecord json what (.identity missing) (pfx ++ id))
        (.identity missing) ids) w
      (fun rs w' => w'.store = w.store ∧
        rs = ids.filterMap fun id => (w.store.lookup (pfx ++ id)).bind json.unmarshal)
      fun _ _ => True := by
  induction ids generalizing w with
  | nil => exact Yields.pure ⟨rfl, rfl⟩
  | cons id ids ih =>
    refine Yields.bind ((optional_readRecord what missing (pfx ++ id)).mono ?_ fun _ _ h => h)
    rintro _ w₁ ⟨rfl, hs₁⟩
    refine Yields.bind (ih.mono ?_ fun _ _ h => h)
    rintro _ w₂ ⟨hs₂, rfl⟩
    refine Yields.pure ⟨hs₂.trans hs₁, ?_⟩
    rw [List.filterMap_cons, hs₁]
    cases (w.store.lookup (pfx ++ id)).bind json.unmarshal <;> rfl

theorem list_found :
    Yields env.answer (Act.list pfx) w (fun ids w' => ids = w.store.list pfx ∧ w'.store = w.store)
      fun _ _ => True := by
  unfold Yields
  rw [Act.exec_list]
  rcases env.answer_list_cases w pfx with h | ⟨e, h⟩
  · rw [h]
    exact ⟨rfl, rfl⟩
  · rw [h]
    trivial

/-- The keys of the groups that the logins of an entity carried. -/
def assertedAt (E : IdentityEngine) (store : Store) (entityID : String) : List String :=
  ((recordsAt E.aliasJson aliasesPrefix store).filter (·.entityID = entityID)).flatMap fun a =>
    a.groups.map (assertedKey a.mountType)

/--
**The policies of the groups are those of every group that applies.**

Whatever is stored and whichever calls fail: if the engine answers, a policy stands
in the answer exactly if a stored group has it that the entity belongs to directly,
or through groups that list one another, to any depth and also in circles.  Of an
external group, direct means that a login of the entity carried its key: mount and
name joined by a zero byte, so that two pairs with such a byte can share one.
-/
theorem groupPolicies_iff (E : IdentityEngine) (env : Env) (w : World) (entityID : String) :
    Yields env.answer (E.groupPoliciesForEntity entityID) w
      (fun policies _ =>
        let groups := recordsAt E.groupJson groupsPrefix w.store
        let direct := groups.filter (isMember entityID (E.assertedAt w.store entityID))
        ∀ policy, policy ∈ policies ↔
          ∃ g ∈ groups, Applies groups (direct.map (·.id)) g.id ∧ policy ∈ g.policies)
      fun _ _ => True := by
  refine Yields.bind (Act.yields_context (list_found.mono ?_ fun _ _ _ => trivial))
  rintro _ w₁ ⟨rfl, hs₁⟩
  refine Yields.bind ((readAll_spec "group" .groupNotFound _).mono ?_ fun _ _ h => h)
  rintro _ w₂ ⟨hs₂, rfl⟩
  refine Yields.bind (Yields.bind (Act.yields_context (list_found.mono ?_ fun _ _ _ => trivial)))
  rintro _ w₃ ⟨rfl, hs₃⟩
  refine Yields.bind ((readAll_spec "alias" .aliasNotFound _).mono ?_ fun _ _ h => h)
  rintro _ w₄ ⟨-, rfl⟩
  refine Yields.pure (Yields.pure ?_)
  rw [hs₃, hs₂, hs₁]
  intro groups direct policy
  simp only [List.mem_flatMap, List.mem_filter, List.contains_iff_mem, mem_closed_iff, and_assoc]
  rfl

/-! ### The entity of a login -/

variable {E : IdentityEngine} {mountType name : String} {groups : List String}

/-- The record under a key, if it can be read. -/
def recordAt (json : Codec Byte α fun _ => True) (store : Store) (key : Key) : Option α :=
  if validKey key then (store.lookup key).bind json.unmarshal else none

theorem readRecord_spec (hworks : env.Works) {what : String} {missing : Err} {key : Key} :
    Yields env.answer (readRecord json what missing key) w
      (fun a w' => recordAt json w.store key = some a ∧ w'.store = w.store)
      fun _ _ => recordAt json w.store key = none := by
  unfold recordAt
  refine Yields.bind (Act.yields_context (hworks.get_iff.mono ?_ fun _ _ hv => by simp [hv]))
  rintro _ w₁ ⟨hv, rfl, hs₁⟩
  rw [if_pos hv]
  cases w.store.lookup key with
  | none => exact Yields.throw rfl
  | some blob =>
    dsimp only [Option.bind_some]
    cases json.unmarshal blob with
    | none => exact Yields.throw rfl
    | some a => exact Yields.pure ⟨rfl, hs₁⟩

/-- A key of the engine is valid if what comes last is. -/
theorem validKey_area {area : Key} (base : Key) (harea : area = base ++ [slash])
    (hbase : validKey base = true) (x : Bytes) : validKey (area ++ x) = validKey x := by
  rw [harea, List.append_assoc, List.singleton_append, validKey_append_slash, hbase, Bool.true_and]

theorem validKey_entityKey (id : String) : validKey (entityKey id) = validKey (str id) :=
  validKey_area (str "identity/entity") (by decide_cbv) (by decide_cbv) (str id)

theorem validKey_aliasKey (id : Bytes) : validKey (aliasKey id) = validKey id :=
  validKey_area (str "identity/alias") (by decide_cbv) (by decide_cbv) id

theorem validKey_entityNameKey (n : String) : validKey (entityNameKey n) = validKey (str n) :=
  validKey_area (str "identity/entity-name") (by decide_cbv) (by decide_cbv) (str n)

theorem validKey_join (mount n : Bytes) :
    validKey (mount ++ str "/" ++ n) = (validKey mount && validKey n) := by
  have hslash : str "/" = [slash] := by decide_cbv
  rw [hslash, List.append_assoc, List.singleton_append, validKey_append_slash]

theorem validKey_aliasIndexKey (mount n : String) :
    validKey (aliasIndexKey mount n) = (validKey (str mount) && validKey (str n)) := by
  rw [← validKey_join, aliasIndexKey, List.append_assoc, List.append_assoc, ← List.append_assoc (str mount)]
  exact validKey_area (str "identity/alias-index") (by decide_cbv) (by decide_cbv) _

theorem genID_spec (hworks : env.Works) :
    Yields env.answer genID w (fun id _ => validKey (str id) = true) fun _ _ => False := by
  refine Yields.bind (Act.yields_context (Act.randRead_spec.mono ?_ fun _ _ h => ?_))
  · intro b w₁ _
    refine Yields.pure ?_
    have hne : b.val ≠ [] := List.ne_nil_of_length_pos (by rw [b.2]; decide)
    rw [str_text (ascii_hexEncode _)]
    exact validKey_segment (ascii_hexEncode _) (slash_notMem_hexEncode _) (validSegment_hexEncode hne)
  · exact hworks.not_faulted h.faulted

theorem saveAlias_spec (hworks : env.Works) {a : Alias} :
    Yields env.answer (E.saveAlias a) w (fun _ _ => validKey (str a.id) = true)
      fun _ _ => validKey (str a.id) = false := by
  rw [← validKey_aliasKey]
  exact Act.yields_context (hworks.put_iff.mono (fun _ _ h => h.1) fun _ _ h => h)

theorem createEntity_spec (hworks : env.Works) {policies : List String}
    {metadata : Finmap fun _ : String => String} {disabled : Bool}
    (hname : validKey (str name) = true) :
    Yields env.answer (E.createEntity name policies metadata disabled) w (fun _ _ => True)
      fun _ _ => False := by
  refine Yields.bind ((genID_spec hworks).mono ?_ fun _ _ h => h)
  intro id w₁ hid
  refine Yields.bind (Act.now_spec.mono ?_ fun _ _ h => h.elim)
  intro now w₂ _
  have hentity := (validKey_entityKey id).trans hid
  refine Yields.bind (Yields.bind (Act.yields_context ((hworks.put hentity).mono ?_ fun _ _ h => h)))
  intro _ w₃ _
  have hindex := (validKey_entityNameKey name).trans hname
  refine Act.yields_context ((hworks.put hindex).mono ?_ fun _ _ h => h)
  intro _ w₄ _
  exact Yields.pure trivial

theorem putAlias_spec (hworks : env.Works) {entityID : String}
    (hindex : validKey (aliasIndexKey mountType name) = true) :
    Yields env.answer (E.putAlias entityID mountType name groups) w (fun _ _ => True)
      fun _ _ => False := by
  refine Yields.bind ((genID_spec hworks).mono ?_ fun _ _ h => h)
  intro id w₁ hid
  refine Yields.bind (Act.now_spec.mono ?_ fun _ _ h => h.elim)
  intro now w₂ _
  refine Yields.bind ((saveAlias_spec hworks).mono ?_ fun _ _ h => ?_)
  · intro _ w₃ _
    refine Yields.bind (Act.yields_context ((hworks.put hindex).mono ?_ fun _ _ h => h))
    intro _ w₄ _
    exact Yields.pure trivial
  · exact Bool.false_ne_true (h.symm.trans hid)

/-- An alias that an index names can be read, with its entity, and stored again if the groups of
the login are others. -/
def Bound (E : IdentityEngine) (store : Store) (groups : List String) (id : Bytes) : Prop :=
  ∃ a, recordAt E.aliasJson store (aliasKey id) = some a ∧
    (∃ entity, recordAt E.entityJson store (entityKey a.entityID) = some entity) ∧
    (a.groups ≠ groups → validKey (str a.id) = true)

/-- What a login asks of the records: its name can stand in a key, and an alias that is indexed
under it is bound. -/
def Resolvable (E : IdentityEngine) (store : Store) (mountType name : String)
    (groups : List String) : Prop :=
  validKey (str name) = true ∧
    ∀ id, store.lookup (aliasIndexKey mountType name) = some id → E.Bound store groups id

theorem refresh_spec (hworks : env.Works) (id : Bytes) :
    Yields env.answer (do
        let a ← E.readAlias id
        let entity ← E.readEntity a.entityID
        if a.groups ≠ groups then E.saveAlias { a with groups }
        return entity.id) w
      (fun _ _ => E.Bound w.store groups id) fun _ _ => ¬ E.Bound w.store groups id := by
  unfold Bound
  refine Yields.bind ((readRecord_spec hworks).mono ?_ fun _ _ ha => by simp [ha])
  rintro a w₁ ⟨ha, hs₁⟩
  simp only [ha, Option.some.injEq, exists_eq_left']
  refine Yields.bind ((readRecord_spec hworks).mono ?_ fun _ _ hnone => ?_)
  · rintro entity w₂ ⟨hentity, -⟩
    rw [hs₁] at hentity
    split_ifs with hgroups
    · refine Yields.bind ((saveAlias_spec hworks).mono (fun _ _ hid => ?_) fun _ _ hid => ?_)
      · exact Yields.pure ⟨⟨entity, hentity⟩, fun _ => hid⟩
      · exact fun h => Bool.false_ne_true (hid.symm.trans (h.2 hgroups))
    · exact Yields.pure ⟨⟨entity, hentity⟩, fun h => absurd h hgroups⟩
  · rw [hs₁] at hnone
    rintro ⟨⟨entity, hentity⟩, -⟩
    exact Option.some_ne_none entity (hentity.symm.trans hnone)

theorem resolveAlias_spec (hworks : env.Works) (hmount : validKey (str mountType) = true) :
    Yields env.answer (E.resolveAlias mountType name groups) w
      (fun _ _ => E.Resolvable w.store mountType name groups)
      fun _ _ => ¬ E.Resolvable w.store mountType name groups := by
  have hkey : validKey (aliasIndexKey mountType name) = validKey (str name) := by
    rw [validKey_aliasIndexKey, hmount, Bool.true_and]
  unfold Resolvable
  refine Yields.bind (Act.yields_context (hworks.get_iff.mono ?_ fun _ _ hv => ?_))
  · rintro _ w₁ ⟨hindex, rfl, hs₁⟩
    simp only [← hkey, hindex, true_and]
    cases w.store.lookup (aliasIndexKey mountType name) with
    | some id =>
      simp only [Option.some.injEq, forall_eq']
      exact hs₁ ▸ refresh_spec hworks id
    | none =>
      have hname : validKey (str (mountType ++ "/" ++ name)) = true := by
        rw [str_append, str_append, validKey_join, hmount, ← hkey, hindex, Bool.true_and]
      dsimp only
      split_ifs
      · exact Yields.pure (by simp)
      · refine Yields.bind ((createEntity_spec hworks hname).mono ?_ fun _ _ h => h.elim)
        intro entity w₂ _
        refine Yields.bind ((putAlias_spec hworks hindex).mono ?_ fun _ _ h => h.elim)
        intro a w₃ _
        exact Yields.pure (by simp)
  · simp [← hkey, hv]

end IdentityEngine

/-! ### An engine that computes -/

open Wire

def Entity.wire : Wire Entity :=
  (string.pair (string.pair (string.many.pair ((finmap string string).pair (bool.pair int))))).via
    (fun e => (e.id, e.name, e.policies, e.metadata, e.disabled, e.createdTime))
    (fun (id, n, ps, m, d, c) => ⟨id, n, ps, m, d, c⟩) fun _ => rfl

def Alias.wire : Wire Alias :=
  (string.pair (string.pair (string.pair (string.pair (string.many.pair int))))).via
    (fun a => (a.id, a.entityID, a.mountType, a.name, a.groups, a.createdTime))
    (fun (id, e, m, n, gs, c) => ⟨id, e, m, n, gs, c⟩) fun _ => rfl

def GroupType.wire : Wire GroupType :=
  bool.via (· = .external) (if · then .external else .internal) fun t => by cases t <;> rfl

def Group.wire : Wire Group :=
  (string.pair (string.pair (GroupType.wire.pair (string.many.pair (string.many.pair
    (string.many.pair (string.pair (string.pair int)))))))).via
    (fun g => (g.id, g.name, g.type, g.policies, g.memberEntityIDs, g.memberGroupIDs, g.mountType,
      g.groupName, g.createdTime))
    (fun (id, n, t, ps, es, gs, m, gn, c) => ⟨id, n, t, ps, es, gs, m, gn, c⟩) fun _ => rfl

def IdentityEngine.transparent : IdentityEngine :=
  ⟨Entity.wire.codec, Alias.wire.codec, Group.wire.codec, true⟩

end UbixVault
