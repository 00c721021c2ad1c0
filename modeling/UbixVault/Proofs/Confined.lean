/-
Programs that keep to a part of the store.

A program all of whose calls are about keys with a given prefix leaves every other key as
it is, and what it returns depends on the keys with that prefix only.
-/
import UbixVault.Lib.Events
import UbixVault.Proofs.Outside
import UbixVault.Proofs.Storage

namespace UbixVault

open Program

variable {α : Type} {scope key : Key} {env env' : Env} {w w' : World} {s s' : Store}

/-- A call about keys with a prefix. -/
def Call.Below (scope : Key) : Call → Prop
  | .get key => scope <+: key
  | .put key _ => scope <+: key
  | .delete key => scope <+: key
  | .list pfx => scope <+: pfx
  | _ => False

/-- Two stores that are the same as far as keys with a prefix go. -/
def Store.AgreeBelow (scope : Key) (s s' : Store) : Prop :=
  ∀ key, scope <+: key → s.lookup key = s'.lookup key

namespace Store.AgreeBelow

theorem mem_iff (h : AgreeBelow scope s s') (hkey : scope <+: key) : key ∈ s ↔ key ∈ s' := by
  rw [← Finmap.lookup_isSome, ← Finmap.lookup_isSome, h key hkey]

theorem insert (h : AgreeBelow scope s s') (key : Key) (value : Bytes) :
    AgreeBelow scope (s.insert key value) (s'.insert key value) := by
  intro key' hkey'
  by_cases heq : key' = key
  · rw [heq, Finmap.lookup_insert, Finmap.lookup_insert]
  · rw [Finmap.lookup_insert_of_ne _ heq, Finmap.lookup_insert_of_ne _ heq]
    exact h key' hkey'

theorem erase (h : AgreeBelow scope s s') (key : Key) : AgreeBelow scope (s.erase key) (s'.erase key) := by
  intro key' hkey'
  by_cases heq : key' = key
  · rw [heq, Finmap.lookup_erase, Finmap.lookup_erase]
  · rw [Finmap.lookup_erase_ne heq, Finmap.lookup_erase_ne heq]
    exact h key' hkey'

/-- They have the same listings. -/
theorem list_eq (h : AgreeBelow scope s s') {pfx : Key} (hpfx : scope <+: pfx) :
    s.list pfx = s'.list pfx := by
  have hunder : ∀ {key child}, childUnder pfx key = some child → scope <+: key := by
    intro key child hchild
    refine hpfx.trans ?_
    by_contra hnot
    simp [childUnder, hnot] at hchild
  unfold Store.list
  congr 1
  ext child
  simp only [Finset.mem_biUnion, Finmap.mem_keys, Option.mem_toFinset, Option.mem_def]
  constructor
  · rintro ⟨key, hkey, hchild⟩
    exact ⟨key, (h.mem_iff (hunder hchild)).mp hkey, hchild⟩
  · rintro ⟨key, hkey, hchild⟩
    exact ⟨key, (h.mem_iff (hunder hchild)).mpr hkey, hchild⟩

end Store.AgreeBelow

/-! ### What is left of a store -/

/-- Keys of a kind may be gone; nothing else is different. -/
def Store.Pruned (kind : Key → Prop) (s s' : Store) : Prop :=
  ∀ key, s'.lookup key = s.lookup key ∨ kind key ∧ s'.lookup key = none

/-- The keys of a kind are gone; nothing else is different. -/
structure Store.Cleared (kind : Key → Prop) (s s' : Store) : Prop where
  pruned : Pruned kind s s'
  gone : ∀ key, kind key → s'.lookup key = none

namespace Store.Pruned

variable {kind kind' : Key → Prop} {s₁ s₂ s₃ : Store}

theorem refl (kind : Key → Prop) (s : Store) : Pruned kind s s := fun _ => .inl rfl

theorem mono (hs : Pruned kind s₁ s₂) (hkind : ∀ key, kind key → kind' key) : Pruned kind' s₁ s₂ :=
  fun key => (hs key).imp_right fun ⟨hkey, hnone⟩ => ⟨hkind key hkey, hnone⟩

theorem some (hs : Pruned kind s₁ s₂) {key : Key} {value : Bytes} (hkey : s₂.lookup key = some value) :
    s₁.lookup key = some value := by
  rcases hs key with heq | ⟨-, hnone⟩
  · exact heq.symm.trans hkey
  · rw [hnone] at hkey
    cases hkey

theorem none (hs : Pruned kind s₁ s₂) {key : Key} (hkey : s₁.lookup key = none) : s₂.lookup key = none := by
  rcases hs key with heq | ⟨-, hnone⟩
  · exact heq.trans hkey
  · exact hnone

theorem mem (hs : Pruned kind s₁ s₂) {key : Key} (hkey : key ∈ s₂) : key ∈ s₁ := by
  by_contra hnot
  exact Finmap.lookup_eq_none.mp (hs.none (Finmap.lookup_eq_none.mpr hnot)) hkey

theorem trans (hs : Pruned kind s₁ s₂) (hs' : Pruned kind s₂ s₃) : Pruned kind s₁ s₃ := by
  intro key
  rcases hs' key with heq | hgone
  · rw [heq]
    exact hs key
  · exact .inr hgone

end Store.Pruned

theorem Store.Cleared.erase (s : Store) (key : Key) : Cleared (· = key) s (s.erase key) := by
  refine ⟨fun key' => ?_, ?_⟩
  · by_cases heq : key' = key
    · rw [heq]
      exact .inr ⟨rfl, Finmap.lookup_erase _ _⟩
    · exact .inl (Finmap.lookup_erase_ne heq)
  · rintro _ rfl
    exact Finmap.lookup_erase _ _

theorem Store.Cleared.congr {kind kind' : Key → Prop} {s₁ s₂ : Store} (hs : Cleared kind s₁ s₂)
    (hkind : ∀ key, kind key ↔ kind' key) : Cleared kind' s₁ s₂ :=
  ⟨hs.pruned.mono fun key => (hkind key).mp, fun key hkey => hs.gone key ((hkind key).mpr hkey)⟩

/-! ### Confined programs -/

/-- A call about keys with a prefix leaves the others alone. -/
theorem Env.lookup_answer_of_below {c : Call} (hc : c.Below scope) (hkey : ¬ scope <+: key) :
    (env.answer w c).2.store.lookup key = w.store.lookup key := by
  cases c with
  | put key' value =>
    have hne : key ≠ key' := fun heq => hkey (heq ▸ hc)
    rcases Env.answer_put_cases env w key' value with h | ⟨e, h⟩
    · rw [h]
      exact Finmap.lookup_insert_of_ne _ hne
    · rw [h]
      rfl
  | delete key' =>
    have hne : key ≠ key' := fun heq => hkey (heq ▸ hc)
    rcases Env.answer_delete_cases env w key' with h | ⟨e, h⟩
    · rw [h]
      exact Finmap.lookup_erase_ne hne
    · rw [h]
      rfl
  | get | list => rw [Env.answer_reads ⟨by nofun, by nofun⟩]
  | _ => exact hc.elim

/-- **What a confined program leaves alone.** -/
theorem lookup_run_of_within {p : Prog α} (hp : Within (Call.Below scope) p)
    (hkey : ¬ scope <+: key) (w : World) :
    (p.run env.answer w).2.store.lookup key = w.store.lookup key := by
  induction p generalizing w with
  | ret a => rfl
  | step c next ih =>
    rw [run_step, ih _ (hp.2 _)]
    exact Env.lookup_answer_of_below hp.1 hkey

theorem Env.guarded_of_works (hworks : env.Works) {call : Call} {valid : Bool}
    {reply : Except Err α × World} :
    env.guarded w call valid reply = if valid then reply else (.error (.storage .invalidKey), w.next) := by
  unfold Env.guarded
  rw [if_neg (by simp [hworks w.tick call])]

/-- A call is answered alike where the stores agree. -/
theorem Env.answer_of_below (hworks : env.Works) (hworks' : env'.Works) {c : Call} (hc : c.Below scope)
    (h : Store.AgreeBelow scope w.store w'.store) :
    (env.answer w c).1 = (env'.answer w' c).1 ∧
      Store.AgreeBelow scope (env.answer w c).2.store (env'.answer w' c).2.store := by
  have hguarded : ∀ {β : Type} (c : Call) (valid : Bool) (r r' : Except Err β × World),
      r.1 = r'.1 → Store.AgreeBelow scope r.2.store r'.2.store →
      (env.guarded w c valid r).1 = (env'.guarded w' c valid r').1 ∧
        Store.AgreeBelow scope (env.guarded w c valid r).2.store (env'.guarded w' c valid r').2.store := by
    intro β c valid r r' hreply hstore
    rw [Env.guarded_of_works hworks, Env.guarded_of_works hworks']
    split_ifs
    · exact ⟨hreply, hstore⟩
    · exact ⟨rfl, h⟩
  cases c with
  | get key => exact hguarded _ _ _ _ (congrArg Except.ok (h key hc)) h
  | put key value => exact hguarded _ _ _ _ rfl (h.insert key value)
  | delete key => exact hguarded _ _ _ _ rfl (h.erase key)
  | list pfx => exact hguarded _ _ _ _ (congrArg Except.ok (h.list_eq hc)) h
  | _ => exact hc.elim

/-- **What a confined program depends on.** -/
theorem run_of_within (hworks : env.Works) (hworks' : env'.Works) {p : Prog α}
    (hp : Within (Call.Below scope) p)
    (h : Store.AgreeBelow scope w.store w'.store) :
    (p.run env.answer w).1 = (p.run env'.answer w').1 ∧
      Store.AgreeBelow scope (p.run env.answer w).2.store (p.run env'.answer w').2.store := by
  induction p generalizing w w' with
  | ret a => exact ⟨rfl, h⟩
  | step c next ih =>
    obtain ⟨hreply, hstore⟩ := Env.answer_of_below hworks hworks' hp.1 h
    rw [run_step, run_step, ← hreply]
    exact ih _ (hp.2 _) hstore

end UbixVault
