/-
The key/value engine refines the map of secrets with versions.

Every call over storage that works returns what the map returns, and leaves what the
map says is stored.  That a destroyed version is never readable again and that paths
have no bearing on each other are then facts about the map.
-/
import UbixVault.Proofs.Kv.Write

namespace UbixVault.Kv

open Program

variable {δ : Type} {e : Engine δ} {env : Env} {w : World} {s s' : Store} {path q : Bytes}
  {o : Option (History δ)} {h : History δ} {m : Metadata} {x : Version δ} {v : Int}

/-! ### Reading -/

namespace Engine

/-- What a read returns, from the metadata and the data that is stored. -/
def response (e : Engine δ) (m : Metadata) (data : Int → Option Bytes) (version : Int) : Response δ :=
  let v := if version = 0 then m.currentVersion else version
  match m.versions.lookup v with
  | none => .read (.error (.kv .versionNotFound)) none
  | some vm =>
    if vm.destroyed then .read (.error (.kv .versionDestroyed)) (some vm)
    else if vm.deleted then .read (.error (.kv .versionDeleted)) (some vm)
    else
      match data v with
      | none => .read (.error (.kv .versionNotFound)) (some vm)
      | some blob =>
        match e.dataJson.unmarshal blob with
        | none => .read (.error (.wrap "kv: unmarshal data" .outside)) none
        | some data => .read (.ok data) (some vm)

theorem exec_readExistingMeta (hworks : env.Works) (hv : e.ValidPath path) (hmaximum : m.maxVersions ≠ 0)
    (hm : w.store.lookup (e.metaKey path) = some (e.metaJson.marshal m)) :
    Program.exec env.answer (do e.validatePath path; e.readExistingMeta path) w = (.ok m, w.next) := by
  have hget : Program.exec env.answer ((Act.get (e.metaKey path)).context "kv: read metadata") w
      = (.ok (some (e.metaJson.marshal m)), w.next) := by
    rw [Act.exec_context_eq_ok, Act.exec_get, Env.answer_get (hworks _ _) hv, hm]
  rw [hv.validatePath, exec_bind_ok _ (exec_pure _ _ _), readExistingMeta, exec_bind_ok _ hget]
  dsimp only
  rw [e.metaJson.unmarshal_marshal m trivial]
  dsimp only
  rw [if_neg hmaximum]
  rfl

theorem exec_readExistingMeta_none (hworks : env.Works) (hv : e.ValidPath path)
    (hm : w.store.lookup (e.metaKey path) = none) :
    Program.exec env.answer (do e.validatePath path; e.readExistingMeta path) w
      = (.error (.kv .secretNotFound), w.next) := by
  have hget : Program.exec env.answer ((Act.get (e.metaKey path)).context "kv: read metadata") w
      = (.ok none, w.next) := by
    rw [Act.exec_context_eq_ok, Act.exec_get, Env.answer_get (hworks _ _) hv, hm]
  rw [hv.validatePath, exec_bind_ok _ (exec_pure _ _ _), readExistingMeta, exec_bind_ok _ hget]
  rfl

theorem run_read (hworks : env.Works) (hv : e.ValidPath path) (hmaximum : m.maxVersions ≠ 0)
    (hm : w.store.lookup (e.metaKey path) = some (e.metaJson.marshal m)) (version : Int) :
    ((e.call (.read path version)).run env.answer w).1
        = e.response m (fun v => w.store.lookup (e.dataKey path v)) version ∧
      ((e.call (.read path version)).run env.answer w).2.store = w.store := by
  have hmeta := exec_readExistingMeta hworks hv hmaximum hm
  unfold Program.exec at hmeta
  have hget : ∀ v, (((Act.get (e.dataKey path v)).context "kv: read version").run).run env.answer w.next
      = (.ok (w.store.lookup (e.dataKey path v)), w.next.next) := by
    intro v
    show Program.exec _ _ _ = _
    rw [Act.exec_context_eq_ok, Act.exec_get, Env.answer_get (hworks _ _) (hv.dataKey v)]
    rfl
  simp only [call, read, response, run_bind, hmeta]
  generalize (if version = 0 then m.currentVersion else version) = v
  cases m.versions.lookup v with
  | none => exact ⟨rfl, rfl⟩
  | some vm =>
    dsimp only
    by_cases hdestroyed : vm.destroyed = true
    · simp only [if_pos hdestroyed]
      exact ⟨rfl, rfl⟩
    · by_cases hdeleted : vm.deleted = true
      · simp only [if_neg hdestroyed, if_pos hdeleted]
        exact ⟨rfl, rfl⟩
      · simp only [if_neg hdestroyed, if_neg hdeleted, run_bind, hget]
        cases w.store.lookup (e.dataKey path v) with
        | none => exact ⟨rfl, rfl⟩
        | some blob =>
          dsimp only
          cases e.dataJson.unmarshal blob with
          | none => exact ⟨rfl, rfl⟩
          | some data => exact ⟨rfl, rfl⟩

/-- For a history, a read finds what the history says. -/
theorem response_eq (hencodes : ∀ x ∈ h, (e.dataJson.marshal x.data).isSome = true)
    (hm : m.Describes e.maxVer h) (version : Int) :
    e.response m (e.blob h) version = h.read e.maxVer version := by
  unfold response History.read
  rw [hm.current]
  dsimp only
  generalize (if version = 0 then (h.length : Int) else version) = v
  rw [hm.versions v, blob]
  cases hx : h.version e.maxVer v with
  | none => rfl
  | some x =>
    obtain ⟨blob, hblob⟩ := Option.isSome_iff_exists.mp (hencodes x (History.mem_of_version hx))
    have hread := e.dataJson.unmarshal_marshal x.data blob hblob
    by_cases hdestroyed : x.destroyed = true
    · simp [Version.info, hdestroyed]
    · simp [Version.info, hdestroyed, hblob, hread]

end Engine

/-! ### Changing versions -/

theorem Metadata.lookup_change (m : Metadata) (f : VersionMeta → VersionMeta) (v u : Int) :
    (m.change f v).versions.lookup u
      = if u = v then (m.versions.lookup v).map f else m.versions.lookup u := by
  unfold Metadata.change
  cases hv : m.versions.lookup v with
  | none =>
    split_ifs with huv
    · rw [huv, hv]
      rfl
    · rfl
  | some vm =>
    split_ifs with huv
    · rw [huv]
      exact Finmap.lookup_insert _
    · exact Finmap.lookup_insert_of_ne _ huv

theorem Metadata.change_fields (m : Metadata) (f : VersionMeta → VersionMeta) (v : Int) :
    (m.change f v).currentVersion = m.currentVersion ∧ (m.change f v).oldestVersion = m.oldestVersion ∧
      (m.change f v).maxVersions = m.maxVersions := by
  unfold Metadata.change
  cases m.versions.lookup v with
  | none => exact ⟨rfl, rfl, rfl⟩
  | some vm => exact ⟨rfl, rfl, rfl⟩

section Change

variable {max : Int} {f : VersionMeta → VersionMeta} {g : Version δ → Version δ}

theorem Metadata.Describes.change (hm : m.Describes max h) (hfg : ∀ x v, f (Version.info x v) = (g x).info v)
    (v : Int) : (m.change f v).Describes max (h.change max g v) := by
  obtain ⟨hcurrent, hold, hmaximum⟩ := m.change_fields f v
  have hlength : (h.change max g v).length = h.length := History.length_change g
  refine ⟨by rw [hcurrent, hm.current, hlength], ?_, hmaximum.trans hm.maximum, fun u => ?_⟩
  · rw [hold, hm.oldest]
    unfold History.oldest
    rw [hlength]
  · rw [m.lookup_change, History.version_change, hm.versions, hm.versions]
    split_ifs with huv
    · rw [huv]
      cases h.version max v with
      | none => rfl
      | some x => exact congrArg some (hfg x v)
    · rfl

/-- Changing versions one after another. -/
theorem Metadata.Describes.foldl (hm : m.Describes max h) (hfg : ∀ x v, f (Version.info x v) = (g x).info v)
    (versions : List Int) :
    (versions.foldl (·.change f ·) m).Describes max (versions.foldl (History.change max · g ·) h) := by
  induction versions generalizing m h with
  | nil => exact hm
  | cons v rest ih => exact ih (hm.change hfg v)

theorem Metadata.Describes.targets (hm : m.Describes max h) (versions : List Int) :
    m.targets versions = if versions = [] then [(h.length : Int)] else versions := by
  unfold Metadata.targets
  rw [hm.current]

theorem Metadata.Describes.changeAll (hm : m.Describes max h)
    (hfg : ∀ x v, f (Version.info x v) = (g x).info v) (versions : List Int) :
    ((m.targets versions).foldl (·.change f ·) m).Describes max (h.changeAll max g versions) := by
  rw [hm.targets]
  exact hm.foldl hfg _

namespace History

theorem length_changeAll (versions : List Int) : (h.changeAll max g versions).length = h.length := by
  have hfold : ∀ (l : List Int) (h : History δ), (l.foldl (change max · g ·) h).length = h.length := by
    intro l
    induction l with
    | nil => exact fun h => rfl
    | cons v rest ih => exact fun h => (ih _).trans (length_change g)
  exact hfold _ h

/-- What every change keeps of versions holds of the changed history. -/
theorem changeAll_forall {P : Version δ → Prop} (hg : ∀ x, P x → P (g x)) (versions : List Int)
    (hall : ∀ x ∈ h, P x) : ∀ x ∈ h.changeAll max g versions, P x := by
  have hfold : ∀ (l : List Int) (h : History δ), (∀ x ∈ h, P x) →
      ∀ x ∈ l.foldl (change max · g ·) h, P x := by
    intro l
    induction l with
    | nil => exact fun h hall => hall
    | cons v rest ih =>
      intro h hall
      refine ih _ fun y hy => ?_
      obtain ⟨x, hx, rfl | rfl⟩ := mem_change hy
      · exact hall y hx
      · exact hg x (hall x hx)
  exact hfold _ h hall

end History

namespace Engine

/-- Versions whose data and destruction are left alone keep what is stored for them. -/
theorem blob_change (hg : ∀ x, (g x).data = x.data ∧ (g x).destroyed = x.destroyed) (v u : Int) :
    e.blob (h.change e.maxVer g v) u = e.blob h u := by
  unfold blob
  rw [History.version_change]
  split_ifs with huv
  · rw [huv]
    cases h.version e.maxVer v with
    | none => rfl
    | some x =>
      simp only [Option.map_some, Option.bind_some]
      rw [(hg x).1, (hg x).2]
  · rfl

theorem blob_changeAll (hg : ∀ x, (g x).data = x.data ∧ (g x).destroyed = x.destroyed)
    (versions : List Int) (u : Int) : e.blob (h.changeAll e.maxVer g versions) u = e.blob h u := by
  have hfold : ∀ (l : List Int) (h : History δ),
      e.blob (l.foldl (History.change e.maxVer · g ·) h) u = e.blob h u := by
    intro l
    induction l with
    | nil => exact fun h => rfl
    | cons v rest ih => exact fun h => (ih _).trans (blob_change hg v u)
  exact hfold _ h

/-- A destroyed version has no data. -/
theorem blob_destroy (v u : Int) :
    e.blob (h.change e.maxVer Version.destroy v) u = if u = v then none else e.blob h u := by
  unfold blob
  rw [History.version_change]
  split_ifs with huv
  · cases h.version e.maxVer v with
    | none => rfl
    | some x => rfl
  · rfl

/-- The metadata of a path whose secret is as the history says. -/
theorem readMeta_works (hworks : env.Works) (hmax : 1 ≤ e.maxVer) (hv : e.ValidPath path)
    (hh : e.Holds w.store path o) :
    Yields env.answer (e.readExistingMeta path) w
      (fun m w' => w' = w.next ∧ ∃ h, o = some h ∧ m.Describes e.maxVer h)
      (fun err w' => w' = w.next ∧ o = none ∧ err = .kv .secretNotFound) := by
  refine (readExistingMeta_spec hmax hv hh).mono (fun _ _ h => ⟨h.1, h.2.2⟩) ?_
  rintro err w' ⟨hw, ⟨ho, herr, -⟩ | ⟨-, hf⟩⟩
  · exact ⟨hw, ho, herr⟩
  · exact hworks.elim hf

theorem mutateVersions_spec (hworks : env.Works) (hmax : 1 ≤ e.maxVer) (hv : e.ValidPath path)
    (hh : e.Holds w.store path o) (hfg : ∀ x v, f (Version.info x v) = (g x).info v)
    (hg : ∀ x, (g x).data = x.data ∧ (g x).destroyed = x.destroyed) (versions : List Int) :
    Yields env.answer (e.mutateVersions path versions f) w
      (fun _ w' => ∃ h, o = some h ∧ e.Keeps w'.store path (h.changeAll e.maxVer g versions) ∧
        e.Elsewhere path w.store w'.store)
      (fun err w' => o = none ∧ err = .kv .secretNotFound ∧ w'.store = w.store) := by
  unfold mutateVersions
  rw [hv.validatePath]
  refine Yields.bind (Yields.pure (Yields.bind ((readMeta_works hworks hmax hv hh).mono ?_ ?_)))
  · rintro m w₁ ⟨rfl, h, rfl, hm⟩
    refine Yields.bind (Act.now_spec.mono ?_ fun _ _ h => h.elim)
    rintro now w₂ ⟨rfl, rfl⟩
    refine Act.yields_context ((hworks.put hv).mono ?_ fun _ _ h => h.elim)
    rintro - w' rfl
    have hm' := hm.changeAll hfg versions
    refine ⟨h, rfl, .save ?_ ?_ ⟨hm'.current, hm'.oldest, hm'.maximum, hm'.versions⟩ fun v => ?_,
      Elsewhere.insert_meta _ _⟩
    · rw [← List.length_pos_iff, History.length_changeAll]
      exact List.length_pos_iff.mpr hh.written
    · refine History.changeAll_forall (P := fun x => (e.dataJson.marshal x.data).isSome = true)
        ?_ _ hh.encodes
      intro x hx
      rwa [(hg x).1]
    · rw [blob_changeAll hg]
      exact hh.data v
  · rintro err w' ⟨rfl, ho, rfl⟩
    exact ⟨ho, rfl, rfl⟩

/-! ### Destroying versions -/

/-- Versions are destroyed one after another, their data first. -/
theorem destroyVersions_spec (hworks : env.Works) (hv : e.ValidPath path) (versions : List Int) :
    ∀ {w : World} {m : Metadata} {h : History δ}, m.Describes e.maxVer h →
      (∀ v, w.store.lookup (e.dataKey path v) = e.blob h v) →
      Yields env.answer (e.destroyVersions path versions m) w
        (fun m' w' => m'.Describes e.maxVer (versions.foldl (History.change e.maxVer · Version.destroy ·) h) ∧
          (∀ v, w'.store.lookup (e.dataKey path v)
            = e.blob (versions.foldl (History.change e.maxVer · Version.destroy ·) h) v) ∧
          e.Elsewhere path w.store w'.store)
        (fun _ _ => False) := by
  induction versions with
  | nil =>
    intro w m h hm hdata
    exact Yields.pure ⟨hm, hdata, Elsewhere.refl _ _⟩
  | cons v rest ih =>
    intro w m h hm hdata
    -- In the metadata, destroying is a change like any other.
    have hchange := hm.change (f := fun vm => { vm with destroyed := true }) (g := Version.destroy)
      (fun _ _ => rfl) v
    unfold destroyVersions
    cases hlookup : m.versions.lookup v with
    | none =>
      have hsame : m.change (fun vm => { vm with destroyed := true }) v = m := by
        unfold Metadata.change
        rw [hlookup]
      have hnone : h.version e.maxVer v = none := by
        have hversions := hm.versions v
        rw [hlookup] at hversions
        exact Option.map_eq_none_iff.mp hversions.symm
      rw [hsame] at hchange
      refine ih hchange fun u => ?_
      rw [blob_destroy, hdata]
      split_ifs with huv
      · rw [huv, blob, hnone]
        rfl
      · rfl
    | some vm =>
      have hsame : m.change (fun vm => { vm with destroyed := true }) v
          = { m with versions := m.versions.insert v { vm with destroyed := true } } := by
        unfold Metadata.change
        rw [hlookup]
      rw [hsame] at hchange
      refine Yields.bind (Act.yields_context ((hworks.delete (hv.dataKey v)).mono ?_ fun _ _ h => h.elim))
      rintro - w₁ rfl
      refine (ih hchange fun u => ?_).mono ?_ fun _ _ h => h
      · rw [blob_destroy, World.write_store]
        split_ifs with huv
        · rw [huv]
          exact Finmap.lookup_erase _ _
        · rw [Finmap.lookup_erase_ne fun heq => huv (dataKey_inj heq).2, hdata]
      · rintro m' w' ⟨hm', hdata', helse⟩
        exact ⟨hm', hdata', (Elsewhere.erase_data _ v).trans helse⟩

theorem destroy_spec (hworks : env.Works) (hmax : 1 ≤ e.maxVer) (hv : e.ValidPath path)
    (hh : e.Holds w.store path o) (versions : List Int) :
    Yields env.answer (e.destroy path versions) w
      (fun _ w' => ∃ h, o = some h ∧
        e.Keeps w'.store path (h.changeAll e.maxVer Version.destroy versions) ∧
        e.Elsewhere path w.store w'.store)
      (fun err w' => o = none ∧ err = .kv .secretNotFound ∧ w'.store = w.store) := by
  unfold destroy
  rw [hv.validatePath]
  refine Yields.bind (Yields.pure (Yields.bind ((readMeta_works hworks hmax hv hh).mono ?_ ?_)))
  · rintro m w₁ ⟨rfl, h, rfl, hm⟩
    rw [hm.targets]
    refine Yields.bind
      ((destroyVersions_spec (w := w.next) hworks hv _ hm hh.data).mono ?_ fun _ _ h => h.elim)
    rintro m' w₂ ⟨hm', hdata, helse⟩
    refine Yields.bind (Act.now_spec.mono ?_ fun _ _ h => h.elim)
    rintro now w₃ ⟨rfl, rfl⟩
    refine Act.yields_context ((hworks.put hv).mono ?_ fun _ _ h => h.elim)
    rintro - w' rfl
    refine ⟨h, rfl, .save ?_ ?_ ⟨hm'.current, hm'.oldest, hm'.maximum, hm'.versions⟩ hdata,
      helse.trans (Elsewhere.insert_meta _ _)⟩
    · rw [← List.length_pos_iff]
      exact (History.length_changeAll versions).symm ▸ List.length_pos_iff.mpr hh.written
    · exact History.changeAll_forall (P := fun x => (e.dataJson.marshal x.data).isSome = true)
        (g := Version.destroy) (fun _ hx => hx) versions hh.encodes
  · rintro err w' ⟨rfl, ho, rfl⟩
    exact ⟨ho, rfl, rfl⟩

/-! ### Deleting the metadata -/

theorem deleteVersions_spec (hworks : env.Works) (hv : e.ValidPath path) (versions : List Int) :
    ∀ {w : World}, Yields env.answer (e.deleteVersions path versions) w
      (fun _ w' => (∀ v, w'.store.lookup (e.dataKey path v)
          = if v ∈ versions then none else w.store.lookup (e.dataKey path v)) ∧
        e.Elsewhere path w.store w'.store)
      (fun _ _ => False) := by
  induction versions with
  | nil =>
    intro w
    exact Yields.pure ⟨fun v => (if_neg (by simp)).symm, Elsewhere.refl _ _⟩
  | cons v rest ih =>
    intro w
    unfold deleteVersions
    refine Yields.bind (Act.yields_context ((hworks.delete (hv.dataKey v)).mono ?_ fun _ _ h => h.elim))
    rintro - w₁ rfl
    refine ih.mono ?_ fun _ _ h => h
    rintro - w' ⟨hdata, helse⟩
    refine ⟨fun u => ?_, (Elsewhere.erase_data _ v).trans helse⟩
    rw [hdata, World.write_store]
    by_cases huv : u = v
    · rw [huv, Finmap.lookup_erase, if_pos List.mem_cons_self, ite_self]
    · simp only [List.mem_cons, huv, false_or]
      rw [Finmap.lookup_erase_ne fun heq => huv (dataKey_inj heq).2]

theorem deleteMetadata_spec (hworks : env.Works) (hmax : 1 ≤ e.maxVer) (hv : e.ValidPath path)
    (hh : e.Holds w.store path o) :
    Yields env.answer (e.deleteMetadata path) w
      (fun _ w' => e.Holds w'.store path none ∧ e.Elsewhere path w.store w'.store)
      (fun _ _ => False) := by
  unfold deleteMetadata
  rw [hv.validatePath]
  refine Yields.bind (Yields.pure (Yields.bind (Act.yields_optional
    ((readMeta_works hworks hmax hv hh).mono ?_ ?_))))
  · rintro m w₁ ⟨rfl, h, rfl, hm⟩
    refine Yields.bind ((deleteVersions_spec hworks hv _).mono ?_ fun _ _ h => h.elim)
    rintro - w₂ ⟨hdata, helse⟩
    refine (hworks.delete hv).mono ?_ fun _ _ h => h
    rintro - w' rfl
    refine ⟨⟨Finmap.lookup_erase _ _, fun v => ?_⟩, helse.trans (Elsewhere.erase_meta _)⟩
    rw [World.write_store, Finmap.lookup_erase_ne (metaKey_ne_dataKey path path v).symm, hdata]
    split_ifs with hmem
    · rfl
    · -- A version that the metadata does not name has no data.
      have hnone : h.version e.maxVer v = none := by
        have hversions := hm.versions v
        rw [Finmap.lookup_eq_none.mpr fun hin => hmem (by simpa [Finmap.mem_keys] using hin)] at hversions
        exact Option.map_eq_none_iff.mp hversions.symm
      show w.store.lookup _ = none
      rw [hh.data, blob, hnone]
      rfl
  · rintro err w' ⟨rfl, ho, rfl⟩
    rw [if_pos (by decide_cbv)]
    subst ho
    exact Yields.pure ⟨hh, Elsewhere.refl _ _⟩

end Engine

end Change

/-! ### Calls -/

namespace Engine

/-- The data that can be encoded. -/
def encodes (e : Engine δ) (data : δ) : Bool := (e.dataJson.marshal data).isSome

/-- What a program that may fail returns as a response. -/
theorem run_response {α : Type} {x : Act α} {ok : α → World → Prop} {err : Err → World → Prop}
    (hx : Yields env.answer x w ok err) (c : Except Err α → Response δ) :
    (∃ a, ((do return c (← x.run) : Prog (Response δ)).run env.answer w).1 = c (.ok a) ∧
      ok a ((do return c (← x.run) : Prog (Response δ)).run env.answer w).2) ∨
    ∃ a, ((do return c (← x.run) : Prog (Response δ)).run env.answer w).1 = c (.error a) ∧
      err a ((do return c (← x.run) : Prog (Response δ)).run env.answer w).2 := by
  unfold Yields Program.exec at hx
  simp only [run_bind]
  rcases hrun : x.run.run env.answer w with ⟨r, w'⟩
  rw [hrun] at hx
  cases r with
  | ok a => exact .inl ⟨a, rfl, hx⟩
  | error a => exact .inr ⟨a, rfl, hx⟩

/-- How a call on a path turns out. -/
structure Does (e : Engine δ) (r : Request δ) (t : Time) (o : Option (History δ)) (w : World)
    (outcome : Response δ × World) : Prop where
  response : outcome.1 = (r.apply e.maxVer e.encodes t o).1
  secret : e.Holds outcome.2.store r.path (r.apply e.maxVer e.encodes t o).2
  elsewhere : e.Elsewhere r.path w.store outcome.2.store

theorem call_change (hh : e.Holds w.store path o) {x : Act Unit} {g : Version δ → Version δ}
    {versions : List Int}
    (hx : Yields env.answer x w
      (fun _ w' => ∃ h, o = some h ∧ e.Keeps w'.store path (h.changeAll e.maxVer g versions) ∧
        e.Elsewhere path w.store w'.store)
      (fun err w' => o = none ∧ err = .kv .secretNotFound ∧ w'.store = w.store)) :
    ((do return .done (← x.run) : Prog (Response δ)).run env.answer w).1
        = (changeSecret e.maxVer o g versions).1 ∧
      e.Holds ((do return .done (← x.run) : Prog (Response δ)).run env.answer w).2.store path
        (changeSecret e.maxVer o g versions).2 ∧
      e.Elsewhere path w.store
        ((do return .done (← x.run) : Prog (Response δ)).run env.answer w).2.store := by
  rcases run_response (c := fun r => (.done r : Response δ)) hx with hok | herr
  · obtain ⟨a, hres, h, rfl, hkeeps, helse⟩ := hok
    exact ⟨hres, hkeeps, helse⟩
  · obtain ⟨err, hres, rfl, rfl, hstore⟩ := herr
    rw [hstore]
    exact ⟨hres, hh, Elsewhere.refl _ _⟩

/-- Data that cannot be encoded is refused, and nothing is stored. -/
theorem write_unencoded (hmax : 1 ≤ e.maxVer) (hv : e.ValidPath path) (hh : e.Holds w.store path o)
    {data : δ} (hnone : e.dataJson.marshal data = none) :
    Yields env.answer (e.write path data) w (fun _ _ => False)
      (fun err w' => w'.store = w.store ∧ (err = .wrap "kv: marshal data" .outside ∨
        env.fails w.tick (.get (e.metaKey path)) = true)) := by
  unfold write
  rw [hv.validatePath]
  refine Yields.bind (Yields.pure (Yields.bind ((loadMeta_spec hmax hv hh).mono ?_ ?_)))
  · rintro m w₁ ⟨rfl, -⟩
    refine Yields.bind (Act.now_spec.mono ?_ fun _ _ h => h.elim)
    rintro now w₂ ⟨rfl, rfl⟩
    dsimp only
    rw [hnone]
    exact Yields.throw ⟨rfl, .inl rfl⟩
  · rintro err w' ⟨rfl, hf⟩
    exact ⟨rfl, .inr hf⟩

/-- Over storage that works, a write is not cut short. -/
theorem Cut.not_works {blob : Bytes} {w' : World} (hcut : e.Cut env path h blob w w') (hworks : env.Works)
    {p : Prop} : p := by
  cases hcut with
  | early _ hf => exact hf.elim hworks.elim hworks.elim
  | aging _ _ hf => exact hworks.elim hf
  | saving _ _ _ hf => exact hworks.elim hf
  | lost _ _ _ _ _ _ hf => exact hworks.elim hf

/-- **Every call returns what the map returns, and leaves what the map says is stored.** -/
theorem call_spec (hworks : env.Works) (hmax : 1 ≤ e.maxVer) (r : Request δ) (hv : e.ValidPath r.path)
    (hh : e.Holds w.store r.path o) :
    e.Does r (env.clock (w.tick + 1)) o w ((e.call r).run env.answer w) := by
  cases r with
  | write path data =>
    have hv : e.ValidPath path := hv
    cases hblob : e.dataJson.marshal data with
    | some blob =>
      have hencodes : e.encodes data = true := by simp [encodes, hblob]
      rcases run_response (write_spec hmax hv hh hblob) .wrote with
        ⟨vm, hres, rfl, hkeeps, helse, -⟩ | ⟨err, -, hcut⟩
      · refine ⟨hres.trans ?_, ?_, helse⟩
        · simp [Request.apply, hencodes]
        · simp only [Request.apply, hencodes, if_true]
          exact hkeeps
      · exact hcut.not_works hworks
    | none =>
      have hencodes : e.encodes data = false := by simp [encodes, hblob]
      rcases run_response (write_unencoded hmax hv hh hblob) .wrote with
        ⟨vm, -, hfalse⟩ | ⟨err, hres, hstore, rfl | hf⟩
      · exact hfalse.elim
      · refine ⟨hres.trans ?_, ?_, ?_⟩
        · simp [Request.apply, hencodes]
        · simp only [Request.apply, hencodes]
          exact hstore ▸ hh
        · exact hstore ▸ Elsewhere.refl _ _
      · exact hworks.elim hf
  | read path version =>
    have hv : e.ValidPath path := hv
    cases o with
    | none =>
      have hmeta := exec_readExistingMeta_none hworks hv hh.1
      unfold Program.exec at hmeta
      have hrun : (e.call (.read path version)).run env.answer w
          = (.read (.error (.kv .secretNotFound)) none, w.next) := by
        simp only [call, read, run_bind, hmeta]
        rfl
      rw [hrun]
      exact ⟨rfl, hh, Elsewhere.refl _ _⟩
    | some h =>
      obtain ⟨m, hm, hdescribes⟩ := hh.metadata
      obtain ⟨hres, hstore⟩ := run_read hworks hv
        (by rw [hdescribes.maximum]; omega) hm version
      have hdata : (fun v => w.store.lookup (e.dataKey path v)) = e.blob h := funext hh.data
      rw [hdata, response_eq hh.encodes hdescribes] at hres
      refine ⟨hres, ?_, ?_⟩
      · rw [hstore]
        exact hh
      · rw [hstore]
        exact Elsewhere.refl _ _
  | delete path versions =>
    have hv : e.ValidPath path := hv
    have hspec := mutateVersions_spec (g := Version.delete)
      (f := fun vm => if vm.destroyed then vm else { vm with deleted := true }) hworks hmax hv hh
      (fun x v => by by_cases hx : x.destroyed = true <;> simp [Version.info, Version.delete, hx])
      (fun x => by by_cases hx : x.destroyed = true <;> simp [Version.delete, hx]) versions
    obtain ⟨hres, hholds, helse⟩ := call_change hh hspec
    exact ⟨hres, hholds, helse⟩
  | undelete path versions =>
    have hv : e.ValidPath path := hv
    have hspec := mutateVersions_spec (g := Version.undelete)
      (f := fun vm => if vm.destroyed then vm else { vm with deleted := false }) hworks hmax hv hh
      (fun x v => by by_cases hx : x.destroyed = true <;> simp [Version.info, Version.undelete, hx])
      (fun x => by by_cases hx : x.destroyed = true <;> simp [Version.undelete, hx]) versions
    obtain ⟨hres, hholds, helse⟩ := call_change hh hspec
    exact ⟨hres, hholds, helse⟩
  | destroy path versions =>
    obtain ⟨hres, hholds, helse⟩ := call_change hh (destroy_spec hworks hmax hv hh versions)
    exact ⟨hres, hholds, helse⟩
  | deleteMetadata path =>
    rcases run_response (deleteMetadata_spec hworks hmax hv hh) .done with
      ⟨a, hres, hholds, helse⟩ | ⟨err, -, hfalse⟩
    · exact ⟨hres, hholds, helse⟩
    · exact hfalse.elim

/-! ### Runs -/

/-- Calls one after another. -/
def run (e : Engine δ) (env : Env) : List (Request δ) → World → List (Response δ) × World
  | [], w => ([], w)
  | r :: rest, w =>
    let (response, w') := (e.call r).run env.answer w
    let (responses, w'') := run e env rest w'
    (response :: responses, w'')

/-- What is stored is what the map holds. -/
def Represents (e : Engine δ) (s : Store) (V : Vault δ) : Prop := ∀ path, e.Holds s path (V path)

theorem Represents.call {V : Vault δ} (hV : e.Represents w.store V) (hworks : env.Works)
    (hmax : 1 ≤ e.maxVer) (r : Request δ) (hv : e.ValidPath r.path) :
    ((e.call r).run env.answer w).1 = (V.step e.maxVer e.encodes (env.clock (w.tick + 1)) r).1 ∧
      e.Represents ((e.call r).run env.answer w).2.store
        (V.step e.maxVer e.encodes (env.clock (w.tick + 1)) r).2 := by
  obtain ⟨hres, hholds, helse⟩ := call_spec hworks hmax r hv (hV r.path)
  refine ⟨hres, fun q => ?_⟩
  by_cases hq : q = r.path
  · subst hq
    simpa [Vault.step] using hholds
  · simpa [Vault.step, hq] using (hV q).elsewhere helse hq

/-- A run of the engine is a run of the map. -/
theorem Represents.run (hworks : env.Works) (hmax : 1 ≤ e.maxVer) (requests : List (Request δ)) :
    ∀ {w : World} {V : Vault δ}, e.Represents w.store V → (∀ r ∈ requests, e.ValidPath r.path) →
      ∃ times : List Time, times.length = requests.length ∧
        (e.run env requests w).1 = (V.run e.maxVer e.encodes (requests.zip times)).1 ∧
        e.Represents (e.run env requests w).2.store (V.run e.maxVer e.encodes (requests.zip times)).2 := by
  induction requests with
  | nil => exact fun hV _ => ⟨[], rfl, rfl, hV⟩
  | cons r rest ih =>
    intro w V hV hvalid
    obtain ⟨hres, hnext⟩ := hV.call hworks hmax r (hvalid r List.mem_cons_self)
    obtain ⟨times, hlength, hrest, hfinal⟩ := ih hnext fun r' hr' => hvalid r' (List.mem_cons_of_mem _ hr')
    refine ⟨env.clock (w.tick + 1) :: times, by rw [List.length_cons, List.length_cons, hlength], ?_, hfinal⟩
    rw [Engine.run, List.zip_cons_cons, Vault.run]
    dsimp only
    rw [hres, hrest]

end Engine

end UbixVault.Kv
