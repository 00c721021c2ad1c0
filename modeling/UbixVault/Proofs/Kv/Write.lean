/-
The key/value engine keeps a map of secrets with versions.

What is stored for a path is determined by the path's history: the metadata tells the
versions that are retained, and the data of each stands under its own key unless it
was destroyed.  A call reads and writes keys of its own path only, and paths have no
key in common, whatever their segments look like.
-/
import UbixVault.Versioned
import UbixVault.Proofs.Basic
import UbixVault.Proofs.Outside

namespace UbixVault.Kv

open Program

variable {δ : Type} {e : Engine δ}

variable {path : Bytes}

/-! ### Keys -/

namespace Engine

theorem metaKey_eq (path : Bytes) :
    e.metaKey path = e.pfx ++ slash :: (str "meta" ++ slash :: path) := by
  have hstr : str "/meta/" = slash :: (str "meta" ++ [slash]) := by decide_cbv
  simp [metaKey, hstr]

theorem dataKey_eq (path : Bytes) (v : Int) :
    e.dataKey path v = (e.pfx ++ slash :: (str "data" ++ slash :: path)) ++ slash :: itoa v := by
  have hstr : str "/data/" = slash :: (str "data" ++ [slash]) := by decide_cbv
  have hslash : str "/" = [slash] := by decide_cbv
  simp [dataKey, hstr, hslash]

theorem metaKey_inj {p q : Bytes} (h : e.metaKey p = e.metaKey q) : p = q :=
  List.append_cancel_left h

theorem dataKey_inj {p q : Bytes} {v u : Int} (h : e.dataKey p v = e.dataKey q u) : p = q ∧ v = u := by
  rw [dataKey_eq, dataKey_eq] at h
  obtain ⟨hpath, hv⟩ := append_slash_inj (slash_notMem_itoa v) (slash_notMem_itoa u) h
  refine ⟨?_, itoa_injective hv⟩
  have hrest := List.cons_inj_right _ |>.mp (List.append_cancel_left hpath)
  exact List.cons_inj_right _ |>.mp (List.append_cancel_left hrest)

theorem metaKey_ne_dataKey (p q : Bytes) (v : Int) : e.metaKey p ≠ e.dataKey q v := by
  intro h
  rw [metaKey_eq, dataKey_eq, List.append_assoc] at h
  have hrest := congrArg (List.take 5) (List.append_cancel_left h)
  have hmeta : List.take 5 (slash :: (str "meta" ++ slash :: p)) = slash :: str "meta" := by
    rw [List.take_succ_cons, List.take_left' (by decide_cbv)]
  have hdata : List.take 5 (slash :: (str "data" ++ slash :: q) ++ slash :: itoa v)
      = slash :: str "data" := by
    rw [List.cons_append, List.append_assoc, List.take_succ_cons, List.take_left' (by decide_cbv)]
  rw [hmeta, hdata] at hrest
  exact absurd hrest (by decide_cbv)

/-- The paths that the engine accepts. -/
def ValidPath (e : Engine δ) (path : Bytes) : Prop := validKey (e.metaKey path) = true

theorem ValidPath.dataKey (h : e.ValidPath path) (v : Int) :
    validKey (e.dataKey path v) = true := by
  have hdata : validKey (str "data") = true := by decide_cbv
  rw [ValidPath, metaKey_eq, validKey_append_slash, validKey_append_slash] at h
  simp only [Bool.and_eq_true] at h
  rw [dataKey_eq, validKey_append_slash, validKey_append_slash, validKey_append_slash, h.1, h.2.2, hdata,
    validKey_itoa]
  rfl

theorem ValidPath.validatePath (h : e.ValidPath path) : e.validatePath path = pure () := by
  have hne : path ≠ [] := by
    rintro rfl
    rw [ValidPath, metaKey_eq, validKey_append_slash, validKey_append_slash] at h
    simp [validKey] at h
  have haccepts : validKey (e.metaKey path) = true := h
  rw [Engine.validatePath, if_neg hne, if_pos haccepts]

/-- Nothing but keys of the path differs. -/
def Elsewhere (e : Engine δ) (path : Bytes) (s s' : Store) : Prop :=
  ∀ key, key ≠ e.metaKey path → (∀ v, key ≠ e.dataKey path v) → s'.lookup key = s.lookup key

theorem Elsewhere.refl (path : Bytes) (s : Store) : e.Elsewhere path s s := fun _ _ _ => rfl

theorem Elsewhere.trans {s s' s'' : Store} (h : e.Elsewhere path s s')
    (h' : e.Elsewhere path s' s'') : e.Elsewhere path s s'' :=
  fun key hmeta hdata => (h' key hmeta hdata).trans (h key hmeta hdata)

theorem Elsewhere.insert_meta (s : Store) (blob : Bytes) :
    e.Elsewhere path s (s.insert (e.metaKey path) blob) := fun _ hmeta _ =>
  Finmap.lookup_insert_of_ne _ hmeta

theorem Elsewhere.insert_data (s : Store) (v : Int) (blob : Bytes) :
    e.Elsewhere path s (s.insert (e.dataKey path v) blob) := fun _ _ hdata =>
  Finmap.lookup_insert_of_ne _ (hdata v)

theorem Elsewhere.erase_data (s : Store) (v : Int) :
    e.Elsewhere path s (s.erase (e.dataKey path v)) := fun _ _ hdata => Finmap.lookup_erase_ne (hdata v)

theorem Elsewhere.erase_meta (s : Store) :
    e.Elsewhere path s (s.erase (e.metaKey path)) := fun _ hmeta _ => Finmap.lookup_erase_ne hmeta

end Engine

/-! ### Histories -/

namespace History

variable {max : Int} {h : History δ} {x : Version δ} {v : Int}

theorem version_of_retains (hv : Retains max h v) : ∃ x, version max h v = some x ∧ x ∈ h := by
  have hlt : (v - 1).toNat < h.length := by
    obtain ⟨hpos, hle, -⟩ := hv
    omega
  refine ⟨h[(v - 1).toNat], ?_, List.getElem_mem hlt⟩
  rw [version, if_pos hv, List.getElem?_eq_getElem hlt]

theorem retains_of_version (hx : version max h v = some x) : Retains max h v := by
  unfold version at hx
  split_ifs at hx with hv
  exact hv

theorem mem_of_version (hx : version max h v = some x) : x ∈ h := by
  unfold version at hx
  split_ifs at hx
  exact List.mem_of_getElem? hx

/-- A version is added, and the one before the last `max` is given up. -/
theorem version_append (hmax : 1 ≤ max) :
    version max (h ++ [x]) v = if v = h.length + 1 then some x
      else if v = h.length + 1 - max then none else version max h v := by
  have hretains : ∀ v, Retains max (h ++ [x]) v ↔
      1 ≤ v ∧ v ≤ h.length + 1 ∧ h.length + 1 < v + max := by
    intro v
    unfold Retains
    rw [List.length_append, List.length_singleton, Nat.cast_add, Nat.cast_one]
  by_cases hlast : v = h.length + 1
  · subst hlast
    rw [if_pos rfl, version, if_pos ((hretains _).mpr (by omega)),
      show ((h.length : Int) + 1 - 1).toNat = h.length by omega,
      List.getElem?_append_right (Nat.le_refl _), Nat.sub_self]
    rfl
  · rw [if_neg hlast]
    by_cases hout : v = h.length + 1 - max
    · rw [if_pos hout, version, if_neg]
      rw [hretains]
      omega
    · rw [if_neg hout, version, version]
      by_cases hv : Retains max h v
      · have hv' := hv
        unfold Retains at hv'
        rw [if_pos ((hretains v).mpr (by omega)), if_pos hv, List.getElem?_append_left (by omega)]
      · have hv' := hv
        unfold Retains at hv'
        rw [if_neg hv, if_neg]
        rw [hretains]
        omega

theorem length_change (f : Version δ → Version δ) : (change max h f v).length = h.length := by
  unfold change
  split_ifs
  · exact List.length_modify ..
  · rfl

theorem version_change (f : Version δ → Version δ) (u : Int) :
    version max (change max h f v) u = if u = v then (version max h v).map f else version max h u := by
  have hretains : ∀ u, Retains max (change max h f v) u ↔ Retains max h u := by
    intro u
    unfold Retains
    rw [length_change]
  by_cases hv : Retains max h v
  · have hchange : change max h f v = h.modify (v - 1).toNat f := if_pos hv
    by_cases huv : u = v
    · subst huv
      rw [if_pos rfl, version, if_pos ((hretains u).mpr hv), version, if_pos hv, hchange,
        List.getElem?_modify_eq]
      rfl
    · rw [if_neg huv, version, version]
      by_cases hu : Retains max h u
      · rw [if_pos ((hretains u).mpr hu), if_pos hu, hchange, List.getElem?_modify_ne]
        intro heq
        obtain ⟨hpos, -, -⟩ := hv
        obtain ⟨hpos', -, -⟩ := hu
        omega
      · rw [if_neg fun hu' => hu ((hretains u).mp hu'), if_neg hu]
  · have hchange : change max h f v = h := if_neg hv
    have hnone : version max h v = none := if_neg hv
    rw [hchange, hnone, Option.map_none]
    split_ifs with huv
    · rw [huv, hnone]
    · rfl

/-- Every version of the changed history was one before, or is one that was changed. -/
theorem mem_change {f : Version δ → Version δ} {y : Version δ} (hy : y ∈ change max h f v) :
    ∃ x ∈ h, y = x ∨ y = f x := by
  unfold change at hy
  split_ifs at hy
  · obtain ⟨k, hk, rfl⟩ := List.mem_iff_getElem.mp hy
    rw [List.length_modify] at hk
    refine ⟨h[k], List.getElem_mem hk, ?_⟩
    rw [List.getElem_modify]
    split_ifs
    · exact .inr rfl
    · exact .inl rfl
  · exact ⟨y, hy, .inl rfl⟩

end History

/-! ### What is stored for a history -/

/-- The metadata of a history. -/
structure Metadata.Describes (m : Metadata) (max : Int) (h : History δ) : Prop where
  current : m.currentVersion = h.length
  oldest : m.oldestVersion = h.oldest max
  maximum : m.maxVersions = max
  versions : ∀ v, m.versions.lookup v = (h.version max v).map (·.info v)

namespace Engine

/-- The data that is stored for a version: none if it is destroyed or not retained. -/
def blob (e : Engine δ) (h : History δ) (v : Int) : Option Bytes :=
  (h.version e.maxVer v).bind fun x => if x.destroyed then none else e.dataJson.marshal x.data

/-- What is stored for a path that has a secret. -/
structure Keeps (e : Engine δ) (s : Store) (path : Bytes) (h : History δ) : Prop where
  written : h ≠ []
  encodes : ∀ x ∈ h, (e.dataJson.marshal x.data).isSome = true
  metadata : ∃ m, s.lookup (e.metaKey path) = some (e.metaJson.marshal m) ∧ m.Describes e.maxVer h
  data : ∀ v, s.lookup (e.dataKey path v) = e.blob h v

/-- What is stored for a path. -/
def Holds (e : Engine δ) (s : Store) (path : Bytes) : Option (History δ) → Prop
  | none => s.lookup (e.metaKey path) = none ∧ ∀ v, s.lookup (e.dataKey path v) = none
  | some h => e.Keeps s path h

variable {env : Env} {w : World} {s s' : Store} {path q : Bytes} {o : Option (History δ)}
  {h : History δ} {m : Metadata} {x : Version δ} {v : Int}

/-- Other paths keep what is stored for them. -/
theorem Holds.elsewhere (hq : e.Holds s q o) (helse : e.Elsewhere path s s') (hne : q ≠ path) :
    e.Holds s' q o := by
  have hmeta : s'.lookup (e.metaKey q) = s.lookup (e.metaKey q) :=
    helse _ (fun heq => hne (metaKey_inj heq)) (metaKey_ne_dataKey q path)
  have hdata : ∀ v, s'.lookup (e.dataKey q v) = s.lookup (e.dataKey q v) := fun v =>
    helse _ (metaKey_ne_dataKey path q v).symm fun u heq => hne (dataKey_inj heq).1
  cases o with
  | none => exact ⟨hmeta.trans hq.1, fun v => (hdata v).trans (hq.2 v)⟩
  | some h =>
    obtain ⟨hwritten, hencodes, ⟨m, hm, hdescribes⟩, hblob⟩ := hq
    exact ⟨hwritten, hencodes, ⟨m, hmeta.trans hm, hdescribes⟩, fun v => (hdata v).trans (hblob v)⟩

/-- A secret is kept once its metadata is saved. -/
theorem Keeps.save (hwritten : h ≠ []) (hencodes : ∀ x ∈ h, (e.dataJson.marshal x.data).isSome = true)
    (hm : m.Describes e.maxVer h) (hdata : ∀ v, s.lookup (e.dataKey path v) = e.blob h v) :
    e.Keeps (s.insert (e.metaKey path) (e.metaJson.marshal m)) path h where
  written := hwritten
  encodes := hencodes
  metadata := ⟨m, Finmap.lookup_insert _, hm⟩
  data v := by
    rw [Finmap.lookup_insert_of_ne _ (metaKey_ne_dataKey path path v).symm]
    exact hdata v

/-! ### Metadata records -/

theorem readExistingMeta_spec (hmax : 1 ≤ e.maxVer) (hv : e.ValidPath path)
    (hh : e.Holds w.store path o) :
    Yields env.answer (e.readExistingMeta path) w
      (fun m w' => w' = w.next ∧ env.fails w.tick (.get (e.metaKey path)) = false ∧
        ∃ h, o = some h ∧ m.Describes e.maxVer h)
      (fun err w' => w' = w.next ∧
        (o = none ∧ err = .kv .secretNotFound ∧ env.fails w.tick (.get (e.metaKey path)) = false ∨
        err.is (.kv .secretNotFound) = false ∧ env.fails w.tick (.get (e.metaKey path)) = true)) := by
  unfold readExistingMeta
  refine Yields.bind (Act.yields_context ((Act.get_exact hv).mono ?_ ?_))
  · rintro r w' ⟨rfl, rfl, hf⟩
    cases o with
    | none =>
      rw [hh.1]
      exact Yields.throw ⟨rfl, .inl ⟨rfl, rfl, hf⟩⟩
    | some h =>
      obtain ⟨m, hm, hdescribes⟩ := hh.metadata
      rw [hm]
      dsimp only
      rw [e.metaJson.unmarshal_marshal m trivial]
      refine Yields.pure ⟨rfl, hf, h, rfl, ?_⟩
      rw [if_neg (by rw [hdescribes.maximum]; omega)]
      exact hdescribes
  · rintro err w' ⟨rfl, rfl, hf⟩
    exact ⟨rfl, .inr ⟨by decide_cbv, hf⟩⟩

/-- What `Write` goes on from: the metadata there is, or that of a new secret. -/
theorem loadMeta_spec (hmax : 1 ≤ e.maxVer) (hv : e.ValidPath path) (hh : e.Holds w.store path o) :
    Yields env.answer (e.loadMeta path) w
      (fun m w' => w' = w.next ∧ env.fails w.tick (.get (e.metaKey path)) = false ∧
        (o = none ∧ m = e.fresh ∨ ∃ h, o = some h ∧ m.Describes e.maxVer h))
      (fun _ w' => w' = w.next ∧ env.fails w.tick (.get (e.metaKey path)) = true) := by
  unfold loadMeta
  refine Yields.bind (Act.yields_optional ((readExistingMeta_spec hmax hv hh).mono ?_ ?_))
  · rintro m w' ⟨rfl, hf, hm⟩
    exact Yields.pure ⟨rfl, hf, .inr hm⟩
  · rintro err w' ⟨rfl, ⟨ho, rfl, hf⟩ | ⟨hother, hf⟩⟩
    · rw [if_pos (by decide_cbv)]
      exact Yields.pure ⟨rfl, hf, .inl ⟨ho, rfl⟩⟩
    · rw [if_neg (by rw [hother]; exact Bool.false_ne_true)]
      exact ⟨rfl, hf⟩

/-! ### Writing -/

/-- The history of a path, empty if there is none. -/
abbrev past (o : Option (History δ)) : History δ := o.getD []

theorem oldest_of_lt (hlt : (h.length : Int) < e.maxVer) :
    h.oldest e.maxVer = 1 := by
  unfold History.oldest
  omega

theorem oldest_of_ge (hge : e.maxVer ≤ h.length) : h.oldest e.maxVer = h.length - e.maxVer + 1 := by
  unfold History.oldest
  omega

/-- What holds of the metadata that a write starts from. -/
structure Starts (e : Engine δ) (m : Metadata) (h : History δ) : Prop where
  current : m.currentVersion = h.length
  oldest : h = [] ∧ m.oldestVersion = 0 ∨ h ≠ [] ∧ m.oldestVersion = h.oldest e.maxVer
  maximum : m.maxVersions = e.maxVer
  versions : ∀ v, m.versions.lookup v = (h.version e.maxVer v).map (·.info v)

theorem starts_of_load (hh : e.Holds s path o)
    (hm : o = none ∧ m = e.fresh ∨ ∃ h, o = some h ∧ m.Describes e.maxVer h) :
    e.Starts m (past o) := by
  rcases hm with ⟨rfl, rfl⟩ | ⟨h, rfl, hdescribes⟩
  · refine ⟨rfl, .inl ⟨rfl, rfl⟩, rfl, fun v => ?_⟩
    have hnone : History.version e.maxVer (past (none : Option (History δ))) v = none := by
      unfold History.version
      split_ifs <;> rfl
    rw [hnone]
    exact Finmap.lookup_empty v
  · exact ⟨hdescribes.current, .inr ⟨hh.written, hdescribes.oldest⟩, hdescribes.maximum,
      hdescribes.versions⟩

/-- The metadata with one version more, before any is dropped. -/
theorem Starts.add (hm : e.Starts m h) (hmax : 1 ≤ e.maxVer) (x : Version δ) :
    (m.add (x.info (h.length + 1))).oldestVersion = h.oldest e.maxVer ∧
    ∀ v, (m.add (x.info (h.length + 1))).versions.lookup v =
      if v = h.length + 1 then some (x.info v) else (h.version e.maxVer v).map (·.info v) := by
  constructor
  · rcases hm.oldest with ⟨rfl, hzero⟩ | ⟨hne, hold⟩
    · simp only [Metadata.add, hzero, if_true]
      rw [oldest_of_lt (by rw [List.length_nil]; omega)]
      rfl
    · have hpos : h.oldest e.maxVer ≠ 0 := by
        unfold History.oldest
        omega
      simp only [Metadata.add, hold, if_neg hpos]
  · intro v
    by_cases hlast : v = h.length + 1
    · subst hlast
      rw [if_pos rfl]
      exact Finmap.lookup_insert _
    · rw [if_neg hlast, ← hm.versions v]
      exact Finmap.lookup_insert_of_ne _ hlast

/-- How a write that fails leaves the storage. -/
inductive Cut (e : Engine δ) (env : Env) (path : Bytes) (h : History δ) (blob : Bytes) (w w' : World) : Prop
  | early (hstore : w'.store = w.store)
      (hfails : env.fails w.tick (.get (e.metaKey path)) = true ∨
        env.fails (w.tick + 2) (.put (e.dataKey path (h.length + 1)) blob) = true)
  | aging (hfull : e.maxVer ≤ h.length)
      (hstore : w'.store = w.store.insert (e.dataKey path (h.length + 1)) blob)
      (hfails : env.fails (w.tick + 3) (.delete (e.dataKey path (h.oldest e.maxVer))) = true)
  | saving (hroom : (h.length : Int) < e.maxVer) (value : Bytes)
      (hstore : w'.store = w.store.insert (e.dataKey path (h.length + 1)) blob)
      (hfails : env.fails (w.tick + 3) (.put (e.metaKey path) value) = true)
  /-- The oldest version is gone, but the metadata still names it. -/
  | lost (hfull : e.maxVer ≤ h.length) (value : Bytes)
      (hstore : w'.store = (w.store.insert (e.dataKey path (h.length + 1)) blob).erase
        (e.dataKey path (h.oldest e.maxVer)))
      (hget : env.fails w.tick (.get (e.metaKey path)) = false)
      (hput : env.fails (w.tick + 2) (.put (e.dataKey path (h.length + 1)) blob) = false)
      (hdelete : env.fails (w.tick + 3) (.delete (e.dataKey path (h.oldest e.maxVer))) = false)
      (hfails : env.fails (w.tick + 4) (.put (e.metaKey path) value) = true)

/-- Nothing is dropped as long as there is room. -/
theorem enforceMaxVersions_of_lt (hcurrent : m.currentVersion = h.length + 1)
    (hold : m.oldestVersion = h.oldest e.maxVer) (hmaximum : m.maxVersions = e.maxVer)
    (hroom : (h.length : Int) < e.maxVer) : e.enforceMaxVersions path m = pure m := by
  rw [enforceMaxVersions, dif_neg]
  rw [hcurrent, hold, hmaximum, oldest_of_lt hroom]
  omega

/-- The oldest version is dropped when there is none. -/
theorem enforceMaxVersions_of_ge (hcurrent : m.currentVersion = h.length + 1)
    (hold : m.oldestVersion = h.oldest e.maxVer) (hmaximum : m.maxVersions = e.maxVer)
    (hfull : e.maxVer ≤ h.length) :
    e.enforceMaxVersions path m = (do
      (Act.delete (e.dataKey path (h.oldest e.maxVer))).context
        s!"kv: age out version {m.oldestVersion}"
      pure m.ageOut) := by
  have hover : m.currentVersion - m.oldestVersion + 1 > m.maxVersions := by
    rw [hcurrent, hold, hmaximum, oldest_of_ge hfull]
    omega
  have hdone : ¬ m.ageOut.currentVersion - m.ageOut.oldestVersion + 1 > m.ageOut.maxVersions := by
    simp only [Metadata.ageOut]
    rw [hcurrent, hold, hmaximum, oldest_of_ge hfull]
    omega
  rw [enforceMaxVersions, dif_pos hover, enforceMaxVersions, dif_neg hdone, hold]

/-- The metadata that is saved, if nothing had to be dropped. -/
theorem Starts.describes_of_lt (hm : e.Starts m h) (hmax : 1 ≤ e.maxVer) (x : Version δ)
    (hroom : (h.length : Int) < e.maxVer) :
    (m.add (x.info (h.length + 1))).Describes e.maxVer (h ++ [x]) := by
  obtain ⟨hold, hversions⟩ := hm.add hmax x
  have hlength : ((h ++ [x]).length : Int) = h.length + 1 := by simp
  refine ⟨hlength.symm, ?_, hm.maximum, fun v => ?_⟩
  · rw [hold, oldest_of_lt hroom]
    unfold History.oldest
    omega
  · rw [hversions, History.version_append hmax]
    split_ifs with hlast hout
    · rfl
    · -- The number that would be dropped is none yet.
      have hnone : h.version e.maxVer v = none := if_neg fun hv => by
        obtain ⟨hpos, -, -⟩ := hv
        omega
      rw [hnone]
    · rfl

/-- The metadata that is saved, if the oldest version was dropped. -/
theorem Starts.describes_of_ge (hm : e.Starts m h) (hmax : 1 ≤ e.maxVer) (x : Version δ)
    (hfull : e.maxVer ≤ h.length) :
    (m.add (x.info (h.length + 1))).ageOut.Describes e.maxVer (h ++ [x]) := by
  obtain ⟨hold, hversions⟩ := hm.add hmax x
  have hlength : ((h ++ [x]).length : Int) = h.length + 1 := by simp
  refine ⟨hlength.symm, ?_, hm.maximum, fun v => ?_⟩
  · show (m.add (x.info (h.length + 1))).oldestVersion + 1 = _
    rw [hold, oldest_of_ge hfull]
    unfold History.oldest
    omega
  · show ((m.add (x.info (h.length + 1))).versions.erase _).lookup v = _
    rw [hold, oldest_of_ge hfull, History.version_append hmax]
    by_cases hout : v = h.length - e.maxVer + 1
    · rw [if_neg (by omega), if_pos (by omega), hout]
      exact Finmap.lookup_erase _ _
    · rw [Finmap.lookup_erase_ne hout, hversions, if_neg (c := v = h.length + 1 - e.maxVer) (by omega)]
      split_ifs <;> rfl

/-- What is stored once a version is written, and the oldest dropped if there was no room. -/
theorem blob_append (hmax : 1 ≤ e.maxVer) (hx : x.destroyed = false) (v : Int) :
    e.blob (h ++ [x]) v = if v = h.length + 1 then e.dataJson.marshal x.data
      else if v = h.length + 1 - e.maxVer then none else e.blob h v := by
  unfold blob
  rw [History.version_append hmax]
  split_ifs
  · simp [hx]
  · rfl
  · rfl

theorem encodes_append {blob : Bytes} (hencodes : ∀ y ∈ h, (e.dataJson.marshal y.data).isSome = true)
    (hblob : e.dataJson.marshal x.data = some blob) :
    ∀ y ∈ h ++ [x], (e.dataJson.marshal y.data).isSome = true := by
  intro y hy
  rcases List.mem_append.mp hy with hy | hy
  · exact hencodes y hy
  · rw [List.mem_singleton.mp hy, hblob]
    rfl

section Written

variable {blob : Bytes} (hmax : 1 ≤ e.maxVer) (hm : e.Starts m h) (hx : x.destroyed = false)
  (hencodes : ∀ y ∈ h, (e.dataJson.marshal y.data).isSome = true)
  (hdata : ∀ v, s.lookup (e.dataKey path v) = e.blob h v) (hblob : e.dataJson.marshal x.data = some blob)
include hmax hm hx hencodes hdata hblob

/-- A version is written, and there was room for it. -/
theorem Keeps.write_of_lt (hroom : (h.length : Int) < e.maxVer) :
    e.Keeps ((s.insert (e.dataKey path (h.length + 1)) blob).insert (e.metaKey path)
      (e.metaJson.marshal (m.add (x.info (h.length + 1))))) path (h ++ [x]) := by
  refine .save (by simp) (encodes_append hencodes hblob)
    (hm.describes_of_lt hmax x hroom) fun v => ?_
  rw [blob_append hmax hx]
  split_ifs with hlast hout
  · rw [hlast, hblob]
    exact Finmap.lookup_insert _
  · have hnone : h.version e.maxVer v = none := if_neg fun hv => by
      obtain ⟨hpos, -, -⟩ := hv
      omega
    rw [Finmap.lookup_insert_of_ne _ fun heq => hlast (dataKey_inj heq).2, hdata, Engine.blob, hnone]
    rfl
  · rw [Finmap.lookup_insert_of_ne _ fun heq => hlast (dataKey_inj heq).2, hdata]

/-- A version is written, and the oldest is dropped. -/
theorem Keeps.write_of_ge (hfull : e.maxVer ≤ h.length) :
    e.Keeps (((s.insert (e.dataKey path (h.length + 1)) blob).erase
      (e.dataKey path (h.oldest e.maxVer))).insert (e.metaKey path)
        (e.metaJson.marshal (m.add (x.info (h.length + 1))).ageOut)) path (h ++ [x]) := by
  refine .save (by simp) (encodes_append hencodes hblob)
    (hm.describes_of_ge hmax x hfull) fun v => ?_
  rw [blob_append hmax hx, oldest_of_ge hfull]
  by_cases hout : v = h.length - e.maxVer + 1
  · rw [if_neg (by omega), if_pos (by omega), hout]
    exact Finmap.lookup_erase _ _
  · rw [Finmap.lookup_erase_ne fun heq => hout (dataKey_inj heq).2,
      if_neg (c := v = h.length + 1 - e.maxVer) (by omega)]
    split_ifs with hlast
    · rw [hlast, hblob]
      exact Finmap.lookup_insert _
    · rw [Finmap.lookup_insert_of_ne _ fun heq => hlast (dataKey_inj heq).2, hdata]

end Written

/-- What is stored for the past of a path. -/
theorem Holds.past (hh : e.Holds s path o) :
    (∀ y ∈ past o, (e.dataJson.marshal y.data).isSome = true) ∧
    ∀ v, s.lookup (e.dataKey path v) = e.blob (past o) v := by
  cases o with
  | some h => exact ⟨hh.encodes, hh.data⟩
  | none =>
    refine ⟨by nofun, fun v => ?_⟩
    rw [hh.2 v]
    unfold Engine.blob History.version
    split_ifs <;> rfl

theorem write_spec (hmax : 1 ≤ e.maxVer) (hv : e.ValidPath path) (hh : e.Holds w.store path o)
    {data : δ} {blob : Bytes} (hblob : e.dataJson.marshal data = some blob) :
    Yields env.answer (e.write path data) w
      (fun vm w' => vm = ⟨(past o).length + 1, env.clock (w.tick + 1), false, false⟩ ∧
        e.Keeps w'.store path (past o ++ [⟨data, env.clock (w.tick + 1), false, false⟩]) ∧
        e.Elsewhere path w.store w'.store ∧
        ∃ n value, env.fails n (.put (e.metaKey path) value) = false)
      (fun _ w' => e.Cut env path (past o) blob w w') := by
  obtain ⟨hencodes, hdata⟩ := hh.past
  unfold write
  rw [hv.validatePath]
  refine Yields.bind (Yields.pure ?_)
  refine Yields.bind ((loadMeta_spec hmax hv hh).mono ?_ ?_)
  swap
  · rintro err w' ⟨rfl, hf⟩
    exact .early rfl (.inl hf)
  rintro m w₁ ⟨rfl, hget, hm⟩
  have hstarts := starts_of_load hh hm
  refine Yields.bind (Act.now_spec.mono ?_ fun _ _ h => h.elim)
  rintro now w₂ ⟨rfl, rfl⟩
  dsimp only
  rw [hblob, hstarts.current]
  refine Yields.bind (Act.yields_context ((Act.put_exact (hv.dataKey _)).mono ?_ ?_))
  swap
  · rintro err w' ⟨rfl, hf⟩
    exact .early rfl (.inr hf)
  rintro - w₃ ⟨rfl, hput⟩
  -- The metadata tells what the new version is.
  obtain ⟨x, hxdata, hxinfo⟩ : ∃ x : Version δ, x = ⟨data, env.clock (w.tick + 1), false, false⟩ ∧
      (⟨(past o).length + 1, env.clock w.next.tick, false, false⟩ : VersionMeta)
        = x.info ((past o).length + 1) := ⟨_, rfl, rfl⟩
  have hx : x.destroyed = false := by rw [hxdata]
  have hblob' : e.dataJson.marshal x.data = some blob := by rw [hxdata, hblob]
  obtain ⟨hold, -⟩ := hstarts.add hmax x
  rw [hxinfo, ← hxdata]
  by_cases hroom : ((past o).length : Int) < e.maxVer
  · rw [enforceMaxVersions_of_lt rfl hold hstarts.maximum hroom]
    refine Yields.bind (Yields.pure (Yields.bind (Act.yields_context ((Act.put_exact hv).mono ?_ ?_))))
    · rintro - w' ⟨rfl, hsaved⟩
      exact Yields.pure ⟨hxinfo.symm, .write_of_lt hmax hstarts hx hencodes hdata hblob' hroom,
        (Elsewhere.insert_data _ _ _).trans (Elsewhere.insert_meta _ _), _, _, hsaved⟩
    · rintro err w' ⟨rfl, hf⟩
      exact .saving hroom _ rfl hf
  · have hfull : e.maxVer ≤ (past o).length := by omega
    rw [enforceMaxVersions_of_ge rfl hold hstarts.maximum hfull]
    refine Yields.bind (Yields.bind (Act.yields_context ((Act.delete_exact (hv.dataKey _)).mono ?_ ?_)))
    · rintro - w₄ ⟨rfl, hdelete⟩
      refine Yields.pure (Yields.bind (Act.yields_context ((Act.put_exact hv).mono ?_ ?_)))
      · rintro - w' ⟨rfl, hsaved⟩
        exact Yields.pure ⟨hxinfo.symm, .write_of_ge hmax hstarts hx hencodes hdata hblob' hfull,
          ((Elsewhere.insert_data _ _ _).trans (Elsewhere.erase_data _ _)).trans
            (Elsewhere.insert_meta _ _), _, _, hsaved⟩
      · rintro err w' ⟨rfl, hf⟩
        exact .lost hfull _ rfl hget hput hdelete hf
    · rintro err w' ⟨rfl, hf⟩
      exact .aging hfull rfl hf

end Engine

end UbixVault.Kv
