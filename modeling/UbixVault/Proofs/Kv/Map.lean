/-
What the map of secrets with versions holds after a run, and that the engine keeps it.

The data of a path is the data written since its metadata was last deleted, and a
destroyed version stays destroyed until then.
-/
import UbixVault.Proofs.Kv.Refine
import UbixVault.Proofs.Platform

namespace UbixVault.Kv

open Program

variable {δ : Type} {e : Engine δ} {env : Env} {w : World} {path : Bytes} {o : Option (History δ)}
  {h : History δ} {v : Int}

/-! ### What the map holds -/

/-- A version is written for the path, or they are all forgotten. -/
def writeStep (encodes : δ → Bool) (path : Bytes) (data : List δ) : Request δ → List δ
  | .write p d => if p = path ∧ encodes d = true then data ++ [d] else data
  | .deleteMetadata p => if p = path then [] else data
  | _ => data

/-- The data written for a path since it was created or its metadata deleted. -/
def written (encodes : δ → Bool) (path : Bytes) (requests : List (Request δ)) : List δ :=
  requests.foldl (writeStep encodes path) []

namespace Vault

variable {V : Vault δ} {max : Int} {encodes : δ → Bool} {t : Time} {r : Request δ}

theorem run_append (l l' : List (Request δ × Time)) (V : Vault δ) :
    (V.run max encodes (l ++ l')).2 = ((V.run max encodes l).2.run max encodes l').2 := by
  induction l generalizing V with
  | nil => rfl
  | cons a rest ih => exact ih _

theorem data_changeSecret (o : Option (History δ)) {g : Version δ → Version δ} (hg : ∀ x, (g x).data = x.data)
    (versions : List Int) :
    ((changeSecret max o g versions).2.getD []).map Version.data = (o.getD []).map Version.data := by
  have hchange : ∀ (h : History δ) (v : Int), (h.change max g v).map Version.data = h.map Version.data := by
    intro h v
    unfold History.change
    split_ifs
    · refine List.ext_getElem? fun k => ?_
      rw [List.getElem?_map, List.getElem?_map, List.getElem?_modify]
      cases h[k]? with
      | none => rfl
      | some x =>
        simp only [Option.map_some]
        split_ifs
        · exact congrArg some (hg x)
        · rfl
    · rfl
  have hfold : ∀ (l : List Int) (h : History δ),
      (l.foldl (History.change max · g ·) h).map Version.data = h.map Version.data := by
    intro l
    induction l with
    | nil => exact fun h => rfl
    | cons v rest ih => exact fun h => (ih _).trans (hchange h v)
  cases o with
  | none => rfl
  | some h => exact hfold _ h

theorem data_step (path : Bytes) :
    (((V.step max encodes t r).2 path).getD []).map Version.data
      = writeStep encodes path (((V path).getD []).map Version.data) r := by
  by_cases hpath : path = r.path
  · subst hpath
    have hself : (V.step max encodes t r).2 r.path = (r.apply max encodes t (V r.path)).2 := by
      simp [step]
    rw [hself]
    cases r with
    | write p d =>
      by_cases hd : encodes d = true
      · simp [Request.apply, writeStep, Request.path, hd]
      · simp [Request.apply, writeStep, Request.path, hd]
    | read p v =>
      clear hself
      cases V (Request.read p v).path with
      | none => rfl
      | some h => rfl
    | delete p versions =>
      exact data_changeSecret _ (fun x => by by_cases hx : x.destroyed = true <;> simp [Version.delete, hx]) _
    | undelete p versions =>
      exact data_changeSecret _
        (fun x => by by_cases hx : x.destroyed = true <;> simp [Version.undelete, hx]) _
    | destroy p versions => exact data_changeSecret (g := Version.destroy) _ (fun _ => rfl) _
    | deleteMetadata p => simp [Request.apply, writeStep, Request.path]
  · have hother : (V.step max encodes t r).2 path = V path := by simp [step, hpath]
    rw [hother]
    cases r with
    | write p d => simp [writeStep, Ne.symm (show path ≠ p from hpath)]
    | deleteMetadata p => simp [writeStep, Ne.symm (show path ≠ p from hpath)]
    | _ => rfl

/-- The map holds the data that was written. -/
theorem data_run (max : Int) (encodes : δ → Bool) (path : Bytes) (l : List (Request δ × Time)) (V : Vault δ) :
    (((V.run max encodes l).2 path).getD []).map Version.data
      = (l.map Prod.fst).foldl (writeStep encodes path) (((V path).getD []).map Version.data) := by
  induction l generalizing V with
  | nil => rfl
  | cons a rest ih =>
    obtain ⟨r, t⟩ := a
    rw [List.map_cons, List.foldl_cons, ← data_step (V := V) (t := t) path]
    exact ih _

end Vault

/-! ### Destroyed versions -/

/-- The version of that number was written and destroyed. -/
def Destroyed (o : Option (History δ)) (v : Int) : Prop :=
  ∃ h x, o = some h ∧ h[(v - 1).toNat]? = some x ∧ x.destroyed = true

namespace Destroyed

variable {max : Int} {encodes : δ → Bool} {t : Time} {g : Version δ → Version δ}

theorem change (hg : ∀ x, x.destroyed = true → (g x).destroyed = true)
    (hd : Destroyed (some h) v) (u : Int) : Destroyed (some (h.change max g u)) v := by
  obtain ⟨_, x, ⟨⟩, hx, hdestroyed⟩ := hd
  unfold History.change
  split_ifs
  · rw [Destroyed]
    simp only [Option.some.injEq, exists_and_left, exists_eq_left', List.getElem?_modify, hx]
    split_ifs
    · exact ⟨g x, rfl, hg x hdestroyed⟩
    · exact ⟨x, rfl, hdestroyed⟩
  · exact ⟨h, x, rfl, hx, hdestroyed⟩

theorem changeSecret (hg : ∀ x, x.destroyed = true → (g x).destroyed = true) (hd : Destroyed o v)
    (versions : List Int) : Destroyed (changeSecret max o g versions).2 v := by
  have hfold : ∀ (l : List Int) (h : History δ), Destroyed (some h) v →
      Destroyed (some (l.foldl (History.change max · g ·) h)) v := by
    intro l
    induction l with
    | nil => exact fun h hd => hd
    | cons u rest ih => exact fun h hd => ih _ (hd.change hg u)
  cases o with
  | none =>
    obtain ⟨_, _, hnone, -⟩ := hd
    cases hnone
  | some h => exact hfold _ h hd

/-- Only the deletion of the metadata undoes a destruction, by forgetting the version. -/
theorem apply (hd : Destroyed o v) (r : Request δ) (hr : r ≠ .deleteMetadata r.path) :
    Destroyed (r.apply max encodes t o).2 v := by
  cases r with
  | write p d =>
    obtain ⟨h, x, rfl, hx, hdestroyed⟩ := hd
    have hlt := (List.getElem?_eq_some_iff.mp hx).1
    simp only [Request.apply, Option.getD_some]
    split_ifs
    · exact ⟨_, x, rfl, by rw [List.getElem?_append_left hlt, hx], hdestroyed⟩
    · exact ⟨h, x, rfl, hx, hdestroyed⟩
  | read p u =>
    cases o with
    | none => exact hd
    | some h => exact hd
  | delete p versions => exact hd.changeSecret (fun x hx => by simp [Version.delete, hx]) versions
  | undelete p versions => exact hd.changeSecret (fun x hx => by simp [Version.undelete, hx]) versions
  | destroy p versions => exact hd.changeSecret (fun _ _ => rfl) versions
  | deleteMetadata p => exact absurd rfl hr

theorem run {V : Vault δ} (l : List (Request δ × Time)) (hd : Destroyed (V path) v)
    (hl : ∀ a ∈ l, a.1 ≠ .deleteMetadata path) : Destroyed ((V.run max encodes l).2 path) v := by
  induction l generalizing V with
  | nil => exact hd
  | cons a rest ih =>
    obtain ⟨r, t⟩ := a
    refine ih (V := (V.step max encodes t r).2) ?_ fun a ha => hl a (List.mem_cons_of_mem _ ha)
    by_cases hpath : path = r.path
    · subst hpath
      have hself : (V.step max encodes t r).2 r.path = (r.apply max encodes t (V r.path)).2 := by
        simp [Vault.step]
      rw [hself]
      exact hd.apply r (hl (r, t) List.mem_cons_self)
    · have hother : (V.step max encodes t r).2 path = V path := by simp [Vault.step, hpath]
      rwa [hother]

/-- `Destroy` destroys the versions it is about. -/
theorem of_destroy (versions : List Int) (hv : History.Retains max h v)
    (hmem : v ∈ if versions = [] then [(h.length : Int)] else versions) :
    Destroyed (Kv.changeSecret max (some h) Version.destroy versions).2 v := by
  have hkeep : ∀ (l : List Int) (h : History δ), Destroyed (some h) v →
      Destroyed (some (l.foldl (History.change max · Version.destroy ·) h)) v := by
    intro l
    induction l with
    | nil => exact fun h hd => hd
    | cons u rest ih => exact fun h hd => ih _ (hd.change (fun _ _ => rfl) u)
  have hfold : ∀ (l : List Int) (h : History δ), History.Retains max h v → v ∈ l →
      Destroyed (some (l.foldl (History.change max · Version.destroy ·) h)) v := by
    intro l
    induction l with
    | nil => exact fun h _ hmem => nomatch hmem
    | cons u rest ih =>
      intro h hv hmem
      by_cases huv : v = u
      · subst huv
        refine hkeep rest _ ?_
        have hlt : (v - 1).toNat < h.length := by
          obtain ⟨hpos, hle, -⟩ := hv
          omega
        refine ⟨_, (h[(v - 1).toNat]).destroy, rfl, ?_, rfl⟩
        show (History.change max h Version.destroy v)[(v - 1).toNat]? = _
        rw [History.change, if_pos hv, List.getElem?_modify_eq, List.getElem?_eq_getElem hlt]
        rfl
      · refine ih _ ?_ ((List.mem_cons.mp hmem).resolve_left huv)
        unfold History.Retains
        rw [History.length_change]
        exact hv
  exact hfold _ h hv hmem

/-- What is destroyed is not read. -/
theorem read_ne (hd : Destroyed (some h) v) (u : Int) (hu : (if u = 0 then (h.length : Int) else u) = v)
    (d : δ) (vm : Option VersionMeta) : h.read max u ≠ .read (.ok d) vm := by
  obtain ⟨_, x, ⟨⟩, hx, hdestroyed⟩ := hd
  unfold History.read
  dsimp only
  rw [hu, History.version]
  split_ifs with hretains
  · rw [hx]
    simp [hdestroyed]
  · simp

theorem blob_eq_none (hd : Destroyed (some h) v) : e.blob h v = none := by
  obtain ⟨_, x, ⟨⟩, hx, hdestroyed⟩ := hd
  unfold Engine.blob History.version
  split_ifs
  · rw [hx]
    simp [hdestroyed]
  · rfl

end Destroyed

/-! ### The engine -/

namespace Engine

/-- The number of a version that is retained when the data was written. -/
def Retained (e : Engine δ) (data : List δ) (v : Int) : Prop :=
  1 ≤ v ∧ v ≤ data.length ∧ data.length < v + e.maxVer

/-- What holds of a path for which the data was written. -/
structure Has (e : Engine δ) (env : Env) (w : World) (path : Bytes) (data : List δ) : Prop where
  /-- The metadata tells the last versions, and there is none if nothing was written. -/
  versions : Yields env.answer (e.readMetadata path) w
    (fun m _ => data ≠ [] ∧ ∀ v, (m.versions.lookup v).isSome = true ↔ e.Retained data v)
    (fun err _ => data = [] ∧ err = .kv .secretNotFound)
  /-- A version that is retained is read as it was written, unless it is marked. -/
  read : ∀ v, e.Retained data v → ∃ d vm, data[(v - 1).toNat]? = some d ∧ vm.version = v ∧
    ((e.call (.read path v)).run env.answer w).1 =
      .read (if vm.destroyed then .error (.kv .versionDestroyed)
        else if vm.deleted then .error (.kv .versionDeleted) else .ok d) (some vm)
  /-- Of other versions there is nothing left. -/
  absent : ∀ v, ¬ e.Retained data v → w.store.lookup (e.dataKey path v) = none

theorem Holds.has (hworks : env.Works) (hmax : 1 ≤ e.maxVer) (hv : e.ValidPath path)
    (hh : e.Holds w.store path o) : e.Has env w path ((o.getD []).map Version.data) := by
  have hretained : ∀ v, e.Retained ((o.getD []).map Version.data) v ↔
      History.Retains e.maxVer (o.getD []) v := by
    intro v
    unfold Retained History.Retains
    rw [List.length_map]
  refine ⟨?_, fun v hretains => ?_, fun v hretains => ?_⟩
  · unfold readMetadata
    rw [hv.validatePath]
    refine Yields.bind (Yields.pure ((readMeta_works hworks hmax hv hh).mono ?_ ?_))
    · rintro m w' ⟨-, h, rfl, hm⟩
      refine ⟨by simpa using hh.written, fun v => ?_⟩
      rw [hm.versions, Option.isSome_map, hretained]
      constructor
      · intro hsome
        obtain ⟨x, hx⟩ := Option.isSome_iff_exists.mp hsome
        exact History.retains_of_version hx
      · intro hretains
        obtain ⟨x, hx, -⟩ := History.version_of_retains hretains
        exact Option.isSome_iff_exists.mpr ⟨x, hx⟩
    · rintro err w' ⟨-, rfl, rfl⟩
      exact ⟨rfl, rfl⟩
  · rw [hretained] at hretains
    cases o with
    | none =>
      obtain ⟨hpos, hle, -⟩ := hretains
      simp at hle
      omega
    | some h =>
      obtain ⟨x, hx, -⟩ := History.version_of_retains hretains
      have hget : h[(v - 1).toNat]? = some x := by
        rw [History.version, if_pos hretains] at hx
        exact hx
      have hx : h.version e.maxVer v = some x := hx
      have hne : v ≠ 0 := by
        obtain ⟨hpos, -, -⟩ := hretains
        omega
      refine ⟨x.data, x.info v, ?_, rfl, ?_⟩
      · rw [Option.getD_some, List.getElem?_map, hget]
        rfl
      · have hdoes := (call_spec hworks hmax (.read path v) hv hh).response
        rw [hdoes]
        simp only [Request.apply, History.read, if_neg hne, hx, Version.info]
        by_cases hdestroyed : x.destroyed = true
        · simp [hdestroyed]
        · by_cases hdeleted : x.deleted = true
          · simp [hdestroyed, hdeleted]
          · simp [hdestroyed, hdeleted]
  · rw [hretained] at hretains
    cases o with
    | none => exact hh.2 v
    | some h =>
      have hnone : h.version e.maxVer v = none := if_neg hretains
      rw [hh.data, blob, hnone]
      rfl

/-- Whatever a call on another path does, this one returns the same. -/
theorem Represents.independent {V : Vault δ} (hV : e.Represents w.store V) (hworks : env.Works)
    (hmax : 1 ≤ e.maxVer) {r r' : Request δ} (hr : e.ValidPath r.path) (hr' : e.ValidPath r'.path)
    (hne : r.path ≠ r'.path) {env' : Env} (hworks' : env'.Works)
    (hclock : env'.clock (((e.call r).run env.answer w).2.tick + 1) = env.clock (w.tick + 1)) :
    ((e.call r').run env'.answer ((e.call r).run env.answer w).2).1 = ((e.call r').run env.answer w).1 := by
  obtain ⟨-, -, helse⟩ := call_spec hworks hmax r hr (hV r.path)
  have hthere := (hV r'.path).elsewhere helse hne.symm
  rw [(call_spec hworks hmax r' hr' (hV r'.path)).response, (call_spec hworks' hmax r' hr' hthere).response,
    hclock]

/-- A version is destroyed in the map when `Destroy` is called for it, and stays so. -/
theorem Destroyed.of_split {requests earlier later : List (Request δ)} {times : List Time}
    {versions : List Int} (hsplit : requests = earlier ++ .destroy path versions :: later)
    (hlength : times.length = requests.length) (hlater : ∀ r ∈ later, r ≠ .deleteMetadata path)
    (hretained : e.Retained (written e.encodes path earlier) v)
    (hmem : v ∈ if versions = [] then [((written e.encodes path earlier).length : Int)] else versions) :
    Destroyed ((Vault.run e.maxVer e.encodes (fun _ => none) (requests.zip times)).2 path) v := by
  subst hsplit
  rw [List.length_append, List.length_cons] at hlength
  obtain ⟨before, t, after, rfl, hbefore⟩ : ∃ before t after, times = before ++ t :: after ∧
      earlier.length = before.length := by
    have hdrop : (times.drop earlier.length) ≠ [] := by
      rw [← List.length_pos_iff, List.length_drop]
      omega
    obtain ⟨t, after, hcons⟩ := List.exists_cons_of_ne_nil hdrop
    refine ⟨times.take earlier.length, t, after, ?_, ?_⟩
    · rw [← hcons, List.take_append_drop]
    · rw [List.length_take]
      omega
  rw [List.zip_append hbefore, List.zip_cons_cons, Vault.run_append]
  have hdata := Vault.data_run e.maxVer e.encodes path (earlier.zip before) fun _ => none
  rw [List.map_fst_zip (by omega)] at hdata
  generalize (Vault.run e.maxVer e.encodes (fun _ => none) (earlier.zip before)).2 = V at hdata ⊢
  cases hV : V path with
  | none =>
    rw [hV] at hdata
    have hempty : written e.encodes path earlier = [] := hdata.symm
    rw [hempty] at hretained
    obtain ⟨hpos, hle, -⟩ := hretained
    simp at hle
    omega
  | some h =>
    rw [hV] at hdata
    have hdata : h.map Version.data = written e.encodes path earlier := hdata
    rw [← hdata, List.length_map] at hmem
    have hretains : History.Retains e.maxVer h v := by
      unfold Retained at hretained
      rwa [← hdata, List.length_map] at hretained
    refine Destroyed.run (V := (V.step e.maxVer e.encodes t (.destroy path versions)).2) (later.zip after)
      ?_ fun a ha => hlater a.1 (List.of_mem_zip ha).1
    have hself : (V.step e.maxVer e.encodes t (.destroy path versions)).2 path
        = (changeSecret e.maxVer (some h) Version.destroy versions).2 := by
      simp [Vault.step, Request.apply, Request.path, hV]
    rw [hself]
    exact Destroyed.of_destroy versions hretains hmem

/--
**The engine refines a map of secrets with versions.**  In every run over storage that
works, the calls return what the map returns.  The versions of a path that are retained
are the last ones of those written since its metadata was deleted, up to the maximum;
such a version is read as it was written unless it is marked, and nothing is stored of
any other.  A version that `Destroy` was called for is not read again, and its data is
gone, until the metadata is deleted.  A call on one path does not change what a call on
another returns.
-/
theorem refines_versioned_map (e : Engine δ) (hmax : 1 ≤ e.maxVer) (env : Env) (hworks : env.Works)
    (w : World) (hempty : e.Represents w.store fun _ => none) (requests : List (Request δ))
    (hvalid : ∀ r ∈ requests, e.ValidPath r.path) :
    (∃ times : List Time, times.length = requests.length ∧
      (e.run env requests w).1 = (Vault.run e.maxVer e.encodes (fun _ => none) (requests.zip times)).1) ∧
    (∀ path, e.ValidPath path → e.Has env (e.run env requests w).2 path (written e.encodes path requests)) ∧
    (∀ path earlier versions later v, requests = earlier ++ .destroy path versions :: later →
      (∀ r ∈ later, r ≠ .deleteMetadata path) → e.Retained (written e.encodes path earlier) v →
      (v ∈ if versions = [] then [((written e.encodes path earlier).length : Int)] else versions) →
      (e.run env requests w).2.store.lookup (e.dataKey path v) = none ∧
      ∀ u, (if u = 0 then ((written e.encodes path requests).length : Int) else u) = v →
        ∀ d vm, ((e.call (.read path u)).run env.answer (e.run env requests w).2).1 ≠ .read (.ok d) vm) ∧
    ∀ r r' : Request δ, e.ValidPath r.path → e.ValidPath r'.path → r.path ≠ r'.path →
      ∀ env' : Env, env'.Works →
      env'.clock (((e.call r).run env.answer (e.run env requests w).2).2.tick + 1)
        = env.clock ((e.run env requests w).2.tick + 1) →
      ((e.call r').run env'.answer ((e.call r).run env.answer (e.run env requests w).2).2).1
        = ((e.call r').run env.answer (e.run env requests w).2).1 := by
  obtain ⟨times, hlength, hresponses, hrepresents⟩ := Represents.run hworks hmax requests hempty hvalid
  have hdata : ∀ path, (((Vault.run e.maxVer e.encodes (fun _ => none) (requests.zip times)).2 path).getD
      []).map Version.data = written e.encodes path requests := by
    intro path
    rw [Vault.data_run, List.map_fst_zip (by omega)]
    rfl
  refine ⟨⟨times, hlength, hresponses⟩, fun path hv => hdata path ▸ (hrepresents path).has hworks hmax hv, ?_,
    fun r r' hr hr' hne env' hworks' hclock => hrepresents.independent hworks hmax hr hr' hne hworks' hclock⟩
  intro path earlier versions later v hsplit hlater hretained hmem
  have hdestroyed := Destroyed.of_split hsplit hlength hlater hretained hmem
  have hv : e.ValidPath path := hvalid (.destroy path versions) (by simp [hsplit])
  have hpath := hdata path
  have hholds := hrepresents path
  cases hfinal : (Vault.run e.maxVer e.encodes (fun _ => none) (requests.zip times)).2 path with
  | none =>
    rw [hfinal] at hdestroyed
    obtain ⟨_, _, hnone, -⟩ := hdestroyed
    cases hnone
  | some h =>
    rw [hfinal] at hdestroyed hholds hpath
    refine ⟨(hholds.data v).trans hdestroyed.blob_eq_none, fun u hu d vm => ?_⟩
    rw [(call_spec hworks hmax (.read path u) hv hholds).response]
    rw [← hpath, List.length_map] at hu
    exact hdestroyed.read_ne u hu d vm

end Engine

/-! ### An engine -/

def VersionMeta.wire : Wire VersionMeta :=
  (Wire.int.pair (Wire.int.pair (Wire.bool.pair Wire.bool))).via
    (fun m => (m.version, m.createdTime, m.deleted, m.destroyed))
    (fun p => ⟨p.1, p.2.1, p.2.2.1, p.2.2.2⟩) fun _ => rfl

def Metadata.wire : Wire Metadata :=
  (Wire.int.pair (Wire.int.pair (Wire.int.pair (Wire.int.pair (Wire.int.pair
    (Wire.finmap Wire.int VersionMeta.wire)))))).via
    (fun m => (m.currentVersion, m.oldestVersion, m.maxVersions, m.createdTime, m.updatedTime, m.versions))
    (fun p => ⟨p.1, p.2.1, p.2.2.1, p.2.2.2.1, p.2.2.2.2.1, p.2.2.2.2.2⟩) fun _ => rfl

/-- An engine that writes metadata down as it is, for secrets that are bytes. -/
def Engine.transparent (maxVer : Int) : Engine Bytes where
  metaJson := Metadata.wire.codec
  dataJson := ⟨some, some, DataJson.read_back⟩
  pfx := str "secret"
  maxVer

theorem Engine.represents_empty (e : Engine δ) : e.Represents ∅ fun _ => none :=
  fun _ => ⟨Finmap.lookup_empty _, fun _ => Finmap.lookup_empty _⟩

instance Engine.decidableValidPath (e : Engine δ) (path : Bytes) : Decidable (e.ValidPath path) :=
  inferInstanceAs (Decidable (_ = true))

/-- Of two versions one is retained, and it is the second. -/
theorem Engine.refines_versioned_map_two :
    let requests : List (Request Bytes) := [.write (str "a") [1], .write (str "a") [2]]
    let w := ((Engine.transparent 1).run .faultless requests ⟨∅, 0⟩).2
    ((Engine.transparent 1).Retained [[1], [2]] 2) ∧ ¬ (Engine.transparent 1).Retained [[1], [2]] 1 ∧
      (Engine.transparent 1).Has .faultless w (str "a") [[1], [2]] := by
  have hrefines := refines_versioned_map (Engine.transparent 1) (by decide) .faultless works_faultless ⟨∅, 0⟩
    (represents_empty _) [.write (str "a") [1], .write (str "a") [2]] (by decide +kernel)
  refine ⟨⟨by decide, by decide, by decide⟩, ?_, ?_⟩
  · rintro ⟨-, -, hlt⟩
    exact absurd hlt (by decide)
  · have hwritten : written (Engine.transparent 1).encodes (str "a")
        [.write (str "a") [1], .write (str "a") [2]] = [[1], [2]] := by decide +kernel
    exact hwritten ▸ hrefines.2.1 (str "a") (by decide +kernel)

end UbixVault.Kv
