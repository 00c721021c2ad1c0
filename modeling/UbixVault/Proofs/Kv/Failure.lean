/-
What a write that fails leaves behind.

The metadata is written last, so the one in force after a failure is the old one.  It
still names the oldest version, whose data may be gone by then.
-/
import UbixVault.Proofs.Kv.Map

namespace UbixVault.Kv

open Program

variable {δ : Type} {e : Engine δ} {env env₁ : Env} {w w' : World} {path : Bytes}
  {o : Option (History δ)} {h : History δ} {v : Int} {data : δ}

namespace Engine

/-- What a read of a version returns, over storage that works. -/
def reads (e : Engine δ) (env : Env) (w : World) (path : Bytes) (version : Int) : Response δ :=
  ((e.call (.read path version)).run env.answer w).1

/-- Every version that is read is read as before, and the latest is the same. -/
def LosesNothing (e : Engine δ) (env : Env) (path : Bytes) (w w' : World) : Prop :=
  (∀ v d vm, e.reads env w path v = .read (.ok d) vm → e.reads env w' path v = .read (.ok d) vm) ∧
  (Program.exec env.answer (e.readMetadata path) w').1.map Metadata.currentVersion
    = (Program.exec env.answer (e.readMetadata path) w).1.map Metadata.currentVersion

/-- What a write that fails after the oldest version is gone did before: all of it worked. -/
structure Reaches (e : Engine δ) (env : Env) (path : Bytes) (data : δ) (n : Nat) (w : World) : Prop where
  encodes : e.encodes data = true
  get : env.fails w.tick (.get (e.metaKey path)) = false
  put : ∀ blob, e.dataJson.marshal data = some blob →
    env.fails (w.tick + 2) (.put (e.dataKey path (n + 1)) blob) = false
  delete : env.fails (w.tick + 3) (.delete (e.dataKey path (n - e.maxVer + 1))) = false

/-! ### Paths that are refused -/

section Refused

variable (hv : ¬ e.ValidPath path)

include hv

theorem validatePath_of_not : e.validatePath path = throw (.kv .invalidPath) := by
  unfold validatePath
  split_ifs with hnil hvalid
  · rfl
  · exact absurd hvalid hv
  · rfl

theorem write_of_not (data : δ) : e.write path data = throw (.kv .invalidPath) := by
  rw [write, validatePath_of_not hv]
  rfl

theorem reads_of_not (env : Env) (w : World) (v : Int) :
    e.reads env w path v = .read (.error (.kv .invalidPath)) none := by
  simp only [reads, call, read, validatePath_of_not hv]
  rfl

end Refused

/-- A call for a path that is refused changes nothing. -/
theorem call_of_not (r : Request δ) (hv : ¬ e.ValidPath r.path) (env : Env) (w : World) :
    ((e.call r).run env.answer w).2 = w := by
  cases r with
  | write path data =>
    rw [call, write_of_not (show ¬ e.ValidPath path from hv)]
    rfl
  | read path version =>
    rw [call, read, validatePath_of_not (show ¬ e.ValidPath path from hv)]
    rfl
  | delete path versions =>
    rw [call, delete, mutateVersions, validatePath_of_not (show ¬ e.ValidPath path from hv)]
    rfl
  | undelete path versions =>
    rw [call, undelete, mutateVersions, validatePath_of_not (show ¬ e.ValidPath path from hv)]
    rfl
  | destroy path versions =>
    rw [call, destroy, validatePath_of_not (show ¬ e.ValidPath path from hv)]
    rfl
  | deleteMetadata path =>
    rw [call, deleteMetadata, validatePath_of_not (show ¬ e.ValidPath path from hv)]
    rfl

theorem writeStep_of_ne {encodes : δ → Bool} {r : Request δ} (hne : r.path ≠ path) (l : List δ) :
    writeStep encodes path l r = l := by
  cases r with
  | write p d => exact if_neg fun h => hne h.1
  | deleteMetadata p => exact if_neg hne
  | _ => rfl

/-- Calls for paths that are accepted reach every state. -/
theorem run_accepted (env : Env) (requests : List (Request δ)) (w : World) :
    ∃ accepted : List (Request δ), (∀ r ∈ accepted, e.ValidPath r.path) ∧
      (e.run env accepted w).2 = (e.run env requests w).2 ∧
      ∀ path, e.ValidPath path → ∀ l : List δ,
        accepted.foldl (writeStep e.encodes path) l = requests.foldl (writeStep e.encodes path) l := by
  induction requests generalizing w with
  | nil => exact ⟨[], by simp, rfl, fun _ _ _ => rfl⟩
  | cons r rest ih =>
    by_cases hr : e.ValidPath r.path
    · obtain ⟨accepted, hvalid, hrun, hwritten⟩ := ih ((e.call r).run env.answer w).2
      refine ⟨r :: accepted, ?_, hrun, fun path hpath l => hwritten path hpath _⟩
      rintro r' (_ | ⟨_, hr'⟩)
      · exact hr
      · exact hvalid r' hr'
    · obtain ⟨accepted, hvalid, hrun, hwritten⟩ := ih w
      refine ⟨accepted, hvalid, ?_, fun path hpath l => ?_⟩
      · rw [hrun]
        show _ = (e.run env rest ((e.call r).run env.answer w).2).2
        rw [call_of_not r hr]
      · rw [List.foldl_cons, writeStep_of_ne (fun heq => hr (heq ▸ hpath))]
        exact hwritten path hpath l

/-! ### What is read afterwards -/

section Reads

variable {m : Metadata} {s s' : Store}

/-- A version whose data is gone cannot be read. -/
theorem response_of_none {f : Int → Option Bytes} {version : Int} (hne : version ≠ 0) (hf : f version = none)
    (d : δ) (vm : Option VersionMeta) : e.response m f version ≠ .read (.ok d) vm := by
  unfold response
  dsimp only
  rw [if_neg hne, hf]
  cases m.versions.lookup version with
  | none => nofun
  | some found =>
    cases hdestroyed : found.destroyed with
    | true => simp [hdestroyed]
    | false => cases hdeleted : found.deleted <;> simp [hdestroyed, hdeleted]

theorem reads_of_none (hworks : env₁.Works) (hv : e.ValidPath path)
    (hnone : w.store.lookup (e.metaKey path) = none) (v : Int) :
    e.reads env₁ w path v = .read (.error (.kv .secretNotFound)) none := by
  have hmeta := exec_readExistingMeta_none hworks hv hnone
  unfold Program.exec at hmeta
  simp only [reads, call, read, run_bind, hmeta]
  rfl

theorem latest_of_lookup_eq (hworks : env₁.Works) (hmax : 1 ≤ e.maxVer) (hv : e.ValidPath path)
    (hh : e.Holds w.store path o)
    (hmeta : w'.store.lookup (e.metaKey path) = w.store.lookup (e.metaKey path)) :
    (Program.exec env₁.answer (e.readMetadata path) w').1.map Metadata.currentVersion
      = (Program.exec env₁.answer (e.readMetadata path) w).1.map Metadata.currentVersion := by
  unfold readMetadata
  cases o with
  | none =>
    rw [exec_readExistingMeta_none hworks hv hh.1, exec_readExistingMeta_none hworks hv (hmeta.trans hh.1)]
  | some h =>
    obtain ⟨m, hm, hdescribes⟩ := hh.metadata
    have hmaximum : m.maxVersions ≠ 0 := by
      rw [hdescribes.maximum]
      omega
    rw [exec_readExistingMeta hworks hv hmaximum hm,
      exec_readExistingMeta hworks hv hmaximum (hmeta.trans hm)]

/-- As long as the metadata and the data it names stay, every read stays. -/
theorem reads_of_lookup_eq (hworks : env₁.Works) (hmax : 1 ≤ e.maxVer) (hv : e.ValidPath path)
    (hh : e.Holds w.store path o)
    (hmeta : w'.store.lookup (e.metaKey path) = w.store.lookup (e.metaKey path))
    (hdata : ∀ v x, (past o).version e.maxVer v = some x → x.destroyed = false → x.deleted = false →
      w'.store.lookup (e.dataKey path v) = w.store.lookup (e.dataKey path v)) (version : Int) :
    e.reads env₁ w' path version = e.reads env₁ w path version := by
  cases o with
  | none => rw [reads_of_none hworks hv hh.1, reads_of_none hworks hv (hmeta.trans hh.1)]
  | some h =>
    obtain ⟨m, hm, hdescribes⟩ := hh.metadata
    have hmaximum : m.maxVersions ≠ 0 := by
      rw [hdescribes.maximum]
      omega
    unfold reads
    rw [(run_read hworks hv hmaximum hm version).1, (run_read hworks hv hmaximum (hmeta.trans hm) version).1]
    unfold response
    dsimp only
    generalize (if version = 0 then m.currentVersion else version) = v
    rw [hdescribes.versions v]
    cases hx : h.version e.maxVer v with
    | none => rfl
    | some x =>
      simp only [Option.map_some, Version.info]
      by_cases hdestroyed : x.destroyed = true
      · simp only [hdestroyed, if_true]
      · by_cases hdeleted : x.deleted = true
        · simp only [hdestroyed, hdeleted, if_true]
        · rw [hdata v x hx (by simpa using hdestroyed) (by simpa using hdeleted)]

/-- What the metadata names and is gone is not read. -/
theorem reads_ne_ok (hworks : env₁.Works) (hmax : 1 ≤ e.maxVer) (hv : e.ValidPath path)
    (hh : e.Holds w.store path o)
    (hmeta : w'.store.lookup (e.metaKey path) = w.store.lookup (e.metaKey path)) (hne : v ≠ 0)
    (hgone : w'.store.lookup (e.dataKey path v) = none) (d : δ) (vm : Option VersionMeta) :
    e.reads env₁ w' path v ≠ .read (.ok d) vm := by
  cases o with
  | none =>
    rw [reads_of_none hworks hv (hmeta.trans hh.1)]
    nofun
  | some h =>
    obtain ⟨m, hm, hdescribes⟩ := hh.metadata
    have hmaximum : m.maxVersions ≠ 0 := by
      rw [hdescribes.maximum]
      omega
    have hread := (run_read hworks hv hmaximum (hmeta.trans hm) v).1
    exact fun hok => response_of_none hne hgone d vm (hread.symm.trans hok)

end Reads

/-- What holds for every way in which a write is cut short but one. -/
theorem LosesNothing.of_lookup_eq (hworks : env₁.Works) (hmax : 1 ≤ e.maxVer) (hv : e.ValidPath path)
    (hh : e.Holds w.store path o)
    (hmeta : w'.store.lookup (e.metaKey path) = w.store.lookup (e.metaKey path))
    (hdata : ∀ v x, (past o).version e.maxVer v = some x → x.destroyed = false → x.deleted = false →
      w'.store.lookup (e.dataKey path v) = w.store.lookup (e.dataKey path v)) :
    e.LosesNothing env₁ path w w' :=
  ⟨fun v _ _ hread => (reads_of_lookup_eq hworks hmax hv hh hmeta hdata v).trans hread,
    latest_of_lookup_eq hworks hmax hv hh hmeta⟩

/-- The data of the version that was to be written is none of those that are named. -/
theorem lookup_insert_next {x : Version δ} {blob : Bytes} (hx : h.version e.maxVer v = some x) (s : Store) :
    (s.insert (e.dataKey path (h.length + 1)) blob).lookup (e.dataKey path v)
      = s.lookup (e.dataKey path v) := by
  refine Finmap.lookup_insert_of_ne _ fun heq => ?_
  obtain ⟨-, hle, -⟩ := History.retains_of_version hx
  have hv := (dataKey_inj heq).2
  omega

theorem lookup_insert_meta {blob : Bytes} (s : Store) :
    (s.insert (e.dataKey path v) blob).lookup (e.metaKey path) = s.lookup (e.metaKey path) :=
  Finmap.lookup_insert_of_ne _ (metaKey_ne_dataKey _ _ _)

/-- **A write that is cut short loses nothing, unless it lost the oldest version.** -/
theorem Cut.losesNothing_iff (hworks : env₁.Works) (hmax : 1 ≤ e.maxVer) (hv : e.ValidPath path)
    (hh : e.Holds w.store path o) {blob : Bytes} (hblob : e.dataJson.marshal data = some blob)
    (hcut : e.Cut env path (past o) blob w w') :
    e.LosesNothing env₁ path w w' ↔ ¬ (e.maxVer ≤ (past o).length ∧
      (∃ d vm, e.reads env₁ w path ((past o).length - e.maxVer + 1) = .read (.ok d) vm) ∧
      e.Reaches env path data (past o).length w) := by
  cases hcut with
  | early hstore hfails =>
    refine iff_of_true (.of_lookup_eq hworks hmax hv hh (by rw [hstore]) fun _ _ _ _ _ => by rw [hstore]) ?_
    rintro ⟨-, -, hreaches⟩
    rcases hfails with hf | hf
    · cases hreaches.get.symm.trans hf
    · cases (hreaches.put blob hblob).symm.trans hf
  | aging hfull hstore hfails =>
    refine iff_of_true (.of_lookup_eq hworks hmax hv hh ?_ fun v x hx _ _ => ?_) ?_
    · rw [hstore, lookup_insert_meta]
    · rw [hstore, lookup_insert_next hx]
    · rintro ⟨-, -, hreaches⟩
      rw [oldest_of_ge hfull] at hfails
      cases hreaches.delete.symm.trans hfails
  | saving hroom value hstore hfails =>
    refine iff_of_true (.of_lookup_eq hworks hmax hv hh ?_ fun v x hx _ _ => ?_) ?_
    · rw [hstore, lookup_insert_meta]
    · rw [hstore, lookup_insert_next hx]
    · rintro ⟨hfull, -, -⟩
      omega
  | lost hfull value hstore hget hput hdelete hfails =>
    rw [oldest_of_ge hfull] at hstore hdelete
    have hmeta : w'.store.lookup (e.metaKey path) = w.store.lookup (e.metaKey path) := by
      rw [hstore, Finmap.lookup_erase_ne (metaKey_ne_dataKey _ _ _), lookup_insert_meta]
    have hreaches : e.Reaches env path data (past o).length w := by
      refine ⟨by simp [Engine.encodes, hblob], hget, fun blob' hblob' => ?_, hdelete⟩
      cases hblob.symm.trans hblob'
      exact hput
    constructor
    · -- The metadata names the oldest version, and its data is gone.
      rintro ⟨hreads, -⟩ ⟨-, ⟨d, vm, hread⟩, -⟩
      refine reads_ne_ok hworks hmax hv hh hmeta (by omega) ?_ d vm (hreads _ d vm hread)
      rw [hstore]
      exact Finmap.lookup_erase _ _
    · intro hnot
      refine .of_lookup_eq hworks hmax hv hh hmeta fun v x hx hdestroyed hdeleted => ?_
      rw [hstore, Finmap.lookup_erase_ne ?_, lookup_insert_next hx]
      intro heq
      have hold := (dataKey_inj heq).2
      subst hold
      -- It would have been readable.
      refine hnot ⟨hfull, ?_, hreaches⟩
      cases o with
      | none =>
        obtain ⟨hpos, hle, -⟩ := History.retains_of_version hx
        have hle : ((0 : Nat) : Int) - e.maxVer + 1 ≤ (0 : Nat) := hle
        have hfull : e.maxVer ≤ (0 : Nat) := hfull
        omega
      | some h =>
        have hne : (h.length : Int) - e.maxVer + 1 ≠ 0 := by
          have hfull : e.maxVer ≤ h.length := hfull
          omega
        have hx : h.version e.maxVer (h.length - e.maxVer + 1) = some x := hx
        have hread := (call_spec hworks hmax (.read path (h.length - e.maxVer + 1)) hv hh).response
        refine ⟨x.data, some (x.info (h.length - e.maxVer + 1)), hread.trans ?_⟩
        simp only [Request.apply, History.read, if_neg hne, hx, hdestroyed, hdeleted, if_false,
          Bool.false_eq_true]

/-- What is stored after any calls, for a path that is accepted. -/
theorem holds_run (hmax : 1 ≤ e.maxVer) (hworks : env.Works) (hempty : e.Represents w.store fun _ => none)
    (requests : List (Request δ)) (hv : e.ValidPath path) :
    ∃ o, e.Holds (e.run env requests w).2.store path o ∧
      (past o).length = (written e.encodes path requests).length := by
  obtain ⟨accepted, hvalid, hrun, hwritten⟩ := e.run_accepted env requests w
  obtain ⟨times, hlength, -, hrepresents⟩ := Represents.run hworks hmax accepted hempty hvalid
  have hdata := Vault.data_run e.maxVer e.encodes path (accepted.zip times) fun _ => none
  rw [List.map_fst_zip (by omega)] at hdata
  refine ⟨_, hrun ▸ hrepresents path, ?_⟩
  rw [written, ← hwritten path hv, ← List.length_map (f := Version.data)]
  exact congrArg List.length hdata

/--
**A failed write.**  From every state that completed calls reach: if `Write` returns an
error, every version that was readable still is and the latest is the same, exactly
unless the secret had as many versions as are retained, the oldest of them was readable,
and the failing step was the last one, the write of the metadata.
-/
theorem failed_write_loses_nothing_iff (e : Engine δ) (hmax : 1 ≤ e.maxVer) (env₀ : Env)
    (hworks₀ : env₀.Works) (w₀ : World) (hempty : e.Represents w₀.store fun _ => none)
    (requests : List (Request δ)) (path : Bytes) (env : Env) (data : δ) (err : Err) (w' : World)
    (herror : Program.exec env.answer (e.write path data) (e.run env₀ requests w₀).2 = (.error err, w'))
    (env₁ : Env) (hworks₁ : env₁.Works) :
    e.LosesNothing env₁ path (e.run env₀ requests w₀).2 w' ↔
      ¬ (e.maxVer ≤ (written e.encodes path requests).length ∧
        (∃ d vm, e.reads env₁ (e.run env₀ requests w₀).2 path
          ((written e.encodes path requests).length - e.maxVer + 1) = .read (.ok d) vm) ∧
        e.Reaches env path data (written e.encodes path requests).length (e.run env₀ requests w₀).2) := by
  by_cases hv : e.ValidPath path
  swap
  · -- Nothing was done.
    rw [write_of_not hv] at herror
    cases herror
    refine iff_of_true ⟨fun _ _ _ hread => hread, rfl⟩ ?_
    rintro ⟨-, ⟨d, vm, hread⟩, -⟩
    rw [reads_of_not hv] at hread
    cases hread
  obtain ⟨o, hh, hlength⟩ := holds_run hmax hworks₀ hempty requests hv
  rw [← hlength]
  cases hblob : e.dataJson.marshal data with
  | some blob =>
    exact ((write_spec hmax hv hh hblob).of_error herror).losesNothing_iff hworks₁ hmax hv hh hblob
  | none =>
    -- Nothing was stored, and the encoding never worked.
    have hstore : w'.store = (e.run env₀ requests w₀).2.store :=
      ((write_unencoded hmax hv hh hblob).of_error herror).1
    refine iff_of_true (.of_lookup_eq hworks₁ hmax hv hh (by rw [hstore]) fun _ _ _ _ _ => by rw [hstore]) ?_
    rintro ⟨-, -, hreaches⟩
    have hencodes := hreaches.encodes
    rw [Engine.encodes, hblob] at hencodes
    cases hencodes

/-! ### The failure -/

/-- Every write of the metadata fails. -/
def metaFails (e : Engine δ) (path : Bytes) : Env :=
  .failing fun _ c =>
    match c with
    | .put key _ => key = e.metaKey path
    | _ => false

/-- One version of a secret is there. -/
def oneVersion (maxVer : Int) : World :=
  ((Engine.transparent maxVer).run .faultless [.write (str "a") [1]] ⟨∅, 0⟩).2

/-- The write of a second one has failed. -/
def afterFailure (maxVer : Int) : World :=
  (Program.exec ((Engine.transparent maxVer).metaFails (str "a")).answer
    ((Engine.transparent maxVer).write (str "a") [2]) (oneVersion maxVer)).2

/-- One version is retained; a second one is written, and the first is lost. -/
theorem failed_write_loses_oldest :
    let e := Engine.transparent 1
    let w := (e.run .faultless [.write (str "a") [1]] ⟨∅, 0⟩).2
    ∃ err w', Program.exec (e.metaFails (str "a")).answer (e.write (str "a") [2]) w = (.error err, w') ∧
      (∃ vm, e.reads .faultless w (str "a") 1 = .read (.ok [1]) vm) ∧
      (∀ d vm, e.reads .faultless w' (str "a") 1 ≠ .read (.ok d) vm) ∧
      ¬ e.LosesNothing .faultless (str "a") w w' := by
  have hread : (Engine.transparent 1).reads .faultless (oneVersion 1) (str "a") 1
      = .read (.ok [1]) (some ⟨1, 0, false, false⟩) := by decide +kernel
  have hlost : (Engine.transparent 1).reads .faultless (afterFailure 1) (str "a") 1
      = .read (.error (.kv .versionNotFound)) (some ⟨1, 0, false, false⟩) := by decide +kernel
  have hgone : ∀ d vm, (Engine.transparent 1).reads .faultless (afterFailure 1) (str "a") 1
      ≠ .read (.ok d) vm := by
    rw [hlost]
    nofun
  exact ⟨.wrap "kv: save metadata" .outside, afterFailure 1, exec_eq_of_fst _ (by decide +kernel),
    ⟨_, hread⟩, hgone, fun hloses => hgone _ _ (hloses.1 1 _ _ hread)⟩

/-- Where two versions are retained, the first is still there. -/
theorem failed_write_loses_nothing_one :
    let e := Engine.transparent 2
    let w := (e.run .faultless [.write (str "a") [1]] ⟨∅, 0⟩).2
    ∃ err w', Program.exec (e.metaFails (str "a")).answer (e.write (str "a") [2]) w = (.error err, w') ∧
      e.LosesNothing .faultless (str "a") w w' := by
  have hrun : Program.exec ((Engine.transparent 2).metaFails (str "a")).answer
      ((Engine.transparent 2).write (str "a") [2]) (oneVersion 2)
      = (.error (.wrap "kv: save metadata" .outside), afterFailure 2) :=
    exec_eq_of_fst _ (by decide +kernel)
  refine ⟨_, _, hrun, (failed_write_loses_nothing_iff _ (by decide) .faultless works_faultless ⟨∅, 0⟩
    (represents_empty _) [.write (str "a") [1]] (str "a") _ [2] _ _ hrun .faultless works_faultless).mpr ?_⟩
  rintro ⟨hfull, -, -⟩
  have hwritten : written (Engine.transparent 2).encodes (str "a") [.write (str "a") [1]] = [[1]] := by
    decide +kernel
  rw [hwritten] at hfull
  exact absurd hfull (by decide)

end Engine

end UbixVault.Kv
