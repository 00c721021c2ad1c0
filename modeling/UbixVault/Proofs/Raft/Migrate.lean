/-
The two ends of a migration compare as they should.

What is read from a snapshot is the map of its entries without the coordination of a
server, whatever their order.  The text that is hashed is a sequence of framed texts, so
it determines the map, and the comparison looks at every key of both.
-/
import UbixVault.Lib.Framing
import UbixVault.Proofs.Basic
import UbixVault.Proofs.Raft.Fsm
import UbixVault.Raft.Migrate

namespace UbixVault.Raft.Migrate

/-! ### Reading a snapshot -/

/-- The entries that a stream holds. -/
inductive Decodes (json : EntryJson) : Bytes → List Entry → Prop
  | nil {data : Bytes} : json.decode data = some none → Decodes json data []
  | cons {data rest : Bytes} {e : Entry} {es : List Entry} :
      json.decode data = some (some (e, rest)) → Decodes json rest es → Decodes json data (e :: es)

/-- A snapshot: a header line, and entries in some order. -/
def WellFormed (json : EntryJson) (data : Bytes) (es : List Entry) : Prop :=
  ∃ line rest, Snapshot.readLine data = some (line, rest) ∧
    str "ubixvault-snapshot " <+: line ++ [Snapshot.newline] ∧ Decodes json rest es

/-- The map that entries make up; of two with one key the later one counts. -/
def contents (es : List Entry) : Store := es.foldl (fun s e => s.insert e.key e.value) ∅

/-- The maps are equal, but for what a server keeps for its coordination. -/
def SameContents (es es' : List Entry) : Prop :=
  ∀ key, coordination key = false → (contents es).lookup key = (contents es').lookup key

variable {json : EntryJson} {data data' : Bytes} {es es' : List Entry}

theorem snapLoop_nil (h : json.decode data = some none) (all : Store) : snapLoop json all data = .ok all := by
  rw [snapLoop]
  split <;> simp_all

theorem snapLoop_cons {rest : Bytes} {e : Entry} (h : json.decode data = some (some (e, rest)))
    (all : Store) :
    snapLoop json all data
      = if coordination e.key then snapLoop json all rest
        else snapLoop json (all.insert e.key e.value) rest := by
  rw [snapLoop]
  split <;> simp_all

/-- Passing over an entry of the coordination is the same as not looking at it. -/
theorem snapLoop_spec (h : Decodes json data es) (all full : Store)
    (hall : ∀ key, all.lookup key = if coordination key then none else full.lookup key) :
    ∃ all', snapLoop json all data = .ok all' ∧ ∀ key, all'.lookup key =
      if coordination key then none else (es.foldl (fun s e => s.insert e.key e.value) full).lookup key := by
  induction h generalizing all full with
  | nil hdecode => exact ⟨all, snapLoop_nil hdecode all, hall⟩
  | @cons data rest e es hdecode _ ih =>
    rw [snapLoop_cons hdecode, List.foldl_cons]
    by_cases hcoord : coordination e.key = true
    · rw [if_pos hcoord]
      refine ih all (full.insert e.key e.value) fun key => ?_
      rw [hall key]
      by_cases hkey : key = e.key
      · rw [hkey, if_pos hcoord, if_pos hcoord]
      · rw [Finmap.lookup_insert_of_ne _ hkey]
    · rw [if_neg hcoord]
      refine ih (all.insert e.key e.value) (full.insert e.key e.value) fun key => ?_
      by_cases hkey : key = e.key
      · rw [hkey, if_neg hcoord, Finmap.lookup_insert, Finmap.lookup_insert]
      · rw [Finmap.lookup_insert_of_ne _ hkey, Finmap.lookup_insert_of_ne _ hkey, hall key]

theorem snapEntries_spec (h : WellFormed json data es) :
    ∃ all, snapEntries json data = .ok all ∧
      ∀ key, all.lookup key = if coordination key then none else (contents es).lookup key := by
  obtain ⟨line, rest, hline, hheader, hdecodes⟩ := h
  obtain ⟨all, hloop, hall⟩ := snapLoop_spec hdecodes ∅ ∅ (by simp)
  refine ⟨all, ?_, hall⟩
  unfold snapEntries
  rw [hline]
  simp only [if_pos hheader, hloop]

/-- What is read of two snapshots is the same just when their contents are. -/
theorem read_eq_iff {all all' : Store}
    (hall : ∀ key, all.lookup key = if coordination key then none else (contents es).lookup key)
    (hall' : ∀ key, all'.lookup key = if coordination key then none else (contents es').lookup key) :
    all = all' ↔ SameContents es es' := by
  constructor
  · intro heq key hkey
    have hleft := hall key
    rw [heq, hall' key, if_neg (by simp [hkey]), if_neg (by simp [hkey])] at hleft
    exact hleft.symm
  · intro hsame
    refine Finmap.ext_lookup fun key => ?_
    rw [hall, hall']
    by_cases hkey : coordination key = true
    · rw [if_pos hkey, if_pos hkey]
    · rw [if_neg hkey, if_neg hkey, hsame key (by simpa using hkey)]

theorem mem_of_lookup_foldl (es : List Entry) (s : Store) {key : Key} {value : Bytes}
    (h : (es.foldl (fun s e => s.insert e.key e.value) s).lookup key = some value) :
    ⟨key, value⟩ ∈ es ∨ s.lookup key = some value := by
  induction es generalizing s with
  | nil => exact .inr h
  | cons e es ih =>
    rcases ih (s.insert e.key e.value) h with hmem | hlookup
    · exact .inl (List.mem_cons_of_mem _ hmem)
    · by_cases hkey : key = e.key
      · subst hkey
        rw [Finmap.lookup_insert] at hlookup
        rw [← Option.some.inj hlookup]
        exact .inl List.mem_cons_self
      · rw [Finmap.lookup_insert_of_ne _ hkey] at hlookup
        exact .inr hlookup

theorem mem_of_lookup_contents {key : Key} {value : Bytes} (h : (contents es).lookup key = some value) :
    ⟨key, value⟩ ∈ es :=
  (mem_of_lookup_foldl es ∅ h).resolve_right (by simp)

/-! ### The digest -/

/-- Lengths as eight bytes. -/
def lengths : Framing Byte where
  header n := putInt64 n
  width := 8
  bound := 2 ^ 63
  width_pos := by decide
  length_header n := length_putInt64 n
  header_inj n m hn hm h := by
    have hvalue := congrArg getInt64 h
    rw [getInt64_putInt64, getInt64_putInt64] at hvalue
    unfold int64 at hvalue
    rw [Int.bmod_eq_of_le (by omega) (by omega), Int.bmod_eq_of_le (by omega) (by omega)] at hvalue
    omega

/-- The keys and values of a map, in the order of the keys. -/
def texts (all : Store) : List Bytes := all.keys.inOrder.flatMap fun k => [k, (all.lookup k).getD []]

theorem digestInput_eq (all : Store) : digestInput all = (texts all).flatMap lengths.frame := by
  unfold digestInput texts
  rw [List.flatMap_assoc]
  congr 1
  funext k
  simp [Framing.frame, lengths]

/-- A list of keys, each with something computed from it. -/
theorem flatMap_pair_inj {f g : Bytes → Bytes} {l l' : List Bytes}
    (h : (l.flatMap fun k => [k, f k]) = l'.flatMap fun k => [k, g k]) : l = l' ∧ ∀ k ∈ l, f k = g k := by
  induction l generalizing l' with
  | nil =>
    cases l' with
    | nil => exact ⟨rfl, fun k hk => absurd hk List.not_mem_nil⟩
    | cons k' l' => simp at h
  | cons k l ih =>
    cases l' with
    | nil => simp at h
    | cons k' l' =>
      simp only [List.flatMap_cons, List.cons_append, List.nil_append, List.cons.injEq] at h
      obtain ⟨rfl, hvalue, hrest⟩ := h
      obtain ⟨rfl, hvalues⟩ := ih hrest
      refine ⟨rfl, fun j hj => ?_⟩
      rcases List.mem_cons.mp hj with rfl | hj
      · exact hvalue
      · exact hvalues j hj

theorem texts_injective {all all' : Store} (h : texts all = texts all') : all = all' := by
  obtain ⟨hkeys, hvalues⟩ := flatMap_pair_inj h
  have hmem : ∀ key, key ∈ all ↔ key ∈ all' := by
    intro key
    have hiff : key ∈ all.keys.inOrder ↔ key ∈ all'.keys.inOrder := by rw [hkeys]
    rwa [Finset.mem_inOrder, Finset.mem_inOrder, Finmap.mem_keys, Finmap.mem_keys] at hiff
  refine Finmap.ext_lookup fun key => ?_
  by_cases hkey : key ∈ all
  · have hvalue := hvalues key (by rwa [Finset.mem_inOrder, Finmap.mem_keys])
    obtain ⟨v, hv⟩ := Finmap.mem_iff.mp hkey
    obtain ⟨v', hv'⟩ := Finmap.mem_iff.mp ((hmem key).mp hkey)
    rw [hv, hv', Option.getD_some, Option.getD_some] at hvalue
    rw [hv, hv', hvalue]
  · rw [Finmap.lookup_eq_none.mpr hkey, Finmap.lookup_eq_none.mpr fun h' => hkey ((hmem key).mpr h')]

/-- Keys and values have lengths, as those of Go's strings are. -/
def Sized (es : List Entry) : Prop := ∀ e ∈ es, e.key.length < 2 ^ 63 ∧ e.value.length < 2 ^ 63

theorem length_of_mem_texts {all : Store} (hsize : Sized es)
    (hall : ∀ key, all.lookup key = if coordination key then none else (contents es).lookup key) :
    ∀ s ∈ texts all, s.length < lengths.bound := by
  intro s hs
  obtain ⟨key, hkey, hs⟩ := List.mem_flatMap.mp hs
  rw [Finset.mem_inOrder, Finmap.mem_keys] at hkey
  obtain ⟨value, hvalue⟩ := Finmap.mem_iff.mp hkey
  have hcontents : (contents es).lookup key = some value := by
    rw [hall key] at hvalue
    split_ifs at hvalue
    exact hvalue
  have hlen := hsize _ (mem_of_lookup_contents hcontents)
  rw [hvalue, Option.getD_some] at hs
  rcases List.mem_cons.mp hs with rfl | hs
  · exact hlen.1
  · rw [List.mem_singleton.mp hs]
    exact hlen.2

/-! ### The comparison -/

theorem inOrder_eq_nil_iff {s : Finset Key} : s.inOrder = [] ↔ ∀ k, k ∉ s := by
  rw [List.eq_nil_iff_forall_not_mem]
  exact forall_congr' fun k => not_congr (Finset.mem_inOrder)

theorem difference_eq_iff {a b : Store} : difference a b = ⟨[], [], []⟩ ↔ a = b := by
  simp only [difference, Difference.mk.injEq, inOrder_eq_nil_iff, Finset.mem_filter, Finmap.mem_keys, not_and]
  constructor
  · intro ⟨hmissing, hchanged, hadded⟩
    refine Finmap.ext_lookup fun key => ?_
    by_cases ha : key ∈ a
    · by_contra hne
      exact hchanged key ha (hmissing key ha) hne
    · have hnone := Finmap.lookup_eq_none.mpr ha
      have hb : key ∉ b := fun hb => hadded key hb hnone
      rw [hnone, Finmap.lookup_eq_none.mpr hb]
  · intro heq
    subst heq
    refine ⟨fun k hk hnone => ?_, fun k _ _ hne => hne rfl, fun k hk hnone => ?_⟩
    · exact absurd hk (Finmap.lookup_eq_none.mp hnone)
    · exact absurd hk (Finmap.lookup_eq_none.mp hnone)

/-! ### Both ends -/

/-- The digests of two snapshots are equal just when their contents are, and just then the
comparison finds no difference. -/
theorem migration_compares (sha256 : Hash Byte) (hdata : WellFormed json data es)
    (hdata' : WellFormed json data' es') (hsize : Sized es) (hsize' : Sized es') :
    ((snapshotDigest json sha256 data).map Prod.snd = (snapshotDigest json sha256 data').map Prod.snd ↔
      SameContents es es') ∧
    (compareSnapshots json data data' = .ok ⟨[], [], []⟩ ↔ SameContents es es') := by
  obtain ⟨all, hread, hall⟩ := snapEntries_spec hdata
  obtain ⟨all', hread', hall'⟩ := snapEntries_spec hdata'
  have hdigest : (snapshotDigest json sha256 data).map Prod.snd
      = .ok (hexEncode (sha256.sum (digestInput all))) := by
    unfold snapshotDigest
    rw [hread]
    rfl
  have hdigest' : (snapshotDigest json sha256 data').map Prod.snd
      = .ok (hexEncode (sha256.sum (digestInput all'))) := by
    unfold snapshotDigest
    rw [hread']
    rfl
  have hcompare : compareSnapshots json data data' = .ok (difference all all') := by
    unfold compareSnapshots
    rw [hread, hread']
    rfl
  rw [hdigest, hdigest', hcompare, Except.ok.injEq, Except.ok.injEq, difference_eq_iff,
    ← read_eq_iff hall hall']
  refine ⟨⟨fun h => ?_, fun h => by rw [h]⟩, Iff.rfl⟩
  have hinput := sha256.sum_injective (hexEncode_injective h)
  rw [digestInput_eq, digestInput_eq] at hinput
  exact texts_injective
    (Framing.flatMap_frame_inj (length_of_mem_texts hsize hall) (length_of_mem_texts hsize' hall') hinput)

/-! ### Snapshots that are written -/

theorem decodes_encode (json : EntryJson) (es : List Entry) (h : ∀ e ∈ es, validUTF8 e.key = true) :
    Decodes json (es.map json.encode).flatten es := by
  induction es with
  | nil => exact .nil json.decode_nil
  | cons e es ih =>
    exact .cons (json.decode_encode e _ (h e List.mem_cons_self))
      (ih fun e' he' => h e' (List.mem_cons_of_mem _ he'))

/-- What `Write` puts out is well formed. -/
theorem wellFormed_encode (json : EntryJson) (es : List Entry) (h : ∀ e ∈ es, validUTF8 e.key = true) :
    WellFormed json (Snapshot.header ++ [Snapshot.newline] ++ (es.map json.encode).flatten) es := by
  refine ⟨Snapshot.header, _, ?_, by decide_cbv, decodes_encode json es h⟩
  rw [List.append_assoc, List.singleton_append]
  exact Snapshot.readLine_append (by decide_cbv)

/-- One entry before the other, or the other way round and with a record of a lock. -/
theorem migration_compares_reordered :
    ∃ data data', WellFormed EntryJson.transparent data [⟨str "a", [1]⟩, ⟨str "b", [2]⟩] ∧
      WellFormed EntryJson.transparent data' [⟨str "core/ha/lock", [3]⟩, ⟨str "b", [2]⟩, ⟨str "a", [1]⟩] ∧
      (snapshotDigest EntryJson.transparent (.transparent 0) data).map Prod.snd
        = (snapshotDigest EntryJson.transparent (.transparent 0) data').map Prod.snd ∧
      compareSnapshots EntryJson.transparent data data' = .ok ⟨[], [], []⟩ := by
  have hdata := wellFormed_encode .transparent [⟨str "a", [1]⟩, ⟨str "b", [2]⟩] (by decide +kernel)
  have hdata' := wellFormed_encode .transparent [⟨str "core/ha/lock", [3]⟩, ⟨str "b", [2]⟩, ⟨str "a", [1]⟩]
    (by decide +kernel)
  have hcompares := migration_compares (.transparent 0) hdata hdata'
    (by unfold Sized; decide +kernel) (by unfold Sized; decide +kernel)
  have hsame := hcompares.2.mp (by decide +kernel)
  exact ⟨_, _, hdata, hdata', hcompares.1.mpr hsame, hcompares.2.mpr hsame⟩

end UbixVault.Raft.Migrate
