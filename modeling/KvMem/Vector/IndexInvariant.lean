import KvMem.Vector.Index

/-! # The index invariant

Every version that is no tombstone owns one node of the graph, and every node belongs
to one version. Insertions and deletions keep this, whatever they return.
-/

namespace KvMem.HNSWIndex

open VersionTable

structure Ok (index : HNSWIndex) : Prop where
  graph : index.graph.Ok
  table : index.versionsByKey.Wf
  key_ne_nil : ∀ k m, (k, m) ∈ index.versionsByKey → k ≠ []
  version : ∀ k s i, index.versionsByKey.version k s = some ⟨i, false⟩ →
    i < index.graph.size ∧ index.graph.keyOf i = k
  node : ∀ i, i < index.graph.size →
    ∃! s, index.versionsByKey.version (index.graph.keyOf i) s = some ⟨i, false⟩

structure NodeRecord where
  vector : FloatVector
  metadata : Bytes
  deriving DecidableEq, Repr

/-- What a version records: a tombstone, or a vector and its metadata. -/
def recordOf (index : HNSWIndex) (state : VersionState) : Option NodeRecord :=
  if state.deleted then none
  else some ⟨index.graph.vectorOf state.nodeId, index.graph.metadataOf state.nodeId⟩

def record (index : HNSWIndex) (key : Bytes) (sequence : Nat) : Option (Option NodeRecord) :=
  (index.versionsByKey.version key sequence).map index.recordOf

theorem ok_new {options : HNSWGraphOptions} (h : options.validateOptions = .ok) :
    Ok (new options) where
  graph := HNSWGraph.ok_empty h
  table := wf_nil
  key_ne_nil := by simp [new]
  version k s i hv := by cases hv
  node i hi := absurd hi (Nat.not_lt_zero i)

/-! ## One more version -/

section Step

variable {index : HNSWIndex} {key : Bytes} {sequence : Nat}

theorem emplace_key_ne_nil (hok : Ok index) (hk : key ≠ []) (state : VersionState) (k : Bytes)
    (m : VersionMap) (hm : (k, m) ∈ index.versionsByKey.emplace key sequence state) : k ≠ [] := by
  have hmem : k ∈ (index.versionsByKey.emplace key sequence state).map (·.1) :=
    List.mem_map.mpr ⟨(k, m), hm, rfl⟩
  rcases mem_emplace_key hmem with heq | hold
  · rw [heq]
    exact hk
  · obtain ⟨⟨k', m'⟩, hin, hk'⟩ := List.mem_map.mp hold
    cases hk'
    exact hok.key_ne_nil k' m' hin

theorem Ok.add (hok : Ok index) (hk : key ≠ [])
    (hnew : index.versionsByKey.version key sequence = none) {g : HNSWGraph} (hg : g.Ok)
    {vector : FloatVector} {metadata : Bytes}
    (hadd : HNSWGraph.Added index.graph g vector key metadata) :
    Ok ⟨g, index.versionsByKey.emplace key sequence ⟨index.graph.size, false⟩⟩ where
  graph := hg
  table := hok.table.emplace key sequence _
  key_ne_nil := emplace_key_ne_nil hok hk _
  version := by
    intro k s i hv
    rw [version_emplace hnew] at hv
    have hsize : g.size = index.graph.size + 1 := hadd.size
    split at hv
    · rename_i hks
      cases hv
      exact ⟨by show index.graph.size < g.size; omega, by rw [hks.1]; exact hadd.keyOf_new⟩
    · obtain ⟨hlt, hkey⟩ := hok.version k s i hv
      refine ⟨by show i < g.size; omega, ?_⟩
      exact (hadd.old i hlt).2.1.trans hkey
  node := by
    intro i hi
    have hsize : g.size = index.graph.size + 1 := hadd.size
    have hi' : i < g.size := hi
    by_cases hlast : i = index.graph.size
    · -- the new node: only the version just added names it
      subst hlast
      refine ⟨sequence, ?_, ?_⟩
      · show VersionTable.version _ (g.keyOf index.graph.size) sequence = _
        rw [hadd.keyOf_new, version_emplace hnew, if_pos ⟨rfl, rfl⟩]
      · intro s hs
        have hs' : (index.versionsByKey.emplace key sequence ⟨index.graph.size, false⟩).version
            (g.keyOf index.graph.size) s = some ⟨index.graph.size, false⟩ := hs
        rw [hadd.keyOf_new, version_emplace hnew] at hs'
        split at hs'
        · rename_i h
          exact h.2
        · exact absurd (hok.version key s _ hs').1 (Nat.lt_irrefl _)
    · have hlt : i < index.graph.size := by omega
      have hkey : g.keyOf i = index.graph.keyOf i := (hadd.old i hlt).2.1
      have hsame : ∀ s, (index.versionsByKey.emplace key sequence
          ⟨index.graph.size, false⟩).version (g.keyOf i) s = some ⟨i, false⟩ ↔
          index.versionsByKey.version (index.graph.keyOf i) s = some ⟨i, false⟩ := by
        intro s
        rw [hkey, version_emplace hnew]
        split
        · rename_i h
          constructor
          · intro heq
            cases heq
            exact absurd rfl hlast
          · intro heq
            rw [h.1, h.2, hnew] at heq
            cases heq
        · exact Iff.rfl
      obtain ⟨s, hs, huniq⟩ := hok.node i hlt
      exact ⟨s, (hsame s).mpr hs, fun s' hs' => huniq s' ((hsame s').mp hs')⟩

theorem Ok.delete (hok : Ok index) (hk : key ≠ [])
    (hnew : index.versionsByKey.version key sequence = none) :
    Ok { index with versionsByKey := index.versionsByKey.emplace key sequence ⟨0, true⟩ } := by
  have hsame : ∀ k s i, (index.versionsByKey.emplace key sequence ⟨0, true⟩).version k s =
      some ⟨i, false⟩ ↔ index.versionsByKey.version k s = some ⟨i, false⟩ := by
    intro k s i
    rw [version_emplace hnew]
    split
    · rename_i h
      rw [h.1, h.2, hnew]
      simp
    · exact Iff.rfl
  refine ⟨hok.graph, hok.table.emplace key sequence _, emplace_key_ne_nil hok hk _, ?_, ?_⟩
  · intro k s i hv
    exact hok.version k s i ((hsame k s i).mp hv)
  · intro i hi
    obtain ⟨s, hs, huniq⟩ := hok.node i hi
    exact ⟨s, (hsame _ s i).mpr hs, fun s' hs' => huniq s' ((hsame _ s' i).mp hs')⟩

end Step

/-! ## Insertions and deletions -/

/-- The index after a call: the invariant still holds, under the same options. -/
structure Kept (index index' : HNSWIndex) : Prop where
  ok : Ok index'
  options : index'.options = index.options

theorem Ok.kept {index : HNSWIndex} (h : Ok index) : Kept index index := ⟨h, rfl⟩

theorem Kept.trans {index₁ index₂ index₃ : HNSWIndex} (h : Kept index₁ index₂)
    (h' : Kept index₂ index₃) : Kept index₁ index₃ :=
  ⟨h'.ok, h'.options.trans h.options⟩

section Calls

variable {D : Type} [LinearOrder D] (dist : FloatVector → FloatVector → D)

variable {index : HNSWIndex}

theorem insertVersionLocked_old (index : HNSWIndex) (key : Bytes) (sequence : Nat)
    (vector : FloatVector) (metadata : Bytes) (allow : Bool) (level : Nat)
    (h : index.versionsByKey.version key sequence ≠ none ∨
      (allow = false ∧ (index.versionsByKey.find key).isSome)) :
    (index.insertVersionLocked dist key sequence vector metadata allow level).1 = index := by
  unfold insertVersionLocked
  split
  · rfl
  · rename_i hallowed
    cases hv : index.versionsByKey.version key sequence with
    | none =>
      rcases h with hsome | ⟨hfalse, hkey⟩
      · exact absurd hv hsome
      · rw [hfalse, hkey] at hallowed
        exact absurd rfl hallowed
    | some existing =>
      dsimp only
      split
      · rfl
      · split
        · rfl
        · rfl

variable {level : Nat} {vector : FloatVector}

theorem insertVersionLocked_new (hok : Ok index) {key : Bytes} {sequence : Nat} (metadata : Bytes)
    {allow : Bool} (hlevel : level ≤ kMaximumRandomLevel) (hk : key ≠ [])
    (hv : index.options.validateVector vector = .ok)
    (hallow : allow = true ∨ index.versionsByKey.find key = none)
    (hnew : index.versionsByKey.version key sequence = none) :
    ∃ g : HNSWGraph, g.Ok ∧ HNSWGraph.Added index.graph g vector key metadata ∧
      index.insertVersionLocked dist key sequence vector metadata allow level =
        (⟨g, index.versionsByKey.emplace key sequence ⟨index.graph.size, false⟩⟩, .ok) := by
  obtain ⟨g, hadd, hg, hadded⟩ := HNSWGraph.addNode_ok dist hok.graph metadata hlevel hk hv
  refine ⟨g, hg, hadded, ?_⟩
  have hcond : ¬ (!allow && (index.versionsByKey.find key).isSome) = true := by
    rcases hallow with h | h
    · simp [h]
    · simp [h]
  rw [insertVersionLocked, if_neg hcond, hnew]
  dsimp only
  rw [hadd]

theorem insertVersionLocked_kept (hok : Ok index) {key : Bytes} (sequence : Nat) (metadata : Bytes)
    (allow : Bool) (hlevel : level ≤ kMaximumRandomLevel) (hk : key ≠ [])
    (hv : index.options.validateVector vector = .ok) :
    Kept index (index.insertVersionLocked dist key sequence vector metadata allow level).1 := by
  by_cases hold : index.versionsByKey.version key sequence ≠ none ∨
      (allow = false ∧ (index.versionsByKey.find key).isSome)
  · rw [insertVersionLocked_old dist index key sequence vector metadata allow level hold]
    exact hok.kept
  · obtain ⟨hnew, hallow⟩ := not_or.mp hold
    have hnew' : index.versionsByKey.version key sequence = none := not_not.mp hnew
    have hallow' : allow = true ∨ index.versionsByKey.find key = none := by
      cases allow with
      | true => exact Or.inl rfl
      | false => exact Or.inr (by simpa using hallow)
    obtain ⟨g, hg, hadded, heq⟩ :=
      insertVersionLocked_new dist hok metadata hlevel hk hv hallow' hnew'
    rw [heq]
    exact ⟨hok.add hk hnew' hg hadded, hadded.options⟩

theorem checkInsert_ok {key : Bytes} (h : index.checkInsert key vector = .ok) :
    key ≠ [] ∧ index.options.validateVector vector = .ok := by
  unfold checkInsert at h
  split at h
  · split at h
    · cases h
    · rename_i hk
      exact ⟨hk, h⟩
  · rename_i hne
    exact absurd h hne

theorem insert_kept (hok : Ok index) (key : Bytes) (vector : FloatVector) (metadata : Bytes)
    (hlevel : level ≤ kMaximumRandomLevel) :
    Kept index (index.insert dist key vector metadata level).1 := by
  unfold insert
  split
  · rename_i hcheck
    obtain ⟨hk, hv⟩ := checkInsert_ok hcheck
    exact insertVersionLocked_kept dist hok 0 metadata false hlevel hk hv
  · exact hok.kept

theorem insertVersion_kept (hok : Ok index) (key : Bytes) (sequence : Nat) (vector : FloatVector)
    (metadata : Bytes) (hlevel : level ≤ kMaximumRandomLevel) :
    Kept index (index.insertVersion dist key sequence vector metadata level).1 := by
  unfold insertVersion
  split
  · rename_i hcheck
    obtain ⟨hk, hv⟩ := checkInsert_ok hcheck
    exact insertVersionLocked_kept dist hok sequence metadata true hlevel hk hv
  · exact hok.kept

omit dist in
theorem markDeleted_kept (hok : Ok index) (key : Bytes) (sequence : Nat) :
    Kept index (index.markDeleted key sequence).1 := by
  unfold markDeleted
  split
  · split
    · exact hok.kept
    · rename_i hk
      cases hv : index.versionsByKey.version key sequence with
      | none => exact ⟨hok.delete hk hv, rfl⟩
      | some existing =>
        dsimp only
        split
        · exact hok.kept
        · exact hok.kept
  · exact hok.kept

end Calls

end KvMem.HNSWIndex
