import KvMem.Foundation.MapUnion
import KvMem.Vector.RoundTrip

/-! # Merging index files

`MergeFrom` replays the versions of a loaded index through `MarkDeleted` and
`InsertVersion`. Read as a map from key and sequence number to a tombstone or a vector
with its metadata, the index takes in one entry after the other: a version that is there
stays, and the replayed one has to be the same. New versions get new nodes, so the graphs
of two merges differ, but not the maps.
-/

namespace KvMem.HNSWIndex

open VersionTable MapUnion

/-! ## The same version -/

/-- Two tombstones, or the same metadata and vectors that are equal as numbers. -/
def SameState : Option NodeRecord → Option NodeRecord → Prop
  | none, none => True
  | some a, some b =>
    a.metadata = b.metadata ∧
      List.Forall₂ (fun x y => Float32Bits.equal x y = true) a.vector b.vector
  | none, some _ => False
  | some _, none => False

instance : DecidableRel SameState
  | none, none => inferInstanceAs (Decidable True)
  | some _, some _ => inferInstanceAs (Decidable (_ ∧ _))
  | none, some _ => inferInstanceAs (Decidable False)
  | some _, none => inferInstanceAs (Decidable False)

theorem equal_comm (x y : Float32Bits) : x.equal y = y.equal x := by
  unfold Float32Bits.equal
  simp only [eq_comm, and_comm]

theorem SameState.refl (state : Option NodeRecord) : SameState state state := by
  cases state with
  | none => trivial
  | some record =>
    refine ⟨rfl, List.forall₂_same.mpr fun x _ => ?_⟩
    simp [Float32Bits.equal]

theorem vectorEquals_iff {g : HNSWGraph} {id : Nat} {vector : FloatVector}
    (hlen : vector.length = (g.vectorOf id).length) :
    g.vectorEquals id vector = true ↔
      List.Forall₂ (fun x y => Float32Bits.equal x y = true) (g.vectorOf id) vector := by
  have hflip : List.Forall₂ (fun x y => Float32Bits.equal x y = true) (g.vectorOf id) vector ↔
      List.Forall₂ (fun x y => Float32Bits.equal x y = true) vector (g.vectorOf id) := by
    constructor
    · intro h
      exact h.flip.imp fun x y hxy => by rw [equal_comm]; exact hxy
    · intro h
      exact h.flip.imp fun x y hxy => by rw [equal_comm]; exact hxy
  rw [hflip, HNSWGraph.vectorEquals, List.all_eq_true, List.forall₂_iff_zip]
  constructor
  · intro h
    exact ⟨hlen, fun hmem => h _ hmem⟩
  · rintro ⟨_, h⟩ ⟨x, y⟩ hmem
    exact h hmem

/-! ## One version -/

def records (index : HNSWIndex) (p : Bytes × Nat) : Option (Option NodeRecord) :=
  index.record p.1 p.2

variable {index : HNSWIndex} {sequence : Nat}

theorem records_of_version {key : Bytes} {v : Option VersionState}
    (h : index.versionsByKey.version key sequence = v) :
    index.records (key, sequence) = v.map index.recordOf := by
  rw [← h]
  rfl

theorem records_update (index' : HNSWIndex) {key : Bytes} (state : VersionState)
    (hnew : index.versionsByKey.version key sequence = none)
    (htable : index'.versionsByKey = index.versionsByKey.emplace key sequence state)
    (hold : ∀ k s v, index.versionsByKey.version k s = some v →
      index'.recordOf v = index.recordOf v) :
    index'.records =
      Function.update index.records (key, sequence) (some (index'.recordOf state)) := by
  funext ⟨k, s⟩
  show (index'.versionsByKey.version k s).map index'.recordOf = _
  rw [htable, version_emplace hnew]
  by_cases h : k = key ∧ s = sequence
  · obtain ⟨rfl, rfl⟩ := h
    rw [if_pos ⟨rfl, rfl⟩, Function.update_self, Option.map_some]
  · have hne : (k, s) ≠ (key, sequence) :=
      fun heq => h ⟨congrArg Prod.fst heq, congrArg Prod.snd heq⟩
    rw [if_neg h, Function.update_of_ne hne]
    show _ = (index.versionsByKey.version k s).map index.recordOf
    cases hv : index.versionsByKey.version k s with
    | none => rfl
    | some v => exact congrArg some (hold k s v hv)

/-- What a call has done to the map: the result of an operation on maps, or an error where
that has no result. -/
def Refines (result : HNSWIndex × Status)
    (m : Option (Bytes × Nat → Option (Option NodeRecord))) : Prop :=
  (result.2 = .ok ∧ m = some result.1.records) ∨ (result.2 ≠ .ok ∧ m = none)

section Version

variable {index : HNSWIndex} {key : Bytes} {sequence : Nat}

theorem markDeleted_refines (hok : Ok index) (hk : key ≠ []) :
    Refines (index.markDeleted key sequence)
      (put SameState index.records ((key, sequence), none)) := by
  have hvalid : index.options.validateOptions = .ok := hok.graph.options
  rw [markDeleted, hvalid]
  dsimp only
  rw [if_neg hk, put]
  cases hv : index.versionsByKey.version key sequence with
  | none =>
    rw [records_of_version hv]
    refine Or.inl ⟨rfl, congrArg some ?_⟩
    exact (records_update { index with
      versionsByKey := index.versionsByKey.emplace key sequence ⟨0, true⟩ } ⟨0, true⟩ hv rfl
        fun _ _ _ _ => rfl).symm
  | some existing =>
    rw [records_of_version hv, Option.map_some]
    dsimp only
    cases hdeleted : existing.deleted with
    | true => exact Or.inl ⟨rfl, by simp [recordOf, hdeleted, SameState]⟩
    | false => exact Or.inr ⟨by simp, by simp [recordOf, hdeleted, SameState]⟩

variable {D : Type} [LinearOrder D] (dist : FloatVector → FloatVector → D)

variable {level : Nat}

theorem insertVersion_refines (hok : Ok index) (hk : key ≠ []) {vector : FloatVector}
    (hvector : index.options.validateVector vector = .ok) (metadata : Bytes)
    (hlevel : level ≤ kMaximumRandomLevel) :
    Refines (index.insertVersion dist key sequence vector metadata level)
      (put SameState index.records ((key, sequence), some ⟨vector, metadata⟩)) := by
  have hvalid : index.options.validateOptions = .ok := hok.graph.options
  have hcheck : index.checkInsert key vector = .ok := by
    rw [checkInsert, hvalid]
    dsimp only
    rw [if_neg hk]
    exact hvector
  rw [insertVersion, hcheck, put]
  dsimp only
  cases hv : index.versionsByKey.version key sequence with
  | none =>
    obtain ⟨g, _, hadded, heq⟩ :=
      insertVersionLocked_new dist hok metadata hlevel hk hvector (Or.inl rfl) hv
    rw [records_of_version hv, heq]
    refine Or.inl ⟨rfl, congrArg some ?_⟩
    have hnew : (⟨g, index.versionsByKey.emplace key sequence ⟨index.graph.size, false⟩⟩ :
        HNSWIndex).recordOf ⟨index.graph.size, false⟩ = some ⟨vector, metadata⟩ := by
      show some (⟨g.vectorOf index.graph.size, g.metadataOf index.graph.size⟩ : NodeRecord) = _
      rw [hadded.vectorOf_new, hadded.metadataOf_new]
    rw [← hnew]
    refine (records_update _ _ hv rfl ?_).symm
    intro k s v hversion
    obtain ⟨nodeId, deleted⟩ := v
    cases deleted with
    | true => rfl
    | false =>
      obtain ⟨hvec, _, hmeta⟩ := hadded.old nodeId (hok.version k s nodeId hversion).1
      show some (⟨g.vectorOf nodeId, g.metadataOf nodeId⟩ : NodeRecord) = _
      rw [hvec, hmeta]
      rfl
  | some existing =>
    rw [records_of_version hv, Option.map_some, insertVersionLocked, if_neg (by simp), hv]
    dsimp only
    obtain ⟨nodeId, deleted⟩ := existing
    cases deleted with
    | true => exact Or.inr ⟨by simp, by simp [recordOf, SameState]⟩
    | false =>
      have hlen : vector.length = (index.graph.vectorOf nodeId).length := by
        have hstored := hok.graph.vectors nodeId (hok.version key sequence nodeId hv).1
        rw [HNSWGraph.validateVector_length hvector, HNSWGraph.validateVector_length hstored]
        rfl
      have hsame : SameState (index.recordOf ⟨nodeId, false⟩) (some ⟨vector, metadata⟩) ↔
          index.graph.vectorEquals nodeId vector = true ∧
            index.graph.metadataOf nodeId = metadata := by
        rw [vectorEquals_iff hlen, and_comm]
        rfl
      rw [if_neg (by simp)]
      by_cases h : index.graph.vectorEquals nodeId vector = true ∧
          index.graph.metadataOf nodeId = metadata
      · rw [if_pos h, if_pos (hsame.mpr h)]
        exact Or.inl ⟨rfl, rfl⟩
      · rw [if_neg h, if_neg (mt hsame.mp h)]
        exact Or.inr ⟨by simp, rfl⟩

theorem mergeVersion_refines (hok : Ok index) {loaded : HNSWIndex} (hloaded : Ok loaded)
    (hoptions : loaded.options = index.options) {state : VersionState}
    (hversion : loaded.versionsByKey.version key sequence = some state)
    (hlevel : level ≤ kMaximumRandomLevel) :
    Refines (mergeVersion dist loaded.graph key (sequence, state) level index)
      (put SameState index.records ((key, sequence), loaded.recordOf state)) := by
  obtain ⟨m, hm, _⟩ := (version_eq_some hloaded.table).mp hversion
  have hk := hloaded.key_ne_nil key m hm
  obtain ⟨nodeId, deleted⟩ := state
  cases deleted with
  | true => exact markDeleted_refines hok hk
  | false =>
    have hlt := (hloaded.version key sequence nodeId hversion).1
    have hvector : index.options.validateVector (loaded.graph.vectorOf nodeId) = .ok := by
      rw [← hoptions]
      exact hloaded.graph.vectors nodeId hlt
    rw [mergeVersion, if_neg (by simp), if_neg (Nat.not_le.mpr hlt)]
    exact insertVersion_refines dist hok hk hvector _ hlevel

end Version

/-! A version that is there already. -/

theorem markDeleted_old {key : Bytes} (h : index.versionsByKey.version key sequence ≠ none) :
    (index.markDeleted key sequence).1 = index := by
  unfold markDeleted
  split
  · split
    · rfl
    · cases hv : index.versionsByKey.version key sequence with
      | none => exact absurd hv h
      | some existing =>
        dsimp only
        split
        · rfl
        · rfl
  · rfl

theorem insertVersion_old {D : Type} [LinearOrder D] (dist : FloatVector → FloatVector → D)
    {key : Bytes} (vector : FloatVector) (metadata : Bytes) (level : Nat)
    (h : index.versionsByKey.version key sequence ≠ none) :
    (index.insertVersion dist key sequence vector metadata level).1 = index := by
  unfold insertVersion
  split
  · exact insertVersionLocked_old dist index key sequence vector metadata true level (Or.inl h)
  · rfl

/-! ## All versions -/

section Merge

variable {D : Type} [LinearOrder D] (dist : FloatVector → FloatVector → D)

def entryOf (index : HNSWIndex) (version : Bytes × Nat × VersionState) :
    (Bytes × Nat) × Option NodeRecord :=
  ((version.1, version.2.1), index.recordOf version.2.2)

variable {index loaded : HNSWIndex}

theorem mergeVersions_refines (hok : Ok index) (hloaded : Ok loaded)
    (hoptions : loaded.options = index.options) {levels : Bytes → Nat → Nat}
    (hlevels : ∀ k s, levels k s ≤ kMaximumRandomLevel)
    (versions : List (Bytes × Nat × VersionState))
    (hversions : ∀ v ∈ versions, loaded.versionsByKey.version v.1 v.2.1 = some v.2.2) :
    Refines (mergeVersions dist loaded.graph levels versions index)
      (putAll SameState (versions.map loaded.entryOf) index.records) := by
  induction versions generalizing index with
  | nil => exact Or.inl ⟨rfl, rfl⟩
  | cons e versions ih =>
    obtain ⟨key, sequence, state⟩ := e
    have hfirst := hversions _ List.mem_cons_self
    have hstep := mergeVersion_refines dist hok hloaded hoptions hfirst (hlevels key sequence)
    have hkept := mergeVersion_kept dist hok loaded.graph key (sequence, state)
      (hlevels key sequence)
    rw [mergeVersions, List.map_cons, putAll]
    rcases hstep with ⟨hstatus, hput⟩ | ⟨hstatus, hput⟩
    · split
      · rename_i index' hmerge
        rw [hmerge] at hput hkept
        rw [entryOf, hput, Option.bind_some]
        exact ih hkept.ok (hoptions.trans hkept.options.symm)
          fun v hv => hversions v (List.mem_cons_of_mem _ hv)
      · rename_i hne hmerge
        rw [hmerge] at hstatus
        exact absurd hstatus hne
    · rw [entryOf, hput]
      split
      · rename_i index' hmerge
        rw [hmerge] at hstatus
        exact absurd rfl hstatus
      · rename_i hne hmerge
        exact Or.inr ⟨hne, rfl⟩

omit dist in
theorem lists_records (hok : Ok index) {table : VersionTable}
    (htable : table.Perm index.versionsByKey) :
    Lists index.records ((inOrder table).map index.entryOf) := by
  have hwf := hok.table.perm htable
  refine ⟨?_, ?_⟩
  · rw [List.pairwise_map]
    refine (inOrder_distinct hwf).imp fun hdistinct heq => hdistinct ?_
    exact ⟨(congrArg Prod.fst heq).symm, (congrArg Prod.snd heq).symm⟩
  · rintro ⟨key, sequence⟩ r
    rw [List.mem_map, show index.records (key, sequence) =
      (index.versionsByKey.version key sequence).map index.recordOf from rfl,
      ← version_perm hok.table htable, Option.map_eq_some_iff]
    constructor
    · rintro ⟨v, hv, heq⟩
      cases heq
      exact ⟨v.2.2, (mem_inOrder_iff hwf).mp hv, rfl⟩
    · rintro ⟨v, hv, rfl⟩
      exact ⟨(key, sequence, v), (mem_inOrder_iff hwf).mpr hv, rfl⟩

/-- Versions that are there all leave the index as it is, whether they are the same or not. -/
theorem mergeVersions_present (graph : HNSWGraph) (levels : Bytes → Nat → Nat)
    (versions : List (Bytes × Nat × VersionState))
    (h : ∀ v ∈ versions, index.versionsByKey.version v.1 v.2.1 ≠ none) :
    (mergeVersions dist graph levels versions index).1 = index := by
  induction versions with
  | nil => rfl
  | cons e versions ih =>
    obtain ⟨key, sequence, state⟩ := e
    have hpresent := h _ List.mem_cons_self
    have hstep : (mergeVersion dist graph key (sequence, state) (levels key sequence) index).1 =
        index := by
      unfold mergeVersion
      split
      · exact markDeleted_old hpresent
      · split
        · rfl
        · exact insertVersion_old dist _ _ _ hpresent
    rw [mergeVersions]
    split
    · rename_i index' hmerge
      rw [hmerge] at hstep
      dsimp only at hstep
      subst hstep
      exact ih fun v hv => h v (List.mem_cons_of_mem _ hv)
    · rename_i index' status _ hmerge
      rw [hmerge] at hstep
      exact hstep

/-! ## The file of another index -/

variable {other : HNSWIndex} {order saveOrder : VersionTable → VersionTable}
  {levels : Bytes → Nat → Nat} {file : Bytes}

structure FileOf (other : HNSWIndex) (saveOrder : VersionTable → VersionTable) (file : Bytes) :
    Prop where
  ok : Ok other
  order : ∀ table, (saveOrder table).Perm table
  load : ∀ target : HNSWIndex, target.options = other.options →
    target.load (some file) = (⟨other.graph, saveOrder other.versionsByKey⟩, .ok)

theorem FileOf.mergeFrom_eq (hfile : FileOf other saveOrder file)
    (hoptions : other.options = index.options) :
    index.mergeFrom dist (some file) order levels =
      mergeVersions dist other.graph levels (inOrder (order (saveOrder other.versionsByKey)))
        index := by
  have hload := hfile.load (new index.options) hoptions.symm
  rw [mergeFrom, hload]

theorem FileOf.perm (hfile : FileOf other saveOrder file)
    (horder : ∀ table, (order table).Perm table) :
    (order (saveOrder other.versionsByKey)).Perm other.versionsByKey :=
  (horder _).trans (hfile.order _)

theorem mergeFrom_cases (hok : Ok index) (hfile : FileOf other saveOrder file)
    (hoptions : other.options = index.options) (horder : ∀ table, (order table).Perm table)
    (hlevels : ∀ k s, levels k s ≤ kMaximumRandomLevel) :
    (Compatible SameState index.records other.records ∧
      (index.mergeFrom dist (some file) order levels).2 = .ok ∧
      (index.mergeFrom dist (some file) order levels).1.records =
        union index.records other.records) ∨
    (¬ Compatible SameState index.records other.records ∧
      (index.mergeFrom dist (some file) order levels).2 ≠ .ok) := by
  have htable := hfile.perm horder
  have hversions : ∀ v ∈ inOrder (order (saveOrder other.versionsByKey)),
      other.versionsByKey.version v.1 v.2.1 = some v.2.2 := by
    intro v hv
    rw [← version_perm hfile.ok.table htable]
    exact (mem_inOrder_iff (hfile.ok.table.perm htable)).mp hv
  have hrun := mergeVersions_refines dist hok hfile.ok hoptions hlevels _ hversions
  rw [hfile.mergeFrom_eq dist hoptions]
  rcases putAll_lists SameState index.records (lists_records hfile.ok htable) with
    ⟨hcompatible, hput⟩ | ⟨hdiffer, hput⟩
  · rcases hrun with ⟨hstatus, hsome⟩ | ⟨_, hnone⟩
    · exact Or.inl ⟨hcompatible, hstatus, Option.some.inj (hsome.symm.trans hput)⟩
    · exact absurd (hput.symm.trans hnone) (by simp)
  · rcases hrun with ⟨_, hsome⟩ | ⟨hstatus, _⟩
    · exact absurd (hput.symm.trans hsome) (by simp)
    · exact Or.inr ⟨hdiffer, hstatus⟩

theorem mergeFrom_again (hok : Ok index) (hfile : FileOf other saveOrder file)
    (hoptions : other.options = index.options) (horder : ∀ table, (order table).Perm table)
    (hlevels : ∀ k s, levels k s ≤ kMaximumRandomLevel)
    (hpresent : ∀ p b, other.records p = some b →
      ∃ a, index.records p = some a ∧ SameState a b) :
    index.mergeFrom dist (some file) order levels = (index, .ok) := by
  have hcompatible : Compatible SameState index.records other.records := by
    intro p a b ha hb
    obtain ⟨a', ha', hsame⟩ := hpresent p b hb
    rw [ha'] at ha
    cases ha
    exact hsame
  have hunchanged : (index.mergeFrom dist (some file) order levels).1 = index := by
    have htable := hfile.perm horder
    rw [hfile.mergeFrom_eq dist hoptions]
    refine mergeVersions_present dist _ _ _ fun v hv hnone => ?_
    have hversion := (mem_inOrder_iff (hfile.ok.table.perm htable)).mp hv
    rw [version_perm hfile.ok.table htable] at hversion
    obtain ⟨a, ha, _⟩ := hpresent _ _ (records_of_version hversion)
    rw [records_of_version hnone] at ha
    cases ha
  rcases mergeFrom_cases dist hok hfile hoptions horder hlevels with ⟨_, hstatus, _⟩ | ⟨hdiffer, _⟩
  · exact Prod.ext hunchanged hstatus
  · exact absurd hcompatible hdiffer

/-- Sequence numbers of 64 bits, keys and metadata of any size. -/
def Call.Numbered (c : Call) : Prop := c.Within (fun _ => True) (fun _ => True)

theorem fileOf_saved {options : HNSWGraphOptions} {cs : List Call}
    (hcs : ∀ c ∈ cs, c.Possible ∧ c.Numbered) (hother : other = calls dist (new options) cs)
    (hvectors : other.graph.vectorData.length ≤ maxUInt64)
    (hsaveOrder : ∀ table, (saveOrder table).Perm table) {published : Status}
    (hsave : other.save saveOrder published = .ok file) :
    options.validateOptions = .ok ∧ FileOf other saveOrder file := by
  obtain ⟨hoptions, hrun⟩ := calls_new dist options cs fun c hc => (hcs c hc).1
  rw [← hother] at hoptions hrun
  have hwritten : other.saveFile saveOrder = .ok file := by
    obtain ⟨written, hwritten, hpublished⟩ := Parsing.bind_ok.mp hsave
    split at hpublished
    · cases hpublished
      exact hwritten
    · cases hpublished
  rcases hrun with ⟨hvalid, hok⟩ | ⟨hinvalid, _⟩
  · have hbounded : Bounded (fun _ => True) (fun _ => True) other := by
      rw [hother]
      exact calls_bounded dist (fun _ _ => trivial) (fun _ _ => trivial) (ok_new hvalid)
        (bounded_new options) cs hcs
    obtain ⟨hstorable, hversions⟩ := saveFile_storable hok hbounded hsaveOrder hwritten
    exact ⟨hvalid, hok, hsaveOrder, fun target htarget =>
      load_saved hok hstorable ⟨hvectors, hversions⟩ hsaveOrder hwritten htarget⟩
  · -- under invalid options nothing is saved
    rw [saveFile] at hwritten
    split at hwritten
    · rename_i hvalid
      rw [hoptions] at hvalid
      exact absurd hvalid hinvalid
    · cases hwritten

/-- Merging the file of an index into another one, after any calls on both. It succeeds
exactly when no key has two different states under one sequence number. Then the versions
are those of both, in whatever order the keys are met, and merging the file again changes
nothing. -/
theorem mergeFrom_union {options : HNSWGraphOptions} {cs cs' : List Call}
    (hcs : ∀ c ∈ cs, c.Possible) (hcs' : ∀ c ∈ cs', c.Possible ∧ c.Numbered)
    (hindex : index = calls dist (new options) cs) (hother : other = calls dist (new options) cs')
    (hvectors : other.graph.vectorData.length ≤ maxUInt64)
    (hsaveOrder : ∀ table, (saveOrder table).Perm table) {published : Status}
    (hsave : other.save saveOrder published = .ok file)
    (horder : ∀ table, (order table).Perm table)
    (hlevels : ∀ k s, levels k s ≤ kMaximumRandomLevel) :
    ((index.mergeFrom dist (some file) order levels).2 = .ok ↔
      ∀ key sequence a b, index.record key sequence = some a →
        other.record key sequence = some b → SameState a b) ∧
    ((index.mergeFrom dist (some file) order levels).2 = .ok →
      (∀ key sequence, (index.mergeFrom dist (some file) order levels).1.record key sequence =
        (index.record key sequence).or (other.record key sequence)) ∧
      ∀ order' levels', (∀ table, (order' table).Perm table) →
        (∀ k s, levels' k s ≤ kMaximumRandomLevel) →
        (index.mergeFrom dist (some file) order levels).1.mergeFrom dist (some file) order' levels' =
          ((index.mergeFrom dist (some file) order levels).1, .ok)) := by
  obtain ⟨hvalid, hfile⟩ := fileOf_saved dist hcs' hother hvectors hsaveOrder hsave
  obtain ⟨hotherOptions, _⟩ := calls_new dist options cs' fun c hc => (hcs' c hc).1
  obtain ⟨hindexOptions, hrun⟩ := calls_new dist options cs hcs
  rw [← hother] at hotherOptions
  rw [← hindex] at hindexOptions hrun
  have hok : Ok index := by
    rcases hrun with ⟨_, hok⟩ | ⟨hinvalid, _⟩
    · exact hok
    · exact absurd hvalid hinvalid
  have hoptions : other.options = index.options := hotherOptions.trans hindexOptions.symm
  have hkept := mergeFrom_kept dist hok (some file) order hlevels
  have hagree : Compatible SameState index.records other.records ↔
      ∀ key sequence a b, index.record key sequence = some a →
        other.record key sequence = some b → SameState a b :=
    ⟨fun h key sequence => h (key, sequence), fun h p => h p.1 p.2⟩
  rw [← hagree]
  rcases mergeFrom_cases dist hok hfile hoptions horder hlevels with
    ⟨hcompatible, hstatus, hunion⟩ | ⟨hdiffer, hstatus⟩
  · refine ⟨⟨fun _ => hcompatible, fun _ => hstatus⟩, fun _ => ⟨?_, ?_⟩⟩
    · intro key sequence
      exact congrFun hunion (key, sequence)
    · intro order' levels' horder' hlevels'
      refine mergeFrom_again dist hkept.ok hfile (hoptions.trans hkept.options.symm) horder'
        hlevels' fun p b hb => ?_
      rw [hunion]
      cases ha : index.records p with
      | none => exact ⟨b, by rw [union, ha, hb]; rfl, SameState.refl b⟩
      | some a => exact ⟨a, by rw [union, ha]; rfl, hcompatible p a b ha hb⟩
  · exact ⟨⟨fun h => absurd h hstatus, fun h => absurd h hdiffer⟩, fun h => absurd h hstatus⟩

end Merge

/-- The calls on two indexes that have one version in common, up to the sign of a zero. -/
def negativeZeroCalls : List Call :=
  [.insertVersion (ascii "a") 3 [0x80000000#32] (ascii "m") 1, .insert (ascii "b") [2#32] [] 0]

def positiveZeroCalls : List Call :=
  [.insertVersion (ascii "a") 3 [0#32] (ascii "m") 0, .markDeleted (ascii "gone") 5]

theorem mergeFrom_union_zeros :
    ∃ file, (calls exactL2 (new ⟨1, 2, 1, .kL2⟩) positiveZeroCalls).save List.reverse .ok =
        .ok file ∧
      ((calls exactL2 (new ⟨1, 2, 1, .kL2⟩) negativeZeroCalls).mergeFrom exactL2 (some file)
        List.reverse fun _ _ => 0).1.record (ascii "gone") 5 = some none ∧
      ((calls exactL2 (new ⟨1, 2, 1, .kL2⟩) negativeZeroCalls).mergeFrom exactL2 (some file)
        List.reverse fun _ _ => 0).1.record (ascii "a") 3 =
          some (some ⟨[0x80000000#32], ascii "m"⟩) := by
  have hmerged : ((calls exactL2 (new ⟨1, 2, 1, .kL2⟩) negativeZeroCalls).mergeFrom exactL2
      ((calls exactL2 (new ⟨1, 2, 1, .kL2⟩) positiveZeroCalls).save List.reverse .ok).toOption
        List.reverse fun _ _ => 0).2 = .ok := by
    decide +kernel
  cases hsave : (calls exactL2 (new ⟨1, 2, 1, .kL2⟩) positiveZeroCalls).save List.reverse .ok with
  | error e =>
    have hsaved : ((calls exactL2 (new ⟨1, 2, 1, .kL2⟩) positiveZeroCalls).save List.reverse
        .ok).isOk = true := by
      decide +kernel
    rw [hsave] at hsaved
    cases hsaved
  | ok file =>
    rw [hsave] at hmerged
    have hpossible : ∀ c ∈ negativeZeroCalls ++ positiveZeroCalls,
        c.Possible ∧ c.Numbered := by
      intro c hc
      simp only [negativeZeroCalls, positiveZeroCalls, List.cons_append, List.nil_append,
        List.mem_cons, List.not_mem_nil, or_false] at hc
      rcases hc with rfl | rfl | rfl | rfl <;>
        simp only [Call.Possible, Call.Numbered, Call.Within] <;> decide
    obtain ⟨hrecord, _⟩ := (mergeFrom_union exactL2
      (fun c hc => (hpossible c (List.mem_append_left _ hc)).1)
      (fun c hc => hpossible c (List.mem_append_right _ hc)) rfl rfl (by decide +kernel)
      List.reverse_perm hsave List.reverse_perm (fun _ _ => Nat.zero_le _)).2 hmerged
    refine ⟨file, rfl, ?_, ?_⟩
    · rw [hrecord]
      decide +kernel
    · rw [hrecord]
      decide +kernel

end KvMem.HNSWIndex
