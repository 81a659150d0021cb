import KvMem.Vector.Runs
import KvMem.Vector.Save

/-! # Round trips of index files

Every index that calls can build passes all checks of `Load` once it is saved: each
check follows from the index invariant, and the sizes of keys, metadata and numbers
stay within their fields along any calls. Loading the file gives the same graph and
the same versions.
-/

namespace KvMem.HNSWIndex

open Parsing VersionTable

/-! ## What the fields of a file can hold -/

/-- Numbers fit the fields of a file, and keys and metadata meet conditions: a call is not
refused because of their sizes, only `Save` looks at them. A version that is no tombstone
names a node, so only the number of a tombstone is mentioned. -/
structure Bounded (K M : Bytes → Prop) (index : HNSWIndex) : Prop where
  metadata : ∀ i, i < index.graph.size → M (index.graph.metadataOf i)
  key : ∀ k s v, index.versionsByKey.version k s = some v → K k
  sequence : ∀ k s v, index.versionsByKey.version k s = some v → s ≤ maxUInt64
  tombstone : ∀ k s v, index.versionsByKey.version k s = some v → v.deleted = true →
    v.nodeId ≤ maxUInt64
  entryPoint : index.graph.nodes = [] → index.graph.entryPoint = 0

abbrev Storable (index : HNSWIndex) : Prop :=
  Bounded (·.length ≤ maxUInt32) (·.length ≤ maxUInt32) index

theorem Bounded.storable {K M : Bytes → Prop} {index : HNSWIndex} (h : Bounded K M index)
    (hkey : ∀ k s v, index.versionsByKey.version k s = some v → k.length ≤ maxUInt32)
    (hmetadata : ∀ i, i < index.graph.size → (index.graph.metadataOf i).length ≤ maxUInt32) :
    Storable index :=
  ⟨hmetadata, hkey, h.sequence, h.tombstone, h.entryPoint⟩

variable {K M : Bytes → Prop}

theorem bounded_new (options : HNSWGraphOptions) : Bounded K M (new options) where
  metadata i hi := absurd hi (Nat.not_lt_zero i)
  key k s v hv := by cases hv
  sequence k s v hv := by cases hv
  tombstone k s v hv := by cases hv
  entryPoint _ := rfl

section Step

variable {index : HNSWIndex} {key : Bytes} {sequence : Nat}

theorem Bounded.add (hs : Bounded K M index)
    (hnew : index.versionsByKey.version key sequence = none) {g : HNSWGraph}
    {vector : FloatVector} {metadata : Bytes}
    (hadd : HNSWGraph.Added index.graph g vector key metadata) (hkey : K key)
    (hsequence : sequence ≤ maxUInt64) (hmetadata : M metadata) :
    Bounded K M ⟨g, index.versionsByKey.emplace key sequence ⟨index.graph.size, false⟩⟩ := by
  have hsize : g.size = index.graph.size + 1 := hadd.size
  refine ⟨?_, ?_, ?_, ?_, ?_⟩
  · intro i hi
    have hi' : i < g.size := hi
    show M (g.metadataOf i)
    by_cases hlast : i = index.graph.size
    · rw [hlast, hadd.metadataOf_new]
      exact hmetadata
    · have hlt : i < index.graph.size := by omega
      rw [(hadd.old i hlt).2.2]
      exact hs.metadata i hlt
  · intro k s v hv
    rcases version_emplace_cases hnew hv with ⟨rfl, _, _⟩ | hold
    · exact hkey
    · exact hs.key k s v hold
  · intro k s v hv
    rcases version_emplace_cases hnew hv with ⟨_, rfl, _⟩ | hold
    · exact hsequence
    · exact hs.sequence k s v hold
  · intro k s v hv hdeleted
    rcases version_emplace_cases hnew hv with ⟨_, _, rfl⟩ | hold
    · cases hdeleted
    · exact hs.tombstone k s v hold hdeleted
  · intro hnil
    have hzero : g.size = 0 := by
      rw [HNSWGraph.size, hnil]
      rfl
    omega

theorem Bounded.delete (hs : Bounded K M index)
    (hnew : index.versionsByKey.version key sequence = none) (hkey : K key)
    (hsequence : sequence ≤ maxUInt64) :
    Bounded K M { index with versionsByKey := index.versionsByKey.emplace key sequence ⟨0, true⟩ } := by
  refine ⟨hs.metadata, ?_, ?_, ?_, hs.entryPoint⟩
  · intro k s v hv
    rcases version_emplace_cases hnew hv with ⟨rfl, _, _⟩ | hold
    · exact hkey
    · exact hs.key k s v hold
  · intro k s v hv
    rcases version_emplace_cases hnew hv with ⟨_, rfl, _⟩ | hold
    · exact hsequence
    · exact hs.sequence k s v hold
  · intro k s v hv hdeleted
    rcases version_emplace_cases hnew hv with ⟨_, _, rfl⟩ | hold
    · exact Nat.zero_le _
    · exact hs.tombstone k s v hold hdeleted

end Step

/-! ## Files that were accepted -/

variable {input file : Bytes} {v nodeCount sequence nodeId i : Nat} {n : LoadedNode}
  {nodes : List LoadedNode} {g : HNSWGraph}

theorem readFixed32_le {rest : Bytes} (h : readFixed32 input = .ok (v, rest)) : v ≤ maxUInt32 := by
  unfold readFixed32 at h
  split at h
  · cases h
  · cases h
    exact decodeFixed32_le input

theorem readFixed64_le {rest : Bytes} (h : readFixed64 input = .ok (v, rest)) : v ≤ maxUInt64 := by
  unfold readFixed64 at h
  split at h
  · cases h
  · cases h
    exact decodeFixed64_le input

theorem readString_length_le {value rest : Bytes} (h : readString input = .ok (value, rest)) :
    value.length ≤ maxUInt32 := by
  rw [readString, bind_ok] at h
  obtain ⟨⟨size, rest₁⟩, hsize, h⟩ := h
  obtain ⟨_, _, h⟩ := bind_ok.mp h
  cases h
  exact (List.length_take_le _ _).trans (readFixed32_le hsize)

theorem readNode_metadata {options : HNSWGraphOptions} {index : Nat} {rest : Bytes}
    (h : readNode options nodeCount index input = .ok (n, rest)) :
    n.node.metadata.length ≤ maxUInt32 := by
  rw [readNode, bind_ok] at h
  obtain ⟨⟨nodeId, rest₁⟩, _, h⟩ := h
  obtain ⟨_, _, h⟩ := bind_ok.mp h
  obtain ⟨⟨key, rest₂⟩, _, h⟩ := bind_ok.mp h
  obtain ⟨_, _, h⟩ := bind_ok.mp h
  obtain ⟨⟨sequence, rest₃⟩, _, h⟩ := bind_ok.mp h
  obtain ⟨⟨vector, rest₄⟩, _, h⟩ := bind_ok.mp h
  obtain ⟨_, _, h⟩ := bind_ok.mp h
  obtain ⟨⟨metadata, rest₅⟩, hmetadata, h⟩ := bind_ok.mp h
  obtain ⟨⟨layerCount, rest₆⟩, _, h⟩ := bind_ok.mp h
  obtain ⟨_, _, h⟩ := bind_ok.mp h
  obtain ⟨⟨neighbors, rest₇⟩, _, h⟩ := bind_ok.mp h
  cases h
  exact readString_length_le hmetadata

theorem readVersion_le {key : Bytes} {state : VersionState} {rest : Bytes}
    (h : readVersion nodeCount input = .ok ((key, sequence, state), rest)) :
    key.length ≤ maxUInt32 ∧ sequence ≤ maxUInt64 ∧ state.nodeId ≤ maxUInt64 := by
  rw [readVersion, bind_ok] at h
  obtain ⟨⟨key', rest₁⟩, hkey, h⟩ := h
  obtain ⟨_, _, h⟩ := bind_ok.mp h
  obtain ⟨⟨sequence', rest₂⟩, hsequence, h⟩ := bind_ok.mp h
  obtain ⟨⟨nodeId, rest₃⟩, hnode, h⟩ := bind_ok.mp h
  cases rest₃ with
  | nil => cases h
  | cons tag rest₄ =>
    obtain ⟨_, _, h⟩ := bind_ok.mp h
    obtain ⟨_, _, h⟩ := bind_ok.mp h
    cases h
    exact ⟨readString_length_le (orFail_ok hkey), readFixed64_le hsequence,
      readFixed64_le (orFail_ok hnode)⟩

theorem readVersions_le (count : Nat) {table : VersionTable} {table' : VersionTable} {rest : Bytes}
    (hold : ∀ k s v, table.version k s = some v →
      k.length ≤ maxUInt32 ∧ s ≤ maxUInt64 ∧ v.nodeId ≤ maxUInt64)
    (h : readVersions nodeCount count table input = .ok (table', rest)) :
    ∀ k s v, table'.version k s = some v →
      k.length ≤ maxUInt32 ∧ s ≤ maxUInt64 ∧ v.nodeId ≤ maxUInt64 := by
  induction count generalizing table input with
  | zero =>
    cases h
    exact hold
  | succ count ih =>
    rw [readVersions, bind_ok] at h
    obtain ⟨⟨⟨key, sequence, state⟩, rest₁⟩, hread, h⟩ := h
    obtain ⟨_, hnone, h⟩ := bind_ok.mp h
    refine ih ?_ h
    intro k s v hv
    rw [version_emplace (Option.isNone_iff_eq_none.mp (require_ok hnone))] at hv
    split at hv
    · rename_i hks
      cases hv
      rw [hks.1, hks.2]
      exact readVersion_le hread
    · exact hold k s v hv

theorem parseFile_le {options : HNSWGraphOptions} {header : Header} {table : VersionTable}
    (h : parseFile options file = .ok (header, nodes, table)) :
    (∀ n ∈ nodes, n.node.metadata.length ≤ maxUInt32) ∧
    ∀ k s v, table.version k s = some v →
      k.length ≤ maxUInt32 ∧ s ≤ maxUInt64 ∧ v.nodeId ≤ maxUInt64 := by
  rw [parseFile, bind_ok] at h
  obtain ⟨_, _, h⟩ := h
  obtain ⟨⟨header', rest₁⟩, _, h⟩ := bind_ok.mp h
  obtain ⟨_, _, h⟩ := bind_ok.mp h
  obtain ⟨⟨nodes', rest₂⟩, hnodes, h⟩ := bind_ok.mp h
  obtain ⟨⟨table', rest₃⟩, htable, h⟩ := bind_ok.mp h
  obtain ⟨_, _, h⟩ := bind_ok.mp h
  obtain ⟨_, _, h⟩ := bind_ok.mp h
  obtain ⟨_, _, h⟩ := bind_ok.mp h
  cases h
  refine ⟨?_, readVersions_le header.versionCount (fun k s v hv => by cases hv) htable⟩
  intro n hn
  obtain ⟨j, hj⟩ := List.mem_iff_getElem?.mp hn
  exact (times_ok (P := fun _ n => n.node.metadata.length ≤ maxUInt32)
    (fun _ _ _ _ => readNode_metadata) _ _ _ hnodes).2 j n hj

theorem storable_parsed {options : HNSWGraphOptions} {header : Header} {table : VersionTable}
    (h : parseFile options file = .ok (header, nodes, table)) :
    Storable ⟨installed options header nodes, table⟩ := by
  obtain ⟨hmetadata, hversions⟩ := parseFile_le h
  refine ⟨?_, fun k s v hv => (hversions k s v hv).1, fun k s v hv => (hversions k s v hv).2.1,
    fun k s v hv _ => (hversions k s v hv).2.2, ?_⟩
  · intro i hi
    obtain ⟨n, hn⟩ := exists_node (by simpa using hi : i < nodes.length)
    show ((installed options header nodes).metadataOf i).length ≤ maxUInt32
    rw [HNSWGraph.metadataOf, installed_get, hn]
    exact hmetadata n (List.mem_of_getElem? hn)
  · intro hnil
    have hnodes : nodes = [] := by
      have hlen := congrArg List.length hnil
      rw [show (installed options header nodes).nodes.length = nodes.length from installed_size] at hlen
      exact List.eq_nil_of_length_eq_zero hlen
    exact if_pos hnodes

/-! ## Calls -/

/-- Sequence numbers of 64 bits, and conditions on keys and metadata. -/
def Call.Within (K M : Bytes → Prop) : Call → Prop
  | .insert key _ metadata _ => K key ∧ M metadata
  | .insertVersion key sequence _ metadata _ => K key ∧ M metadata ∧ sequence ≤ maxUInt64
  | .markDeleted key sequence => K key ∧ sequence ≤ maxUInt64
  | .load _ => True
  | .mergeFrom _ _ _ => True

abbrev Call.Sized : Call → Prop :=
  Call.Within (·.length ≤ maxUInt32) (·.length ≤ maxUInt32)

section Calls

variable {D : Type} [LinearOrder D] (dist : FloatVector → FloatVector → D)

variable {index : HNSWIndex}

variable {level : Nat} {metadata : Bytes}

theorem insertVersionLocked_bounded (hok : Ok index) (hs : Bounded K M index) {key : Bytes}
    {sequence : Nat} {vector : FloatVector} (allow : Bool) (hlevel : level ≤ kMaximumRandomLevel)
    (hk : key ≠ []) (hv : index.options.validateVector vector = .ok) (hkey : K key)
    (hsequence : sequence ≤ maxUInt64) (hmetadata : M metadata) :
    Bounded K M (index.insertVersionLocked dist key sequence vector metadata allow level).1 := by
  by_cases hold : index.versionsByKey.version key sequence ≠ none ∨
      (allow = false ∧ (index.versionsByKey.find key).isSome)
  · rw [insertVersionLocked_old dist index key sequence vector metadata allow level hold]
    exact hs
  · obtain ⟨hnew, hallow⟩ := not_or.mp hold
    have hnew' : index.versionsByKey.version key sequence = none := not_not.mp hnew
    have hallow' : allow = true ∨ index.versionsByKey.find key = none := by
      cases allow with
      | true => exact Or.inl rfl
      | false => exact Or.inr (by simpa using hallow)
    obtain ⟨g, _, hadded, heq⟩ :=
      insertVersionLocked_new dist hok metadata hlevel hk hv hallow' hnew'
    rw [heq]
    exact hs.add hnew' hadded hkey hsequence hmetadata

theorem insertVersion_bounded (hok : Ok index) (hs : Bounded K M index) {key : Bytes}
    {sequence : Nat} (vector : FloatVector) (hlevel : level ≤ kMaximumRandomLevel) (hkey : K key)
    (hsequence : sequence ≤ maxUInt64) (hmetadata : M metadata) :
    Bounded K M (index.insertVersion dist key sequence vector metadata level).1 := by
  unfold insertVersion
  split
  · rename_i hcheck
    obtain ⟨hk, hv⟩ := checkInsert_ok hcheck
    exact insertVersionLocked_bounded dist hok hs true hlevel hk hv hkey hsequence hmetadata
  · exact hs

theorem insert_bounded (hok : Ok index) (hs : Bounded K M index) {key : Bytes}
    (vector : FloatVector) (hlevel : level ≤ kMaximumRandomLevel) (hkey : K key)
    (hmetadata : M metadata) : Bounded K M (index.insert dist key vector metadata level).1 := by
  unfold insert
  split
  · rename_i hcheck
    obtain ⟨hk, hv⟩ := checkInsert_ok hcheck
    exact insertVersionLocked_bounded dist hok hs false hlevel hk hv hkey (Nat.zero_le _) hmetadata
  · exact hs

omit dist in
theorem markDeleted_bounded (hs : Bounded K M index) {key : Bytes} {sequence : Nat}
    (hkey : K key) (hsequence : sequence ≤ maxUInt64) :
    Bounded K M (index.markDeleted key sequence).1 := by
  unfold markDeleted
  split
  · split
    · exact hs
    · cases hv : index.versionsByKey.version key sequence with
      | none => exact hs.delete hv hkey hsequence
      | some existing =>
        dsimp only
        split
        · exact hs
        · exact hs
  · exact hs

theorem mergeVersions_bounded (hok : Ok index) (hs : Bounded K M index) {loaded : HNSWIndex}
    (hloaded : Bounded K M loaded) {levels : Bytes → Nat → Nat}
    (hlevels : ∀ k s, levels k s ≤ kMaximumRandomLevel)
    (versions : List (Bytes × Nat × VersionState))
    (hversions : ∀ v ∈ versions, loaded.versionsByKey.version v.1 v.2.1 = some v.2.2) :
    Bounded K M (mergeVersions dist loaded.graph levels versions index).1 := by
  induction versions generalizing index with
  | nil => exact hs
  | cons e versions ih =>
    obtain ⟨key, sequence, state⟩ := e
    have hfirst := hversions _ List.mem_cons_self
    have hkey := hloaded.key key sequence state hfirst
    have hsequence := hloaded.sequence key sequence state hfirst
    have hkept := mergeVersion_kept dist hok loaded.graph key (sequence, state)
      (hlevels key sequence)
    have hstep : Bounded K M (mergeVersion dist loaded.graph key (sequence, state)
        (levels key sequence) index).1 := by
      unfold mergeVersion
      split
      · exact markDeleted_bounded hs hkey hsequence
      · split
        · exact hs
        · rename_i hlt
          exact insertVersion_bounded dist hok hs _ (hlevels key sequence) hkey hsequence
            (hloaded.metadata _ (Nat.lt_of_not_le hlt))
    rw [mergeVersions]
    split
    · rename_i index' hmerge
      rw [hmerge] at hstep hkept
      exact ih hkept.ok hstep fun v hv => hversions v (List.mem_cons_of_mem _ hv)
    · rename_i index' status hmerge
      rw [hmerge] at hstep
      exact hstep

omit dist in
theorem mem_inOrder_iff {table : VersionTable} (hwf : Wf table)
    {version : Bytes × Nat × VersionState} :
    version ∈ inOrder table ↔ table.version version.1 version.2.1 = some version.2.2 := by
  rw [mem_inOrder, version_eq_some hwf]

section Files

/-! What a file can hold meets the conditions. -/

variable (hK : ∀ key : Bytes, key.length ≤ maxUInt32 → K key)
  (hM : ∀ metadata : Bytes, metadata.length ≤ maxUInt32 → M metadata)

include hK hM

omit dist in
theorem load_bounded (hs : Bounded K M index) (file : Option Bytes) :
    Bounded K M (index.load file).1 := by
  rcases load_cases index file with hold | ⟨_, _, _, _, _, _, hparse, heq⟩
  · rw [hold.1]
    exact hs
  · rw [heq]
    have hloaded := storable_parsed hparse
    exact ⟨fun i hi => hM _ (hloaded.metadata i hi), fun k s v hv => hK k (hloaded.key k s v hv),
      hloaded.sequence, hloaded.tombstone, hloaded.entryPoint⟩

theorem mergeFrom_bounded (hok : Ok index) (hs : Bounded K M index) (file : Option Bytes)
    {order : VersionTable → VersionTable} (horder : ∀ table, (order table).Perm table)
    {levels : Bytes → Nat → Nat} (hlevels : ∀ k s, levels k s ≤ kMaximumRandomLevel) :
    Bounded K M (index.mergeFrom dist file order levels).1 := by
  unfold mergeFrom
  split
  · rename_i loaded hload
    have hloaded : Bounded K M loaded := by
      have h := load_bounded hK hM (bounded_new index.options) file
      rwa [hload] at h
    have hwf : Wf loaded.versionsByKey := by
      have h := (load_kept (ok_new hok.graph.options) file).ok.table
      rwa [show (new index.graph.options).load file = (loaded, .ok) from hload] at h
    refine mergeVersions_bounded dist hok hs hloaded hlevels _ fun v hv => ?_
    have hin := (mem_inOrder_iff (hwf.perm (horder _))).mp hv
    rwa [version_perm hwf (horder _)] at hin
  · exact hs

theorem call_bounded (hok : Ok index) (hs : Bounded K M index) {c : Call} (hc : c.Possible)
    (hwithin : c.Within K M) : Bounded K M (index.call dist c).1 := by
  cases c with
  | insert key vector metadata level =>
    exact insert_bounded dist hok hs vector hc hwithin.1 hwithin.2
  | insertVersion key sequence vector metadata level =>
    exact insertVersion_bounded dist hok hs vector hc hwithin.1 hwithin.2.2 hwithin.2.1
  | markDeleted key sequence => exact markDeleted_bounded hs hwithin.1 hwithin.2
  | load file => exact load_bounded hK hM hs file
  | mergeFrom file order levels => exact mergeFrom_bounded dist hK hM hok hs file hc.1 hc.2

theorem calls_bounded (hok : Ok index) (hs : Bounded K M index) (cs : List Call)
    (hcs : ∀ c ∈ cs, c.Possible ∧ c.Within K M) : Bounded K M (calls dist index cs) := by
  induction cs generalizing index with
  | nil => exact hs
  | cons c cs ih =>
    obtain ⟨hc, hwithin⟩ := hcs c List.mem_cons_self
    exact ih (call_kept dist hok hc).ok (call_bounded dist hK hM hok hs hc hwithin)
      fun c' hc' => hcs c' (List.mem_cons_of_mem _ hc')

end Files

theorem calls_storable {options : HNSWGraphOptions} (hvalid : options.validateOptions = .ok)
    (cs : List Call) (hcs : ∀ c ∈ cs, c.Possible ∧ c.Sized) :
    Storable (calls dist (new options) cs) :=
  calls_bounded dist (fun _ h => h) (fun _ h => h) (ok_new hvalid) (bounded_new options) cs hcs

end Calls

/-! ## The records of an index -/

theorem sequenceOfNode_concat (versions : List (Bytes × Nat × VersionState))
    (version : Bytes × Nat × VersionState) :
    sequenceOfNode (versions ++ [version]) =
      if version.2.2.deleted then sequenceOfNode versions
      else OrderedMap.emplace version.2.2.nodeId version.2.1 (sequenceOfNode versions) := by
  rw [sequenceOfNode, List.foldl_append]
  rfl

theorem sequenceOfNode_ascending (versions : List (Bytes × Nat × VersionState)) :
    OrderedMap.Ascending (sequenceOfNode versions) := by
  induction versions using List.reverseRecOn with
  | nil => exact OrderedMap.ascending_nil
  | append_singleton versions version ih =>
    rw [sequenceOfNode_concat]
    split
    · exact ih
    · exact OrderedMap.ascending_emplace ih _ _

theorem of_mem_sequenceOfNode (versions : List (Bytes × Nat × VersionState))
    (h : (nodeId, sequence) ∈ sequenceOfNode versions) :
    ∃ key, (key, sequence, ⟨nodeId, false⟩) ∈ versions := by
  induction versions using List.reverseRecOn with
  | nil => cases h
  | append_singleton versions version ih =>
    have hold : (nodeId, sequence) ∈ sequenceOfNode versions →
        ∃ key, (key, sequence, ⟨nodeId, false⟩) ∈ versions ++ [version] := by
      intro hmem
      obtain ⟨key, hkey⟩ := ih hmem
      exact ⟨key, List.mem_append_left _ hkey⟩
    rw [sequenceOfNode_concat] at h
    split at h
    · exact hold h
    · rename_i hlive
      rcases OrderedMap.mem_emplace h with heq | hmem
      · obtain ⟨key, s, id, deleted⟩ := version
        obtain rfl : deleted = false := by simpa using hlive
        cases heq
        exact ⟨key, List.mem_append_right _ List.mem_cons_self⟩
      · exact hold hmem

theorem mem_keys_sequenceOfNode (versions : List (Bytes × Nat × VersionState)) {key : Bytes}
    (h : (key, sequence, ⟨nodeId, false⟩) ∈ versions) :
    nodeId ∈ (sequenceOfNode versions).map (·.1) := by
  induction versions using List.reverseRecOn with
  | nil => cases h
  | append_singleton versions version ih =>
    rw [sequenceOfNode_concat]
    rcases List.mem_append.mp h with hold | hlast
    · split
      · exact ih hold
      · exact OrderedMap.mem_keys_emplace.mpr (Or.inr (ih hold))
    · cases List.mem_singleton.mp hlast
      exact OrderedMap.mem_keys_emplace.mpr (Or.inl rfl)

def storedNode (g : HNSWGraph) (sequences : List (Nat × Nat)) (nodeId : Nat) : LoadedNode where
  sequence := (OrderedMap.find sequences nodeId).getD 0
  vector := g.vectorOf nodeId
  node := ⟨g.keyOf nodeId, g.metadataOf nodeId,
    (List.range (g.levelCount nodeId)).map (g.neighborsOf nodeId)⟩

def storedNodes (g : HNSWGraph) (sequences : List (Nat × Nat)) : List LoadedNode :=
  (List.range g.size).map (storedNode g sequences)

@[simp] theorem storedNode_layers (g : HNSWGraph) (sequences : List (Nat × Nat)) (nodeId : Nat) :
    (storedNode g sequences nodeId).node.neighbors.length = g.levelCount nodeId := by
  simp [storedNode]

theorem storedNode_layer {sequences : List (Nat × Nat)} {layer : Nat} {ns : List Nat}
    (h : (storedNode g sequences nodeId).node.neighbors[layer]? = some ns) :
    layer < g.levelCount nodeId ∧ ns = g.neighborsOf nodeId layer := by
  have hlt : layer < g.levelCount nodeId := by
    have hbound := (List.getElem?_eq_some_iff.mp h).1
    rwa [storedNode_layers] at hbound
  rw [storedNode, List.getElem?_map, List.getElem?_range hlt, Option.map_some] at h
  exact ⟨hlt, (Option.some.inj h).symm⟩

theorem storedNodes_get (sequences : List (Nat × Nat)) (hi : i < g.size) :
    (storedNodes g sequences)[i]? = some (storedNode g sequences i) := by
  rw [storedNodes, List.getElem?_map, List.getElem?_range hi]
  rfl

theorem storedNodes_get_some {sequences : List (Nat × Nat)}
    (h : (storedNodes g sequences)[i]? = some n) : i < g.size ∧ n = storedNode g sequences i := by
  have hi : i < g.size := by
    have hlt := (List.getElem?_eq_some_iff.mp h).1
    simpa [storedNodes] using hlt
  rw [storedNodes_get sequences hi] at h
  exact ⟨hi, (Option.some.inj h).symm⟩

theorem inOrder_cons_length (key : Bytes) (versions : VersionMap) (table : VersionTable) :
    (inOrder ((key, versions) :: table)).length = versions.length + (inOrder table).length := by
  show (versions.map (fun version => (key, version)) ++ inOrder table).length = _
  rw [List.length_append, List.length_map]

theorem countVersions_ok (table : VersionTable) (count : Nat)
    (hkeys : ∀ k m, (k, m) ∈ table → k.length ≤ maxUInt32)
    (hcount : count + (inOrder table).length ≤ maxUInt64) :
    countVersions count table = .ok (count + (inOrder table).length) := by
  induction table generalizing count with
  | nil => rfl
  | cons e table ih =>
    obtain ⟨key, versions⟩ := e
    have hlen := inOrder_cons_length key versions table
    rw [hlen] at hcount ⊢
    have hfits : key.length ≤ maxUInt32 ∧ versions.length ≤ maxUInt64 - count :=
      ⟨hkeys key versions List.mem_cons_self, by omega⟩
    rw [countVersions, require_of_true (decide_eq_true hfits), ok_bind,
      ih _ (fun k m hm => hkeys k m (List.mem_cons_of_mem _ hm)) (by omega), Nat.add_assoc]

theorem countVersions_le (table : VersionTable) {count total : Nat} (hcount : count ≤ maxUInt64)
    (h : countVersions count table = .ok total) :
    (∀ k m, (k, m) ∈ table → k.length ≤ maxUInt32) ∧
      count + (inOrder table).length ≤ maxUInt64 := by
  induction table generalizing count with
  | nil => exact ⟨by simp, hcount⟩
  | cons e table ih =>
    obtain ⟨key, versions⟩ := e
    have hlen := inOrder_cons_length key versions table
    rw [countVersions, bind_ok] at h
    obtain ⟨_, hfits, h⟩ := h
    obtain ⟨hkey, hversions⟩ := of_decide_eq_true (require_ok hfits)
    obtain ⟨hkeys, htotal⟩ := ih (by omega) h
    refine ⟨?_, by omega⟩
    intro k m hm
    rcases List.mem_cons.mp hm with heq | hm
    · cases heq
      exact hkey
    · exact hkeys k m hm

theorem saveNode_le {sequences : List (Nat × Nat)} {bytes : Bytes}
    (h : saveNode g sequences nodeId = .ok bytes) : (g.metadataOf nodeId).length ≤ maxUInt32 := by
  rw [saveNode, bind_ok] at h
  obtain ⟨_, hfits, _⟩ := h
  exact (of_decide_eq_true (require_ok hfits)).2

/-! ## The file of an index -/

/-- What `size_t` can count: the components of all vectors and the versions. -/
structure Addressable (index : HNSWIndex) : Prop where
  vectors : index.graph.vectorData.length ≤ maxUInt64
  versions : (inOrder index.versionsByKey).length ≤ maxUInt64

section Saved

variable {index : HNSWIndex} {table : VersionTable}

section

variable (hok : Ok index)

include hok

theorem sequenceOfNode_key_iff (htable : table.Perm index.versionsByKey) (nodeId : Nat) :
    nodeId ∈ (sequenceOfNode (inOrder table)).map (·.1) ↔ nodeId < index.graph.size := by
  have hwf := hok.table.perm htable
  constructor
  · intro hmem
    obtain ⟨⟨id, sequence⟩, hin, rfl⟩ := List.mem_map.mp hmem
    obtain ⟨key, hkey⟩ := of_mem_sequenceOfNode _ hin
    have hversion := (mem_inOrder_iff hwf).mp hkey
    rw [version_perm hok.table htable] at hversion
    exact (hok.version key sequence id hversion).1
  · intro hlt
    obtain ⟨sequence, hversion, _⟩ := hok.node nodeId hlt
    have hin : (index.graph.keyOf nodeId, sequence, (⟨nodeId, false⟩ : VersionState)) ∈
        inOrder table := by
      rw [mem_inOrder_iff hwf, version_perm hok.table htable]
      exact hversion
    exact mem_keys_sequenceOfNode _ hin

theorem sequenceOfNode_length (htable : table.Perm index.versionsByKey) :
    (sequenceOfNode (inOrder table)).length = index.graph.size := by
  have hnodup : ((sequenceOfNode (inOrder table)).map (·.1)).Nodup := by
    rw [List.Nodup, List.pairwise_map]
    exact (sequenceOfNode_ascending _).imp fun hlt => hlt.ne
  have hperm : ((sequenceOfNode (inOrder table)).map (·.1)).Perm (List.range index.graph.size) := by
    rw [List.perm_ext_iff_of_nodup hnodup List.nodup_range]
    intro nodeId
    rw [sequenceOfNode_key_iff hok htable, List.mem_range]
  rw [← List.length_map, hperm.length_eq, List.length_range]

theorem sequenceOfNode_find (htable : table.Perm index.versionsByKey)
    {nodeId : Nat} (h : nodeId < index.graph.size) :
    ∃ sequence, OrderedMap.find (sequenceOfNode (inOrder table)) nodeId = some sequence ∧
      index.versionsByKey.version (index.graph.keyOf nodeId) sequence = some ⟨nodeId, false⟩ := by
  obtain ⟨⟨id, sequence⟩, hin, heq⟩ :=
    List.mem_map.mp ((sequenceOfNode_key_iff hok htable nodeId).mpr h)
  cases heq
  obtain ⟨key, hkey⟩ := of_mem_sequenceOfNode _ hin
  have hversion := (mem_inOrder_iff (hok.table.perm htable)).mp hkey
  rw [version_perm hok.table htable] at hversion
  refine ⟨sequence, OrderedMap.find_of_mem (sequenceOfNode_ascending _).nodup hin, ?_⟩
  rw [(hok.version key sequence id hversion).2]
  exact hversion

theorem Storable.key_le (hs : Storable index) {nodeId : Nat}
    (h : nodeId < index.graph.size) : (index.graph.keyOf nodeId).length ≤ maxUInt32 := by
  obtain ⟨sequence, hversion, _⟩ := hok.node nodeId h
  exact hs.key _ sequence _ hversion

theorem Ok.levelCount_le (nodeId : Nat) :
    index.graph.levelCount nodeId ≤ kMaximumRandomLevel + 1 := by
  by_cases h : nodeId < index.graph.size
  · have hget : index.graph.nodes[nodeId]? = some index.graph.nodes[nodeId] :=
      List.getElem?_eq_getElem h
    rw [HNSWGraph.levelCount, hget, Option.map_some, Option.getD_some]
    exact (hok.graph.node nodeId _ hget).2.2.2.2
  · rw [HNSWGraph.levelCount_of_ge (Nat.le_of_not_lt h)]
    exact Nat.zero_le _

theorem saveNode_ok (hs : Storable index)
    (htable : table.Perm index.versionsByKey) {nodeId : Nat} (h : nodeId < index.graph.size) :
    saveNode index.graph (sequenceOfNode (inOrder table)) nodeId =
      .ok (nodeBytes nodeId (storedNode index.graph (sequenceOfNode (inOrder table)) nodeId)) := by
  obtain ⟨sequence, hfind, _⟩ := sequenceOfNode_find hok htable h
  have hlayers : emitAll (saveLayer index.graph nodeId)
      (List.range (index.graph.levelCount nodeId)) =
        .ok (((List.range (index.graph.levelCount nodeId)).map
          (index.graph.neighborsOf nodeId)).flatMap layerBytes) := by
    rw [List.flatMap_map]
    refine emitAll_ok _ fun level hlevel => ?_
    have hlimit := (hok.graph.links nodeId level (List.mem_range.mp hlevel)).length_le
    rw [saveLayer, require_of_true (decide_eq_true
      (hlimit.trans (neighborLimit_le hok.graph.options level))), ok_bind]
    rfl
  rw [saveNode, require_of_true (decide_eq_true ⟨hs.key_le hok h, hs.metadata nodeId h⟩), ok_bind,
    require_of_true (decide_eq_true (hok.levelCount_le nodeId)), ok_bind, hfind]
  dsimp only
  rw [hlayers, ok_bind, nodeBytes, storedNode_layers]
  simp only [storedNode, hfind, Option.getD_some]
  rfl

theorem saveFile_eq (hs : Storable index) (ha : Addressable index)
    {order : VersionTable → VersionTable} (horder : ∀ table, (order table).Perm table) :
    index.saveFile order = .ok (fileBytes
      (savedHeader index.graph (inOrder (order index.versionsByKey)).length)
      (recordBytes (storedNodes index.graph
        (sequenceOfNode (inOrder (order index.versionsByKey)))) (order index.versionsByKey))) := by
  have htable := horder index.versionsByKey
  have hnodes : emitAll (saveNode index.graph
      (sequenceOfNode (inOrder (order index.versionsByKey)))) (List.range index.graph.size) =
        .ok (emitFrom nodeBytes 0 (storedNodes index.graph
          (sequenceOfNode (inOrder (order index.versionsByKey))))) := by
    rw [storedNodes, List.range_eq_range', emitFrom_range]
    exact emitAll_ok _ fun nodeId hmem => saveNode_ok hok hs htable (by
      rw [← List.range_eq_range'] at hmem
      exact List.mem_range.mp hmem)
  have hcount : countVersions 0 (order index.versionsByKey) =
      .ok (inOrder (order index.versionsByKey)).length := by
    have hlen : (inOrder (order index.versionsByKey)).length =
        (inOrder index.versionsByKey).length := (htable.flatMap_right _).length_eq
    have hle := ha.versions
    have h := countVersions_ok (order index.versionsByKey) 0 (fun k m hm => by
      obtain ⟨⟨s, v⟩, hv⟩ := List.exists_mem_of_ne_nil m
        ((hok.table.perm htable).versions k m hm).2
      have hversion := (version_eq_some (hok.table.perm htable)).mpr ⟨m, hm, hv⟩
      rw [version_perm hok.table htable] at hversion
      exact hs.key k s v hversion) (by omega)
    rwa [Nat.zero_add] at h
  have hvalid : index.options.validateOptions = .ok := hok.graph.options
  rw [saveFile, hvalid]
  dsimp only
  rw [require_of_true (decide_eq_true (sequenceOfNode_length hok htable)), ok_bind, hnodes, ok_bind,
    hcount, ok_bind]
  rfl

theorem saveFile_storable (hb : Bounded K M index)
    {order : VersionTable → VersionTable} (horder : ∀ table, (order table).Perm table)
    {file : Bytes} (h : index.saveFile order = .ok file) :
    Storable index ∧ (inOrder index.versionsByKey).length ≤ maxUInt64 := by
  have htable := horder index.versionsByKey
  have hvalid : index.options.validateOptions = .ok := hok.graph.options
  rw [saveFile, hvalid] at h
  obtain ⟨_, _, h⟩ := bind_ok.mp h
  obtain ⟨nodes, hnodes, h⟩ := bind_ok.mp h
  obtain ⟨count, hcount, _⟩ := bind_ok.mp h
  obtain ⟨hkeys, htotal⟩ := countVersions_le (order index.versionsByKey) (Nat.zero_le _) hcount
  refine ⟨hb.storable ?_ ?_, ?_⟩
  · intro k s v hv
    obtain ⟨m, hm, _⟩ := (version_eq_some hok.table).mp hv
    exact hkeys k m (htable.mem_iff.mpr hm)
  · intro i hi
    obtain ⟨bytes, hnode⟩ := emitAll_each hnodes i (List.mem_range.mpr hi)
    exact saveNode_le hnode
  · rw [show (inOrder index.versionsByKey).length = (inOrder (order index.versionsByKey)).length from
      (htable.symm.flatMap_right _).length_eq]
    omega

/-! Each check of `Load` follows from the invariant. -/

theorem Ok.top_cases : (index.graph.size = 0 ∧ index.graph.maxLevel = -1) ∨
    (index.graph.entryPoint < index.graph.size ∧ ∃ top : Nat, index.graph.maxLevel = top ∧
      index.graph.levelCount index.graph.entryPoint = top + 1 ∧
      ∀ i, index.graph.levelCount i ≤ top + 1) := by
  rcases hok.graph.top with ⟨hnil, hlevel⟩ | ⟨top, hlevel, hentry, hall⟩
  · left
    rw [HNSWGraph.size, hnil]
    exact ⟨rfl, hlevel⟩
  · right
    have hpos : 0 < index.graph.levelCount index.graph.entryPoint := by omega
    exact ⟨HNSWGraph.lt_size_of_levelCount hpos, top, hlevel, hentry, hall⟩

end

theorem toInt32_toUInt32 {level : Int} (hlow : -1 ≤ level) (hhigh : level ≤ kMaximumRandomLevel) :
    toInt32 (toUInt32 level) = level := by
  unfold kMaximumRandomLevel at hhigh
  unfold toInt32 toUInt32
  split
  · omega
  · omega

theorem Ok.maxLevel_bounds (hok : Ok index) :
    -1 ≤ index.graph.maxLevel ∧ index.graph.maxLevel ≤ kMaximumRandomLevel := by
  rcases hok.top_cases with ⟨_, hlevel⟩ | ⟨_, top, hlevel, hentry, _⟩
  · rw [hlevel]
    exact ⟨le_rfl, by decide⟩
  · have hle := hok.levelCount_le index.graph.entryPoint
    omega

theorem savedHeader_encodedLevel (hok : Ok index) (count : Nat) :
    (savedHeader index.graph count).encodedLevel = index.graph.maxLevel :=
  toInt32_toUInt32 hok.maxLevel_bounds.1 hok.maxLevel_bounds.2

theorem actualMaxLevel_le (nodes : List LoadedNode) {bound : Int} (hbound : -1 ≤ bound)
    (h : ∀ n ∈ nodes, (n.node.neighbors.length : Int) - 1 ≤ bound) : actualMaxLevel nodes ≤ bound := by
  have hfold : ∀ (nodes : List LoadedNode) (level : Int), level ≤ bound →
      (∀ n ∈ nodes, (n.node.neighbors.length : Int) - 1 ≤ bound) →
      nodes.foldl (fun level n => max level ((n.node.neighbors.length : Int) - 1)) level ≤ bound := by
    intro nodes
    induction nodes with
    | nil =>
      intro level hlevel _
      exact hlevel
    | cons a nodes ih =>
      intro level hlevel hall
      rw [List.foldl_cons]
      exact ih _ (max_le hlevel (hall a List.mem_cons_self))
        fun n hn => hall n (List.mem_cons_of_mem _ hn)
  exact hfold nodes (-1) hbound h

theorem actualMaxLevel_stored (hok : Ok index) (sequences : List (Nat × Nat)) :
    actualMaxLevel (storedNodes index.graph sequences) = index.graph.maxLevel := by
  rcases hok.top_cases with ⟨hsize, hlevel⟩ | ⟨hlt, top, hlevel, hentry, hall⟩
  · rw [storedNodes, hsize, hlevel]
    rfl
  · have hge := le_actualMaxLevel _ (List.mem_of_getElem? (storedNodes_get sequences hlt))
    rw [storedNode_layers, hentry] at hge
    have hle : actualMaxLevel (storedNodes index.graph sequences) ≤ top := by
      refine actualMaxLevel_le _ (by omega) fun n hn => ?_
      obtain ⟨i, hi⟩ := List.mem_iff_getElem?.mp hn
      obtain ⟨_, rfl⟩ := storedNodes_get_some hi
      have hcount := hall i
      rw [storedNode_layers]
      omega
    omega

theorem checked_saved (hok : Ok index) (htable : table.Perm index.versionsByKey) (count : Nat) :
    GraphChecked (savedHeader index.graph count)
      (storedNodes index.graph (sequenceOfNode (inOrder table))) table where
  registered := by
    intro i n hn
    obtain ⟨hi, rfl⟩ := storedNodes_get_some hn
    obtain ⟨sequence, hfind, hversion⟩ := sequenceOfNode_find hok htable hi
    rw [version_perm hok.table htable]
    simp only [storedNode, hfind, Option.getD_some]
    exact hversion
  layer := by
    intro i n layer ns hn hns
    obtain ⟨hi, rfl⟩ := storedNodes_get_some hn
    obtain ⟨hlayer, rfl⟩ := storedNode_layer hns
    have hlinks := hok.graph.links i layer hlayer
    refine ⟨hlinks.nodup, fun j hj => ⟨?_, ?_⟩⟩
    · rintro rfl
      exact hlinks.no_self hj
    · have hj' := hlinks.exist j hj
      refine ⟨_, storedNodes_get _ (HNSWGraph.lt_size_of_levelCount hj'), ?_⟩
      rw [storedNode_layers]
      exact hj'
  maxLevel := by
    rw [actualMaxLevel_stored hok, savedHeader_encodedLevel hok]
  entry := by
    intro hcount
    rcases hok.top_cases with ⟨hsize, _⟩ | ⟨hlt, top, hlevel, hentry, _⟩
    · exact absurd hsize hcount
    · refine ⟨_, storedNodes_get _ hlt, ?_⟩
      rw [storedNode_layers, savedHeader_encodedLevel hok]
      show (index.graph.levelCount index.graph.entryPoint : Int) = index.graph.maxLevel + 1
      omega
  refers := by
    intro k m s v hm hv hlive
    obtain ⟨nodeId, deleted⟩ := v
    obtain rfl : deleted = false := hlive
    have hversion := (version_eq_some (hok.table.perm htable)).mpr ⟨m, hm, hv⟩
    rw [version_perm hok.table htable] at hversion
    obtain ⟨hlt, hkey⟩ := hok.version k s nodeId hversion
    refine ⟨_, storedNodes_get _ hlt, hkey, ?_⟩
    obtain ⟨sequence, hfind, hfound⟩ := sequenceOfNode_find hok htable hlt
    obtain ⟨_, _, hunique⟩ := hok.node nodeId hlt
    simp only [storedNode, hfind, Option.getD_some]
    rw [hunique sequence hfound, hunique s (hkey ▸ hversion)]

theorem parsed_saved (hok : Ok index) (htable : table.Perm index.versionsByKey) (count : Nat) :
    Parsed index.options (savedHeader index.graph count)
      (storedNodes index.graph (sequenceOfNode (inOrder table))) table where
  count := by
    rw [storedNodes, List.length_map, List.length_range]
    rfl
  node_ok := by
    intro n hn
    obtain ⟨i, hi⟩ := List.mem_iff_getElem?.mp hn
    obtain ⟨hlt, rfl⟩ := storedNodes_get_some hi
    have hget : index.graph.nodes[i]? = some index.graph.nodes[i] := List.getElem?_eq_getElem hlt
    have hkey : index.graph.keyOf i ≠ [] := by
      rw [HNSWGraph.keyOf, hget]
      exact (hok.graph.node i _ hget).2.1
    refine ⟨hkey, hok.graph.vectors i hlt, ?_, ?_, ?_⟩
    · rw [storedNode_layers]
      exact hok.graph.levelCount_pos hlt
    · rw [storedNode_layers]
      exact hok.levelCount_le i
    · intro layer ns hns
      obtain ⟨hlayer, rfl⟩ := storedNode_layer hns
      exact (hok.graph.links i layer hlayer).length_le
  table_wf := hok.table.perm htable
  keys := by
    intro k hk
    obtain ⟨⟨k', m⟩, hm, rfl⟩ := List.mem_map.mp hk
    exact hok.key_ne_nil k' m (htable.mem_iff.mp hm)
  empty := by
    intro hcount
    rw [savedHeader_encodedLevel hok]
    rcases hok.top_cases with ⟨_, hlevel⟩ | ⟨hlt, _⟩
    · exact hlevel
    · rw [show index.graph.size = 0 from hcount] at hlt
      exact absurd hlt (Nat.not_lt_zero _)
  nonempty := by
    intro hcount
    rw [savedHeader_encodedLevel hok]
    rcases hok.top_cases with ⟨hsize, _⟩ | ⟨hlt, top, hlevel, _⟩
    · exact absurd hsize hcount
    · exact ⟨hlevel ▸ Int.natCast_nonneg top, hlt⟩
  checked := checked_saved hok htable count

theorem fits_saved (hok : Ok index) (hs : Storable index) (ha : Addressable index)
    (htable : table.Perm index.versionsByKey) :
    Fits index.options (savedHeader index.graph (inOrder table).length)
      (storedNodes index.graph (sequenceOfNode (inOrder table))) table := by
  have hvectors : index.graph.size * index.graph.options.dimension ≤ maxUInt64 := by
    rw [← hok.graph.vectorData_length]
    exact ha.vectors
  have hpos := (HNSWGraph.validateOptions_ok hok.graph.options).1
  have hsize : index.graph.size ≤ maxUInt64 :=
    (Nat.le_mul_of_pos_right _ hpos).trans hvectors
  have hlevel : toUInt32 index.graph.maxLevel ≤ maxUInt32 := by
    unfold toUInt32 maxUInt32
    omega
  have hentry : index.graph.entryPoint ≤ maxUInt64 := by
    rcases hok.top_cases with ⟨hzero, _⟩ | ⟨hlt, _⟩
    · rw [hs.entryPoint (List.eq_nil_of_length_eq_zero hzero)]
      exact Nat.zero_le _
    · exact hlt.le.trans hsize
  have hversions : (inOrder table).length ≤ maxUInt64 := by
    rw [show (inOrder table).length = (inOrder index.versionsByKey).length from
      (htable.flatMap_right _).length_eq]
    exact ha.versions
  refine ⟨hok.graph.options, rfl, rfl, rfl, rfl, hlevel, ?_, hentry, hvectors, rfl, hversions, ?_, ?_⟩
  · rw [savedHeader_encodedLevel hok]
    exact hok.maxLevel_bounds.2
  · intro n hn
    obtain ⟨i, hi⟩ := List.mem_iff_getElem?.mp hn
    obtain ⟨hlt, rfl⟩ := storedNodes_get_some hi
    refine ⟨hs.key_le hok hlt, hs.metadata i hlt, ?_, ?_⟩
    · obtain ⟨sequence, hfind, hversion⟩ := sequenceOfNode_find hok htable hlt
      simp only [storedNode, hfind, Option.getD_some]
      exact hs.sequence _ _ _ hversion
    · intro ns hns j hj
      obtain ⟨layer, hlayer⟩ := List.mem_iff_getElem?.mp hns
      obtain ⟨hlayer', rfl⟩ := storedNode_layer hlayer
      exact HNSWGraph.lt_size_of_levelCount ((hok.graph.links i layer hlayer').exist j hj)
  · intro v hv
    have hversion := (mem_inOrder_iff (hok.table.perm htable)).mp hv
    rw [version_perm hok.table htable] at hversion
    obtain ⟨m, hm, _⟩ := (version_eq_some hok.table).mp hversion
    obtain ⟨key, sequence, nodeId, deleted⟩ := v
    refine ⟨hok.key_ne_nil key m hm, hs.key _ _ _ hversion, hs.sequence _ _ _ hversion, ?_, ?_⟩
    · cases deleted with
      | true => exact hs.tombstone _ _ _ hversion rfl
      | false => exact (hok.version key sequence nodeId hversion).1.le.trans hsize
    · intro hlive
      obtain rfl : deleted = false := hlive
      exact (hok.version key sequence nodeId hversion).1

/-! The graph that is installed is the graph that was saved. -/

omit table in
theorem flatMap_slices {α : Type} (data : List α) (width count : Nat) :
    ((List.range count).flatMap fun i => (data.drop (i * width)).take width) =
      data.take (count * width) := by
  induction count with
  | zero => simp
  | succ count ih =>
    rw [List.range_succ, List.flatMap_append, ih, List.flatMap_singleton, Nat.succ_mul,
      List.take_add]

theorem installed_saved (hok : Ok index) (hs : Storable index) (sequences : List (Nat × Nat))
    (count : Nat) :
    installed index.options (savedHeader index.graph count) (storedNodes index.graph sequences) =
      index.graph := by
  have hempty : storedNodes index.graph sequences = [] ↔ index.graph.nodes = [] := by
    rw [storedNodes, List.map_eq_nil_iff, List.range_eq_nil, HNSWGraph.size, List.length_eq_zero_iff]
  have hlevel : (installed index.options (savedHeader index.graph count)
      (storedNodes index.graph sequences)).maxLevel = index.graph.maxLevel := by
    show (if storedNodes index.graph sequences = [] then -1
      else (savedHeader index.graph count).encodedLevel) = _
    split
    · rename_i hnil
      rcases hok.top_cases with ⟨_, hlevel⟩ | ⟨hlt, _⟩
      · exact hlevel.symm
      · rw [HNSWGraph.size, hempty.mp hnil] at hlt
        exact absurd hlt (Nat.not_lt_zero _)
    · exact savedHeader_encodedLevel hok count
  have hentry : (installed index.options (savedHeader index.graph count)
      (storedNodes index.graph sequences)).entryPoint = index.graph.entryPoint := by
    show (if storedNodes index.graph sequences = [] then 0 else index.graph.entryPoint) = _
    split
    · rename_i hnil
      exact (hs.entryPoint (hempty.mp hnil)).symm
    · rfl
  have hnodes : (installed index.options (savedHeader index.graph count)
      (storedNodes index.graph sequences)).nodes = index.graph.nodes := by
    apply List.ext_getElem?
    intro i
    rw [installed_get]
    by_cases hlt : i < index.graph.size
    · have hget : index.graph.nodes[i]? = some index.graph.nodes[i] := List.getElem?_eq_getElem hlt
      obtain ⟨hid, _, hoffset, _⟩ := hok.graph.node i _ hget
      rw [storedNodes_get sequences hlt, hget, Option.map_some]
      generalize index.graph.nodes[i] = n at hget hid hoffset
      have hneighbors : (List.range (index.graph.levelCount i)).map (index.graph.neighborsOf i) =
          n.neighbors := by
        apply List.ext_getElem?
        intro layer
        rw [HNSWGraph.levelCount, hget, Option.map_some, Option.getD_some, List.getElem?_map]
        by_cases hlayer : layer < n.neighbors.length
        · rw [List.getElem?_range hlayer, Option.map_some, HNSWGraph.neighborsOf, hget,
            Option.bind_some, List.getElem?_eq_getElem hlayer, Option.getD_some]
        · rw [List.getElem?_eq_none (by simpa using hlayer),
            List.getElem?_eq_none (Nat.le_of_not_lt hlayer), Option.map_none]
      have hkey : index.graph.keyOf i = n.key := by
        rw [HNSWGraph.keyOf, hget]
        rfl
      have hmetadata : index.graph.metadataOf i = n.metadata := by
        rw [HNSWGraph.metadataOf, hget]
        rfl
      simp only [storedNode, hneighbors, hkey, hmetadata]
      obtain ⟨id, key, offset, metadata, neighbors⟩ := n
      dsimp only at hid hoffset
      subst hid
      subst hoffset
      rfl
    · rw [List.getElem?_eq_none (Nat.le_of_not_lt hlt), List.getElem?_eq_none (by
        simpa [storedNodes] using hlt), Option.map_none]
  have hdata : (installed index.options (savedHeader index.graph count)
      (storedNodes index.graph sequences)).vectorData = index.graph.vectorData := by
    show (storedNodes index.graph sequences).flatMap (·.vector) = _
    rw [storedNodes, List.flatMap_map]
    have hslices : ∀ i ∈ List.range index.graph.size, (storedNode index.graph sequences i).vector =
        (index.graph.vectorData.drop (i * index.graph.options.dimension)).take
          index.graph.options.dimension := by
      intro i hi
      have hlt : i < index.graph.size := List.mem_range.mp hi
      have hget : index.graph.nodes[i]? = some index.graph.nodes[i] := List.getElem?_eq_getElem hlt
      show index.graph.vectorOf i = _
      rw [HNSWGraph.vectorOf, hget, Option.map_some, Option.getD_some,
        (hok.graph.node i _ hget).2.2.1]
    rw [List.flatMap_congr hslices, flatMap_slices, ← hok.graph.vectorData_length, List.take_length]
  have heq : ∀ g g' : HNSWGraph, g.options = g'.options → g.maxLevel = g'.maxLevel →
      g.entryPoint = g'.entryPoint → g.nodes = g'.nodes → g.vectorData = g'.vectorData → g = g' := by
    rintro ⟨_, _, _, _, _⟩ ⟨_, _, _, _, _⟩ rfl rfl rfl rfl rfl
    rfl
  exact heq _ _ rfl hlevel hentry hnodes hdata

/-- Loading the file of an index gives that index, with its keys in the order in which they
were saved. -/
theorem load_saved (hok : Ok index) (hs : Storable index) (ha : Addressable index)
    {order : VersionTable → VersionTable} (horder : ∀ table, (order table).Perm table)
    {file : Bytes} (h : index.saveFile order = .ok file) {target : HNSWIndex}
    (htarget : target.options = index.options) :
    target.load (some file) = (⟨index.graph, order index.versionsByKey⟩, .ok) := by
  have htable := horder index.versionsByKey
  rw [saveFile_eq hok hs ha horder] at h
  cases h
  rw [load_fileBytes (parsed_saved hok htable _) (fits_saved hok hs ha htable) htarget,
    installed_saved hok hs]

end Saved

/-! ## Searches -/

section Search

variable {D : Type} [LinearOrder D] (dist : FloatVector → FloatVector → D)

theorem searchAtSequence_congr {index index' : HNSWIndex} (hgraph : index'.graph = index.graph)
    (hfind : ∀ key, index'.versionsByKey.find key = index.versionsByKey.find key)
    (query : FloatVector) (topK efSearch readSequence : Nat) :
    index'.searchAtSequence dist query topK efSearch readSequence =
      index.searchAtSequence dist query topK efSearch readSequence := by
  have hoptions : index'.options = index.options := congrArg HNSWGraph.options hgraph
  have hvisible : ∀ nodeId key, index'.isVisibleAt nodeId key readSequence =
      index.isVisibleAt nodeId key readSequence := by
    intro nodeId key
    unfold isVisibleAt
    rw [hgraph, hfind]
  have hresult : (index'.resultOf : BeamSearch.Candidate Nat D → VectorResult D) =
      index.resultOf := by
    funext c
    unfold resultOf
    rw [hgraph]
  have hlocked : index'.searchAtSequenceLocked dist query topK efSearch readSequence =
      index.searchAtSequenceLocked dist query topK efSearch readSequence := by
    unfold searchAtSequenceLocked
    rw [hgraph, hresult]
    simp only [hvisible]
  unfold searchAtSequence
  rw [hoptions, hlocked]

/-! ## Every index that calls can build -/

/-- Saving an index after any calls succeeds, and loading the file into an index with the
same options gives the same graph, the same versions of every key and the same
searches. -/
theorem save_load (options : HNSWGraphOptions) (hvalid : options.validateOptions = .ok)
    (cs : List Call) (hcs : ∀ c ∈ cs, c.Possible ∧ c.Sized)
    (ha : Addressable (calls dist (new options) cs)) (order : VersionTable → VersionTable)
    (horder : ∀ table, (order table).Perm table) :
    ∃ file, (calls dist (new options) cs).save order .ok = .ok file ∧
      ∀ index : HNSWIndex, index.options = options → ∃ loaded,
        index.load (some file) = (loaded, .ok) ∧
        loaded.graph = (calls dist (new options) cs).graph ∧
        (∀ key, loaded.versionsByKey.find key =
          (calls dist (new options) cs).versionsByKey.find key) ∧
        ∀ query topK efSearch readSequence,
          loaded.searchAtSequence dist query topK efSearch readSequence =
            (calls dist (new options) cs).searchAtSequence dist query topK efSearch
              readSequence := by
  obtain ⟨hoptions, hrun⟩ := calls_new dist options cs fun c hc => (hcs c hc).1
  have hok : Ok (calls dist (new options) cs) := by
    rcases hrun with ⟨_, hok⟩ | ⟨hinvalid, _⟩
    · exact hok
    · exact absurd hvalid hinvalid
  have hs := calls_storable dist hvalid cs hcs
  generalize calls dist (new options) cs = saved at ha hoptions hok hs
  have hfile := saveFile_eq hok hs ha horder
  refine ⟨_, ?_, fun index hindex => ⟨_, load_saved hok hs ha horder hfile
    (hindex.trans hoptions.symm), rfl, find_perm hok.table (horder saved.versionsByKey), ?_⟩⟩
  · rw [save, hfile, ok_bind]
    rfl
  · exact searchAtSequence_congr dist rfl (find_perm hok.table (horder saved.versionsByKey))

end Search

theorem save_load_tombstone :
    ∃ file loaded, (calls exactL2 (new ⟨1, 2, 1, .kL2⟩)
        [.insertVersion (ascii "a") 3 [1#32] (ascii "m") 1, .markDeleted (ascii "gone") 5,
          .insert (ascii "b") [2#32] [] 0]).save List.reverse .ok = .ok file ∧
      (new ⟨1, 2, 1, .kL2⟩).load (some file) = (loaded, .ok) ∧
      loaded.graph.nodes.map (·.neighbors) = [[[1], []], [[0]]] ∧
      loaded.versionsByKey.find (ascii "gone") = some [(5, ⟨0, true⟩)] := by
  obtain ⟨file, hsave, hload⟩ := save_load exactL2 ⟨1, 2, 1, .kL2⟩ (by decide)
    [.insertVersion (ascii "a") 3 [1#32] (ascii "m") 1, .markDeleted (ascii "gone") 5,
      .insert (ascii "b") [2#32] [] 0]
    (by
      intro c hc
      simp only [List.mem_cons, List.not_mem_nil, or_false] at hc
      rcases hc with rfl | rfl | rfl <;> simp only [Call.Possible, Call.Within] <;> decide)
    ⟨by decide +kernel, by decide +kernel⟩ List.reverse List.reverse_perm
  obtain ⟨loaded, hloaded, hgraph, hfind, _⟩ := hload (new ⟨1, 2, 1, .kL2⟩) rfl
  refine ⟨file, loaded, hsave, hloaded, ?_, ?_⟩
  · rw [hgraph]
    decide +kernel
  · rw [hfind]
    decide +kernel

end KvMem.HNSWIndex
