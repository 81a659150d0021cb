import KvMem.Vector.LoadInvariant

/-! # Saved indexes

`HNSWIndex::Save` writes the file that `Load` reads. The graph does not store sequence
numbers; the node records take them from the version table. Whatever nodes and
versions pass the checks of `Load`, and fit the fields of the file, are read back as
they were written.
-/

namespace KvMem.HNSWIndex

open Parsing VersionTable

/-! ## Records -/

def stringBytes (value : Bytes) : Bytes := encodeFixed32 value.length ++ value

def valueBytes (value : Float32Bits) : Bytes := encodeFixed32 value.toNat

def layerBytes (neighbors : List Nat) : Bytes :=
  encodeFixed32 neighbors.length ++ neighbors.flatMap encodeFixed64

def nodeBytes (nodeId : Nat) (n : LoadedNode) : Bytes :=
  encodeFixed64 nodeId ++ (stringBytes n.node.key ++ (encodeFixed64 n.sequence ++
    (n.vector.flatMap valueBytes ++ (stringBytes n.node.metadata ++
      (encodeFixed32 n.node.neighbors.length ++ n.node.neighbors.flatMap layerBytes)))))

def versionBytes (version : Bytes × Nat × VersionState) : Bytes :=
  stringBytes version.1 ++ (encodeFixed64 version.2.1 ++ (encodeFixed64 version.2.2.nodeId ++
    [if version.2.2.deleted then 1 else 0]))

def headerBytes (header : Header) : Bytes :=
  encodeFixed64 kIndexMagic ++ (encodeFixed32 kIndexVersion ++ (encodeFixed32 header.dimension ++
    (encodeFixed32 header.maxNeighbors ++ (encodeFixed32 header.efConstruction ++
      (encodeFixed32 header.metric ++ (encodeFixed32 header.encodedMaxLevel ++
        (encodeFixed64 header.nodeCount ++ (encodeFixed64 header.versionCount ++
          encodeFixed64 header.entryPoint))))))))

def fileBytes (header : Header) (body : Bytes) : Bytes :=
  headerBytes header ++ (body ++ encodeFixed32 (crc32 body))

/-! ## Save -/

/-- `sequence_of_node`, from the versions that are no tombstones; a node that is there
keeps its sequence number. -/
def sequenceOfNode (versions : List (Bytes × Nat × VersionState)) : List (Nat × Nat) :=
  versions.foldl (fun sequences version =>
    if version.2.2.deleted then sequences
    else OrderedMap.emplace version.2.2.nodeId version.2.1 sequences) []

def saveLayer (g : HNSWGraph) (nodeId level : Nat) : Except Status Bytes := do
  require ((g.neighborsOf nodeId level).length ≤ maxUInt32)
    (.invalidArgument "HNSW neighbor list is too large")
  return layerBytes (g.neighborsOf nodeId level)

def saveNode (g : HNSWGraph) (sequences : List (Nat × Nat)) (nodeId : Nat) :
    Except Status Bytes := do
  require ((g.keyOf nodeId).length ≤ maxUInt32 ∧ (g.metadataOf nodeId).length ≤ maxUInt32)
    (.invalidArgument "HNSW key or metadata is too large")
  require (g.levelCount nodeId ≤ kMaximumRandomLevel + 1) (.corruption "invalid HNSW node state")
  match OrderedMap.find sequences nodeId with
  | none => .error (.corruption "std::out_of_range") -- `at` throws
  | some sequence =>
    let layers ← emitAll (saveLayer g nodeId) (List.range (g.levelCount nodeId))
    return encodeFixed64 nodeId ++ (stringBytes (g.keyOf nodeId) ++ (encodeFixed64 sequence ++
      ((g.vectorOf nodeId).flatMap valueBytes ++ (stringBytes (g.metadataOf nodeId) ++
        (encodeFixed32 (g.levelCount nodeId) ++ layers)))))

def countVersions : Nat → VersionTable → Except Status Nat
  | versionCount, [] => .ok versionCount
  | versionCount, (key, versions) :: table => do
      require (key.length ≤ maxUInt32 ∧ versions.length ≤ maxUInt64 - versionCount)
        (.invalidArgument "HNSW version state is too large")
      countVersions (versionCount + versions.length) table

def toUInt32 (value : Int) : Nat := (value % 2 ^ 32).toNat

def savedHeader (g : HNSWGraph) (versionCount : Nat) : Header where
  dimension := g.options.dimension
  maxNeighbors := g.options.maxNeighbors
  efConstruction := g.options.efConstruction
  metric := metricCode g.options.metric
  encodedMaxLevel := toUInt32 g.maxLevel
  nodeCount := g.size
  versionCount := versionCount
  entryPoint := g.entryPoint

/-- The content of the file. `order` is the order in which the hash map is iterated; the
three loops over it meet the keys in the same order. -/
def saveFile (index : HNSWIndex) (order : VersionTable → VersionTable) : Except Status Bytes :=
  match index.options.validateOptions with
  | .ok => do
      let table := order index.versionsByKey
      let sequences := sequenceOfNode (inOrder table)
      require (sequences.length = index.graph.size)
        (.corruption "HNSW graph node is missing version state")
      let nodes ← emitAll (saveNode index.graph sequences) (List.range index.graph.size)
      let versionCount ← countVersions 0 table
      return fileBytes (savedHeader index.graph versionCount)
        (nodes ++ (inOrder table).flatMap versionBytes)
  | e => .error e

/-- `Save`: the content of the file that is published. `published` is the outcome of
writing, syncing and renaming the file. -/
def save (index : HNSWIndex) (order : VersionTable → VersionTable) (published : Status) :
    Except Status Bytes := do
  let file ← index.saveFile order
  match published with
  | .ok => return file
  | e => .error e

/-! ## Fields read back -/

variable {v nodeCount : Nat}

theorem readFixed32_encode (h : v ≤ maxUInt32) (rest : Bytes) :
    readFixed32 (encodeFixed32 v ++ rest) = .ok (v, rest) := by
  have hlen : ¬ (encodeFixed32 v ++ rest).length < 4 := by simp
  rw [readFixed32, if_neg hlen, decodeFixed32_encode h, List.drop_left' (encodeFixed32_length v)]

theorem readFixed64_encode (h : v ≤ maxUInt64) (rest : Bytes) :
    readFixed64 (encodeFixed64 v ++ rest) = .ok (v, rest) := by
  have hlen : ¬ (encodeFixed64 v ++ rest).length < 8 := by simp
  rw [readFixed64, if_neg hlen, decodeFixed64_encode h, List.drop_left' (encodeFixed64_length v)]

theorem readString_stringBytes {value : Bytes} (h : value.length ≤ maxUInt32) (rest : Bytes) :
    readString (stringBytes value ++ rest) = .ok (value, rest) := by
  have hfits : value.length ≤ (value ++ rest).length := by simp
  rw [readString, stringBytes, List.append_assoc, readFixed32_encode h, ok_bind]
  dsimp only
  rw [require_of_true (decide_eq_true hfits), ok_bind, List.take_left, List.drop_left]
  rfl

theorem readValue_valueBytes {value : Float32Bits} (h : value.isFinite = true) (i : Nat)
    (rest : Bytes) : readValue i (valueBytes value ++ rest) = .ok (value, rest) := by
  have hbits : value.toNat ≤ maxUInt32 := by
    have hlt := value.isLt
    unfold maxUInt32
    omega
  rw [readValue, valueBytes, readFixed32_encode hbits, ok_bind]
  dsimp only
  rw [BitVec.ofNat_toNat, BitVec.setWidth_eq, require_of_true h, ok_bind]
  rfl

theorem readNeighbor_encode {neighbor : Nat} (hcount : nodeCount ≤ maxUInt64)
    (h : neighbor < nodeCount) (i : Nat) (rest : Bytes) :
    readNeighbor nodeCount i (encodeFixed64 neighbor ++ rest) = .ok (neighbor, rest) := by
  rw [readNeighbor, readFixed64_encode (by omega), ok_bind]
  dsimp only
  rw [require_of_true (decide_eq_true h), ok_bind]
  rfl

theorem readLayer_layerBytes {options : HNSWGraphOptions} {layer : Nat} {neighbors : List Nat}
    (hcount : nodeCount ≤ maxUInt64) (hlimit : neighbors.length ≤ options.neighborLimit layer)
    (hsize : neighbors.length ≤ maxUInt32) (hids : ∀ j ∈ neighbors, j < nodeCount) (rest : Bytes) :
    readLayer options nodeCount layer (layerBytes neighbors ++ rest) = .ok (neighbors, rest) := by
  have hlen : neighbors.length ≤ (neighbors.flatMap encodeFixed64 ++ rest).length / 8 := by
    rw [List.length_append, FixedWidth.length_flatMap_fixed encodeFixed64_length]
    omega
  rw [readLayer, layerBytes, List.append_assoc, readFixed32_encode hsize, orFail, ok_bind]
  dsimp only
  rw [require_of_true (decide_eq_true ⟨hlimit, hlen⟩), ok_bind]
  exact times_append encodeFixed64 neighbors
    (fun j hj i more => readNeighbor_encode hcount (hids j hj) i more) 0 rest

/-! ## Records read back -/

structure NodeFits (nodeCount : Nat) (n : LoadedNode) : Prop where
  key : n.node.key.length ≤ maxUInt32
  metadata : n.node.metadata.length ≤ maxUInt32
  sequence : n.sequence ≤ maxUInt64
  ids : ∀ ns ∈ n.node.neighbors, ∀ j ∈ ns, j < nodeCount

theorem validateOptions_limits {options : HNSWGraphOptions} (h : options.validateOptions = .ok) :
    options.dimension ≤ maxUInt32 ∧ options.maxNeighbors ≤ maxUInt32 / 2 ∧
      options.efConstruction ≤ maxUInt32 := by
  unfold HNSWGraphOptions.validateOptions at h
  split at h
  · cases h
  · split at h
    · cases h
    · split at h
      · cases h
      · split at h
        · cases h
        · rename_i hlimits
          omega

theorem neighborLimit_le {options : HNSWGraphOptions} (h : options.validateOptions = .ok)
    (layer : Nat) : options.neighborLimit layer ≤ maxUInt32 := by
  have hlimits := validateOptions_limits h
  unfold HNSWGraphOptions.neighborLimit
  split
  · omega
  · omega

theorem validateVector_checks {options : HNSWGraphOptions} {vector : FloatVector}
    (h : options.validateVector vector = .ok) :
    vector.length = options.dimension ∧ (∀ v ∈ vector, v.isFinite = true) ∧
      ¬ (options.metric = .kCosine ∧ vector.all Float32Bits.isZero = true) := by
  unfold HNSWGraphOptions.validateVector at h
  split at h
  · cases h
  · rename_i hlen
    split at h
    · cases h
    · rename_i hfinite
      split at h
      · cases h
      · rename_i hzero
        exact ⟨not_not.mp hlen, List.all_eq_true.mp (not_not.mp hfinite), hzero⟩

theorem readNode_nodeBytes {options : HNSWGraphOptions} {nodeIndex : Nat} {n : LoadedNode}
    (ho : options.validateOptions = .ok) (hcount : nodeCount ≤ maxUInt64)
    (hindex : nodeIndex < nodeCount) (hok : NodeOk options n) (hfits : NodeFits nodeCount n)
    (rest : Bytes) :
    readNode options nodeCount nodeIndex (nodeBytes nodeIndex n ++ rest) = .ok (n, rest) := by
  obtain ⟨hlen, hfinite, hzero⟩ := validateVector_checks hok.vector
  have hpos := hok.layers_pos
  have hle := hok.layers_le
  have hlayers : n.node.neighbors.length ≤ maxUInt32 := by
    unfold maxUInt32
    unfold kMaximumRandomLevel at hle
    omega
  have hvector : ∀ more, times readValue options.dimension 0 (n.vector.flatMap valueBytes ++ more) =
      .ok (n.vector, more) := by
    intro more
    rw [← hlen]
    exact times_append valueBytes n.vector
      (fun v hv i more' => readValue_valueBytes (hfinite v hv) i more') 0 more
  have hneighbors : ∀ more, times (readLayer options nodeCount) n.node.neighbors.length 0
      (n.node.neighbors.flatMap layerBytes ++ more) = .ok (n.node.neighbors, more) := by
    intro more
    rw [← emitFrom_const layerBytes 0]
    refine times_emitFrom _ n.node.neighbors 0 (fun layer ns hns more' => ?_) more
    rw [Nat.zero_add]
    have hlimit := hok.limit layer ns hns
    exact readLayer_layerBytes hcount hlimit (hlimit.trans (neighborLimit_le ho layer))
      (hfits.ids ns (List.mem_of_getElem? hns)) more'
  unfold nodeBytes
  simp only [List.append_assoc]
  rw [readNode, readFixed64_encode (by omega), ok_bind]
  dsimp only
  rw [require_of_true (decide_eq_true rfl), ok_bind, readString_stringBytes hfits.key, orFail, ok_bind]
  dsimp only
  rw [require_of_true (decide_eq_true hok.key), ok_bind, readFixed64_encode hfits.sequence, ok_bind]
  dsimp only
  rw [hvector, ok_bind]
  dsimp only
  rw [require_of_true (decide_eq_true hzero), ok_bind, readString_stringBytes hfits.metadata, ok_bind]
  dsimp only
  rw [readFixed32_encode hlayers, orFail, ok_bind]
  dsimp only
  rw [require_of_true (decide_eq_true ⟨by omega, hle⟩), ok_bind, hneighbors, ok_bind]
  rfl

structure VersionFits (nodeCount : Nat) (version : Bytes × Nat × VersionState) : Prop where
  key_ne_nil : version.1 ≠ []
  key : version.1.length ≤ maxUInt32
  sequence : version.2.1 ≤ maxUInt64
  nodeId : version.2.2.nodeId ≤ maxUInt64
  live : version.2.2.deleted = false → version.2.2.nodeId < nodeCount

theorem readVersion_versionBytes {version : Bytes × Nat × VersionState}
    (h : VersionFits nodeCount version) (rest : Bytes) :
    readVersion nodeCount (versionBytes version ++ rest) = .ok (version, rest) := by
  obtain ⟨key, sequence, nodeId, deleted⟩ := version
  unfold versionBytes
  simp only [List.append_assoc]
  rw [readVersion, readString_stringBytes h.key, orFail, ok_bind]
  dsimp only
  rw [require_of_true (decide_eq_true h.key_ne_nil), ok_bind, readFixed64_encode h.sequence, ok_bind]
  dsimp only
  rw [readFixed64_encode h.nodeId, orFail, ok_bind]
  dsimp only
  cases deleted with
  | true => rfl
  | false =>
    have hlive : nodeId < nodeCount := h.live rfl
    show (do
      require (decide (false = true ∨ nodeId < nodeCount)) "HNSW version node id is out of range"
      return ((key, sequence, (⟨nodeId, false⟩ : VersionState)), rest)) = _
    rw [require_of_true (decide_eq_true (Or.inr hlive)), ok_bind]
    rfl

/-! ## The version table read back -/

section Table

def emplaceAll (table : VersionTable) (versions : List (Bytes × Nat × VersionState)) : VersionTable :=
  versions.foldl (fun table version => table.emplace version.1 version.2.1 version.2.2) table

theorem readVersions_versionBytes {nodeCount : Nat} (versions : List (Bytes × Nat × VersionState))
    (table : VersionTable) (hfits : ∀ v ∈ versions, VersionFits nodeCount v)
    (hnew : ∀ v ∈ versions, table.version v.1 v.2.1 = none)
    (hdistinct : versions.Pairwise fun a b => ¬ (b.1 = a.1 ∧ b.2.1 = a.2.1)) (rest : Bytes) :
    readVersions nodeCount versions.length table (versions.flatMap versionBytes ++ rest) =
      .ok (emplaceAll table versions, rest) := by
  induction versions generalizing table with
  | nil => rfl
  | cons v versions ih =>
    obtain ⟨hhead, htail⟩ := List.pairwise_cons.mp hdistinct
    have hfirst := hnew v List.mem_cons_self
    rw [List.length_cons, List.flatMap_cons, List.append_assoc, readVersions,
      readVersion_versionBytes (hfits v List.mem_cons_self), ok_bind]
    dsimp only
    rw [hfirst, Option.isNone_none, require_of_true rfl, ok_bind]
    refine ih _ (fun w hw => hfits w (List.mem_cons_of_mem _ hw)) (fun w hw => ?_) htail
    rw [version_emplace hfirst, if_neg (hhead w hw)]
    exact hnew w (List.mem_cons_of_mem _ hw)

theorem emplace_append_left {front : VersionTable} {key : Bytes}
    (h : key ∉ front.map (·.1)) (tail : VersionTable) (sequence : Nat) (state : VersionState) :
    VersionTable.emplace key sequence state (front ++ tail) =
      front ++ tail.emplace key sequence state := by
  induction front with
  | nil => rfl
  | cons e front ih =>
    obtain ⟨k, m⟩ := e
    rw [List.map_cons, List.mem_cons, not_or] at h
    rw [List.cons_append, VersionTable.emplace, if_neg (Ne.symm h.1), ih h.2, List.cons_append]

theorem emplaceAll_last {front : VersionTable} {key : Bytes} (h : key ∉ front.map (·.1))
    (done versions : VersionMap) (hasc : OrderedMap.Ascending (done ++ versions)) :
    emplaceAll (front ++ [(key, done)]) (versions.map fun version => (key, version)) =
      front ++ [(key, done ++ versions)] := by
  induction versions generalizing done with
  | nil => rw [List.append_nil]; rfl
  | cons e versions ih =>
    obtain ⟨s, v⟩ := e
    have hlast : ∀ d ∈ done, d.1 < s := fun d hd =>
      (List.pairwise_append.mp hasc).2.2 d hd (s, v) List.mem_cons_self
    have hstep : VersionTable.emplace key s v (front ++ [(key, done)]) =
        front ++ [(key, done ++ [(s, v)])] := by
      rw [emplace_append_left h, VersionTable.emplace, if_pos rfl,
        OrderedMap.emplace_append hlast]
    rw [List.map_cons, emplaceAll, List.foldl_cons, hstep]
    have hrest := ih (done ++ [(s, v)]) (by simpa using hasc)
    rw [List.append_assoc, List.singleton_append] at hrest
    exact hrest

theorem emplaceAll_key {front : VersionTable} {key : Bytes} (h : key ∉ front.map (·.1))
    {versions : VersionMap} (hasc : OrderedMap.Ascending versions) (hne : versions ≠ []) :
    emplaceAll front (versions.map fun version => (key, version)) = front ++ [(key, versions)] := by
  cases versions with
  | nil => exact absurd rfl hne
  | cons e versions =>
    obtain ⟨s, v⟩ := e
    have hstep : VersionTable.emplace key s v front = front ++ [(key, [(s, v)])] := by
      have happend := emplace_append_left h [] s v
      rw [List.append_nil] at happend
      rw [happend]
      rfl
    rw [List.map_cons, emplaceAll, List.foldl_cons, hstep]
    exact emplaceAll_last h [(s, v)] versions hasc

theorem emplaceAll_inOrder (front table : VersionTable) (hwf : Wf (front ++ table)) :
    emplaceAll front (inOrder table) = front ++ table := by
  induction table generalizing front with
  | nil => rw [List.append_nil]; rfl
  | cons e table ih =>
    obtain ⟨key, versions⟩ := e
    have hentry := hwf.versions key versions (List.mem_append_right _ List.mem_cons_self)
    have hkey : key ∉ front.map (·.1) := by
      intro hmem
      have hkeys := hwf.keys
      rw [List.map_append] at hkeys
      exact (List.disjoint_of_nodup_append hkeys) hmem List.mem_cons_self
    have hsplit : inOrder ((key, versions) :: table) =
        versions.map (fun version => (key, version)) ++ inOrder table := rfl
    rw [hsplit, emplaceAll, List.foldl_append]
    have hfirst := emplaceAll_key hkey hentry.1 hentry.2
    rw [emplaceAll] at hfirst
    rw [hfirst]
    have hrest := ih (front ++ [(key, versions)]) (by simpa using hwf)
    rw [List.append_assoc, List.singleton_append] at hrest
    exact hrest

theorem mem_inOrder {table : VersionTable} {version : Bytes × Nat × VersionState} :
    version ∈ inOrder table ↔ ∃ m, (version.1, m) ∈ table ∧ version.2 ∈ m := by
  rw [inOrder, List.mem_flatMap]
  constructor
  · rintro ⟨⟨key, m⟩, hm, hv⟩
    obtain ⟨e, he, heq⟩ := List.mem_map.mp hv
    rw [← heq]
    exact ⟨m, hm, he⟩
  · rintro ⟨m, hm, hv⟩
    exact ⟨(version.1, m), hm, List.mem_map.mpr ⟨version.2, hv, rfl⟩⟩

theorem inOrder_distinct {table : VersionTable} (hwf : Wf table) :
    (inOrder table).Pairwise fun a b => ¬ (b.1 = a.1 ∧ b.2.1 = a.2.1) := by
  rw [inOrder, List.pairwise_flatMap]
  refine ⟨?_, ?_⟩
  · rintro ⟨key, m⟩ hm
    rw [List.pairwise_map]
    exact (hwf.versions key m hm).1.imp fun hlt heq => absurd heq.2 hlt.ne'
  · have hkeys := hwf.keys
    rw [List.Nodup, List.pairwise_map] at hkeys
    refine hkeys.imp ?_
    rintro ⟨k, m⟩ ⟨k', m'⟩ hne a ha b hb heq
    obtain ⟨_, _, rfl⟩ := List.mem_map.mp ha
    obtain ⟨_, _, rfl⟩ := List.mem_map.mp hb
    exact hne heq.1.symm

end Table

/-! ## The file read back -/

structure Fits (options : HNSWGraphOptions) (header : Header) (nodes : List LoadedNode)
    (table : VersionTable) : Prop where
  valid : options.validateOptions = .ok
  dimension : header.dimension = options.dimension
  maxNeighbors : header.maxNeighbors = options.maxNeighbors
  efConstruction : header.efConstruction = options.efConstruction
  metric : header.metric = metricCode options.metric
  maxLevel : header.encodedMaxLevel ≤ maxUInt32
  level : header.encodedLevel ≤ kMaximumRandomLevel
  entryPoint : header.entryPoint ≤ maxUInt64
  vectors : header.nodeCount * options.dimension ≤ maxUInt64
  versionCount : header.versionCount = (inOrder table).length
  versionCount_le : header.versionCount ≤ maxUInt64
  node : ∀ n ∈ nodes, NodeFits header.nodeCount n
  version : ∀ v ∈ inOrder table, VersionFits header.nodeCount v

section File

variable {options : HNSWGraphOptions} {header : Header} {nodes : List LoadedNode}
  {table : VersionTable}

theorem Fits.nodeCount_le (h : Fits options header nodes table) :
    header.nodeCount ≤ maxUInt64 / options.dimension := by
  have hpos := (HNSWGraph.validateOptions_ok h.valid).1
  exact (Nat.le_div_iff_mul_le hpos).mpr h.vectors

theorem headerBytes_length (header : Header) : (headerBytes header).length = kIndexHeaderSize := by
  simp [headerBytes, kIndexHeaderSize]

theorem readHeader_headerBytes (h : Fits options header nodes table) (rest : Bytes) :
    readHeader (headerBytes header ++ rest) = .ok (header, rest) := by
  obtain ⟨hdimension, hneighbors, hef⟩ := validateOptions_limits h.valid
  rw [← h.dimension] at hdimension
  rw [← h.maxNeighbors] at hneighbors
  rw [← h.efConstruction] at hef
  have hmetric : header.metric ≤ maxUInt32 := by
    rw [h.metric]
    cases options.metric <;> decide
  have hcount : header.nodeCount ≤ maxUInt64 := h.nodeCount_le.trans (Nat.div_le_self _ _)
  have hfields : ∀ more, readHeaderFields (encodeFixed32 header.dimension ++
      (encodeFixed32 header.maxNeighbors ++ (encodeFixed32 header.efConstruction ++
      (encodeFixed32 header.metric ++ (encodeFixed32 header.encodedMaxLevel ++
      (encodeFixed64 header.nodeCount ++ (encodeFixed64 header.versionCount ++
      (encodeFixed64 header.entryPoint ++ more)))))))) = .ok (header, more) := by
    intro more
    rw [readHeaderFields, readFixed32_encode hdimension, ok_bind]
    dsimp only
    rw [readFixed32_encode (by omega), ok_bind]
    dsimp only
    rw [readFixed32_encode hef, ok_bind]
    dsimp only
    rw [readFixed32_encode hmetric, ok_bind]
    dsimp only
    rw [readFixed32_encode h.maxLevel, ok_bind]
    dsimp only
    rw [readFixed64_encode hcount, ok_bind]
    dsimp only
    rw [readFixed64_encode h.versionCount_le, ok_bind]
    dsimp only
    rw [readFixed64_encode h.entryPoint, ok_bind]
    rfl
  unfold headerBytes
  simp only [List.append_assoc]
  rw [readHeader, readFixed64_encode (by decide), orFail, ok_bind]
  dsimp only
  rw [require_of_true (decide_eq_true rfl), ok_bind, readFixed32_encode (by decide), orFail, ok_bind]
  dsimp only
  rw [require_of_true (decide_eq_true rfl), ok_bind, hfields]
  rfl

theorem stringBytes_length (value : Bytes) : (stringBytes value).length = 4 + value.length := by
  simp [stringBytes]

theorem nodeBytes_length_ge {n : LoadedNode} (h : NodeOk options n) (nodeId : Nat) :
    33 + 4 * options.dimension ≤ (nodeBytes nodeId n).length := by
  have hkey := List.length_pos_iff.mpr h.key
  have hvector : (n.vector.flatMap valueBytes).length = 4 * options.dimension := by
    rw [← (validateVector_checks h.vector).1]
    exact FixedWidth.length_flatMap_fixed (fun value => encodeFixed32_length value.toNat) n.vector
  have hlayer : 4 ≤ (n.node.neighbors.flatMap layerBytes).length := by
    have hpos := h.layers_pos
    cases hn : n.node.neighbors with
    | nil =>
      rw [hn] at hpos
      exact absurd hpos (by simp)
    | cons ns layers =>
      rw [List.flatMap_cons, layerBytes, List.length_append, List.length_append,
        encodeFixed32_length]
      omega
  simp only [nodeBytes, List.length_append, encodeFixed64_length, encodeFixed32_length,
    stringBytes_length, hvector]
  omega

theorem versionBytes_length_ge {version : Bytes × Nat × VersionState} (h : version.1 ≠ []) :
    22 ≤ (versionBytes version).length := by
  have hkey := List.length_pos_iff.mpr h
  simp only [versionBytes, List.length_append, encodeFixed64_length, stringBytes_length,
    List.length_singleton]
  omega

def recordBytes (nodes : List LoadedNode) (table : VersionTable) : Bytes :=
  emitFrom nodeBytes 0 nodes ++ (inOrder table).flatMap versionBytes

theorem checkHeader_of_fits (hp : Parsed options header nodes table)
    (hf : Fits options header nodes table) :
    checkHeader options (recordBytes nodes table).length header = .ok () := by
  have hnodes : nodes.length * (33 + 4 * options.dimension) ≤ (emitFrom nodeBytes 0 nodes).length :=
    length_emitFrom_ge nodes 0 fun i n hn => nodeBytes_length_ge (hp.node_ok n hn) i
  have hversions : (inOrder table).length * 22 ≤ ((inOrder table).flatMap versionBytes).length := by
    rw [← emitFrom_const versionBytes 0]
    exact length_emitFrom_ge _ 0 fun _ v hv => versionBytes_length_ge (hf.version v hv).key_ne_nil
  have hcounts : header.nodeCount ≤ (recordBytes nodes table).length / (33 + 4 * header.dimension) ∧
      header.versionCount ≤ (recordBytes nodes table).length / 22 := by
    rw [recordBytes, List.length_append, Nat.le_div_iff_mul_le (by omega),
      Nat.le_div_iff_mul_le (by omega), hf.dimension, hf.versionCount, ← hp.count]
    omega
  have hvectors : header.nodeCount ≤ maxUInt64 / header.dimension := by
    rw [hf.dimension]
    exact hf.nodeCount_le
  rw [checkHeader, require_of_true (decide_eq_true
      ⟨hf.dimension, hf.maxNeighbors, hf.efConstruction, hf.metric⟩), ok_bind,
    require_of_true (decide_eq_true ⟨hf.level, hp.empty, hp.nonempty⟩), ok_bind,
    require_of_true (decide_eq_true hvectors), ok_bind, require_of_true (decide_eq_true hcounts)]

theorem checkGraph_of_checked (h : GraphChecked header nodes table) :
    checkGraph header nodes table = .ok () := by
  have hnodes : checkAll (checkNode nodes table) 0 nodes = .ok () := by
    refine checkAll_of_ok nodes 0 fun i n hn => ?_
    rw [Nat.zero_add, checkNode, require_of_true (decide_eq_true (h.registered i n hn)), ok_bind]
    refine checkAll_of_ok n.node.neighbors 0 fun layer ns hns => ?_
    obtain ⟨hnodup, hall⟩ := h.layer i n layer ns hn hns
    rw [Nat.zero_add, checkLayer, require_of_true (decide_eq_true hnodup), ok_bind]
    refine require_of_true (List.all_eq_true.mpr fun j hj => ?_) _
    obtain ⟨hne, n', hn', hlt⟩ := hall j hj
    exact decide_eq_true ⟨hne, (Option.any_eq_true _ _).mpr ⟨n', hn', decide_eq_true hlt⟩⟩
  have hentry : actualMaxLevel nodes = header.encodedLevel ∧ (header.nodeCount ≠ 0 →
      ((nodes[header.entryPoint]?).any fun n =>
        (n.node.neighbors.length : Int) = header.encodedLevel + 1) = true) := by
    refine ⟨h.maxLevel, fun hcount => ?_⟩
    obtain ⟨n, hn, hlen⟩ := h.entry hcount
    exact (Option.any_eq_true _ _).mpr ⟨n, hn, decide_eq_true hlen⟩
  rw [checkGraph, hnodes, ok_bind, require_of_true (decide_eq_true hentry), ok_bind]
  refine require_of_true (List.all_eq_true.mpr ?_) _
  rintro ⟨k, m⟩ hm
  refine List.all_eq_true.mpr ?_
  rintro ⟨s, v⟩ hv
  rw [refersToNode]
  cases hdeleted : v.deleted with
  | true => rfl
  | false =>
    obtain ⟨n, hn, hkey, hseq⟩ := h.refers k m s v hm hv hdeleted
    rw [Bool.false_or]
    exact (Option.any_eq_true _ _).mpr ⟨n, hn, decide_eq_true ⟨hkey, hseq⟩⟩

/-- A file with records that pass the checks is read back. -/
theorem parseFile_fileBytes (hp : Parsed options header nodes table)
    (hf : Fits options header nodes table) :
    parseFile options (fileBytes header (recordBytes nodes table)) = .ok (header, nodes, table) := by
  have hcount : header.nodeCount ≤ maxUInt64 := hf.nodeCount_le.trans (Nat.div_le_self _ _)
  have hfooter : ∀ v, (encodeFixed32 v).length = kIndexFooterSize := encodeFixed32_length
  have hlen : (fileBytes header (recordBytes nodes table)).length =
      kIndexHeaderSize + ((recordBytes nodes table).length + kIndexFooterSize) := by
    rw [fileBytes, List.length_append, List.length_append, headerBytes_length, hfooter]
  have hsize : (fileBytes header (recordBytes nodes table)).length - kIndexHeaderSize -
      kIndexFooterSize = (recordBytes nodes table).length := by
    omega
  have hnodes : ∀ rest, times (readNode options header.nodeCount) header.nodeCount 0
      (emitFrom nodeBytes 0 nodes ++ rest) = .ok (nodes, rest) := by
    intro rest
    have htimes : times (readNode options header.nodeCount) nodes.length 0
        (emitFrom nodeBytes 0 nodes ++ rest) = .ok (nodes, rest) := by
      refine times_emitFrom nodeBytes nodes 0 (fun i n hn more => ?_) rest
      have hi : i < header.nodeCount := by
        rw [← hp.count]
        exact (List.getElem?_eq_some_iff.mp hn).1
      have hmem := List.mem_of_getElem? hn
      rw [Nat.zero_add]
      exact readNode_nodeBytes hf.valid hcount hi (hp.node_ok n hmem) (hf.node n hmem) more
    rwa [hp.count] at htimes
  have hversions : ∀ rest, readVersions header.nodeCount header.versionCount []
      ((inOrder table).flatMap versionBytes ++ rest) = .ok (table, rest) := by
    intro rest
    rw [hf.versionCount, readVersions_versionBytes (inOrder table) [] hf.version (fun _ _ => rfl)
      (inOrder_distinct hp.table_wf) rest, emplaceAll_inOrder [] table hp.table_wf, List.nil_append]
  have hbody : ((fileBytes header (recordBytes nodes table)).drop kIndexHeaderSize).take
      (recordBytes nodes table).length = recordBytes nodes table := by
    rw [fileBytes, List.drop_left' (headerBytes_length header), List.take_left]
  have hdecode : decodeFixed32 (encodeFixed32 (crc32 (recordBytes nodes table))) =
      crc32 (recordBytes nodes table) := by
    have hd := decodeFixed32_encode (crc32_le (recordBytes nodes table)) []
    rwa [List.append_nil] at hd
  have hheader : readHeader (fileBytes header (recordBytes nodes table)) = .ok (header,
      recordBytes nodes table ++ encodeFixed32 (crc32 (recordBytes nodes table))) :=
    readHeader_headerBytes hf _
  rw [parseFile, require_of_true (decide_eq_true (by omega)), ok_bind, hheader, ok_bind]
  dsimp only
  rw [hsize, checkHeader_of_fits hp hf, ok_bind, hbody]
  rw [show recordBytes nodes table ++ encodeFixed32 (crc32 (recordBytes nodes table)) =
      emitFrom nodeBytes 0 nodes ++ ((inOrder table).flatMap versionBytes ++
        encodeFixed32 (crc32 (recordBytes nodes table))) from List.append_assoc _ _ _,
    hnodes, ok_bind]
  dsimp only
  rw [hversions, ok_bind]
  dsimp only
  rw [require_of_true (decide_eq_true (hfooter _)), ok_bind, hdecode,
    require_of_true (decide_eq_true rfl), ok_bind, checkGraph_of_checked hp.checked, ok_bind]
  rfl

/-- Loading such a file installs its nodes and versions, whatever was there before. -/
theorem load_fileBytes (hp : Parsed options header nodes table)
    (hf : Fits options header nodes table) {index : HNSWIndex} (ho : index.options = options) :
    index.load (some (fileBytes header (recordBytes nodes table))) =
      (⟨installed options header nodes, table⟩, .ok) := by
  subst ho
  have hpos := (HNSWGraph.validateOptions_ok hf.valid).1
  have hvalid : index.options.validateOptions = .ok := hf.valid
  have hreplace : (index.graph.replace (nodes.map (·.node)) (nodes.flatMap (·.vector))
      header.entryPoint header.encodedLevel).2 = .ok := by
    have hlen : (nodes.map (·.node)).length = header.nodeCount := by
      rw [List.length_map, hp.count]
    have hnil : nodes.map (·.node) = [] ↔ header.nodeCount = 0 := by
      rw [← hlen, List.length_eq_zero_iff]
    have hdata : (nodes.flatMap (·.vector)).length =
        (nodes.map (·.node)).length * index.graph.options.dimension := by
      rw [List.length_map]
      exact flatMap_vector_length nodes hp.vector_length
    have hdimension : ¬ index.graph.options.dimension = 0 := Nat.ne_of_gt hpos
    have hsize : ¬ header.nodeCount > maxUInt64 / index.graph.options.dimension :=
      Nat.not_lt.mpr hf.nodeCount_le
    have hheader : ¬ ((header.nodeCount = 0 ∧ header.encodedLevel ≠ -1) ∨
        (header.nodeCount ≠ 0 ∧ (header.encodedLevel < 0 ∨ header.entryPoint ≥ header.nodeCount))) := by
      have hempty := hp.empty
      have hnonempty := hp.nonempty
      omega
    rw [HNSWGraph.replace, if_neg hdimension, hlen, if_neg hsize, if_neg (by rw [hdata, hlen]; simp)]
    simp only [ne_eq, hnil]
    rw [if_neg hheader]
  have hpair : index.graph.replace (nodes.map (·.node)) (nodes.flatMap (·.vector))
      header.entryPoint header.encodedLevel = (installed index.options header nodes, .ok) := by
    have heq : index.graph.replace (nodes.map (·.node)) (nodes.flatMap (·.vector))
        header.entryPoint header.encodedLevel = ((index.graph.replace (nodes.map (·.node))
          (nodes.flatMap (·.vector)) header.entryPoint header.encodedLevel).1, .ok) :=
      Prod.ext rfl hreplace
    rw [heq, replace_eq heq]
    rfl
  rw [load, hvalid]
  dsimp only
  rw [parseFile_fileBytes hp hf]
  dsimp only
  rw [hpair]

end File

end KvMem.HNSWIndex
