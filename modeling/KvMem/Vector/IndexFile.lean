import KvMem.Foundation.Parsing
import KvMem.Vector.Index

/-! # Index files

`HNSWIndex::Load` reads a whole index file: a header, the node records in the order
of their ids, the version records and a checksum of both. Everything is read and
checked before the index changes. Whatever is wrong with the content is `Corruption`;
the readers report its text. `MergeFrom` loads a file into an index of its own and
replays the versions found there.
-/

namespace KvMem

open Parsing

namespace HNSWIndex

def kIndexMagic : Nat := 0x4b56484e535731

/-- Version 2 permits twice as many neighbours at level 0. -/
def kIndexVersion : Nat := 2

def kIndexHeaderSize : Nat := 56

def kIndexFooterSize : Nat := 4

/-! ## Fields -/

def readFixed32 (input : Bytes) : Except String (Nat × Bytes) :=
  if input.length < 4 then .error "truncated HNSW index"
  else .ok (decodeFixed32 input, input.drop 4)

def readFixed64 (input : Bytes) : Except String (Nat × Bytes) :=
  if input.length < 8 then .error "truncated HNSW index"
  else .ok (decodeFixed64 input, input.drop 8)

def readString (input : Bytes) : Except String (Bytes × Bytes) := do
  let (size, rest) ← readFixed32 input
  require (size ≤ rest.length) "truncated HNSW index string"
  return (rest.take size, rest.drop size)

/-! ## The header -/

/-- The fields of the header that are not compared with constants. -/
structure Header where
  dimension : Nat
  maxNeighbors : Nat
  efConstruction : Nat
  metric : Nat
  encodedMaxLevel : Nat
  nodeCount : Nat
  versionCount : Nat
  entryPoint : Nat
  deriving DecidableEq, Repr

def metricCode : VectorDistanceMetric → Nat
  | .kL2 => 0
  | .kInnerProduct => 1
  | .kCosine => 2

/-- `static_cast<std::int32_t>`. -/
def toInt32 (value : Nat) : Int := if value < 2 ^ 31 then value else (value : Int) - 2 ^ 32

def Header.encodedLevel (header : Header) : Int := toInt32 header.encodedMaxLevel

def readHeaderFields (input : Bytes) : Except String (Header × Bytes) := do
  let (dimension, rest) ← readFixed32 input
  let (maxNeighbors, rest) ← readFixed32 rest
  let (efConstruction, rest) ← readFixed32 rest
  let (metric, rest) ← readFixed32 rest
  let (encodedMaxLevel, rest) ← readFixed32 rest
  let (nodeCount, rest) ← readFixed64 rest
  let (versionCount, rest) ← readFixed64 rest
  let (entryPoint, rest) ← readFixed64 rest
  return (⟨dimension, maxNeighbors, efConstruction, metric, encodedMaxLevel, nodeCount,
    versionCount, entryPoint⟩, rest)

def readHeader (input : Bytes) : Except String (Header × Bytes) := do
  let (magic, rest) ← orFail (readFixed64 input) "invalid HNSW index magic"
  require (magic = kIndexMagic) "invalid HNSW index magic"
  let (version, rest) ← orFail (readFixed32 rest) "unsupported HNSW index version"
  require (version = kIndexVersion) "unsupported HNSW index version"
  orFail (readHeaderFields rest) "truncated HNSW index header"

def checkHeader (options : HNSWGraphOptions) (bodySize : Nat) (header : Header) :
    Except String Unit := do
  require (header.dimension = options.dimension ∧ header.maxNeighbors = options.maxNeighbors ∧
      header.efConstruction = options.efConstruction ∧ header.metric = metricCode options.metric)
    "HNSW index options do not match database options"
  require (header.encodedLevel ≤ kMaximumRandomLevel ∧
      (header.nodeCount = 0 → header.encodedLevel = -1) ∧
      (header.nodeCount ≠ 0 → 0 ≤ header.encodedLevel ∧ header.entryPoint < header.nodeCount))
    "invalid HNSW index graph header"
  require (header.nodeCount ≤ maxUInt64 / header.dimension)
    "HNSW index vector data is too large"
  require (header.nodeCount ≤ bodySize / (33 + 4 * header.dimension) ∧
      header.versionCount ≤ bodySize / 22)
    "HNSW counts exceed file size"

/-! ## Records -/

structure LoadedNode where
  sequence : Nat
  vector : FloatVector
  node : HNSWGraphNode
  deriving DecidableEq, Repr

def readValue (_ : Nat) (input : Bytes) : Except String (Float32Bits × Bytes) := do
  let (bits, rest) ← readFixed32 input
  let value : Float32Bits := BitVec.ofNat 32 bits
  require value.isFinite "invalid vector in HNSW index"
  return (value, rest)

def readNeighbor (nodeCount _ : Nat) (input : Bytes) : Except String (Nat × Bytes) := do
  let (neighbor, rest) ← readFixed64 input
  require (neighbor < nodeCount) "HNSW neighbor id is out of range"
  return (neighbor, rest)

def readLayer (options : HNSWGraphOptions) (nodeCount layer : Nat) (input : Bytes) :
    Except String (List Nat × Bytes) := do
  let (neighborCount, rest) ← orFail (readFixed32 input) "invalid HNSW neighbor count"
  require (neighborCount ≤ options.neighborLimit layer ∧ neighborCount ≤ rest.length / 8)
    "invalid HNSW neighbor count"
  times (readNeighbor nodeCount) neighborCount 0 rest

def readNode (options : HNSWGraphOptions) (nodeCount nodeIndex : Nat) (input : Bytes) :
    Except String (LoadedNode × Bytes) := do
  let (nodeId, rest) ← readFixed64 input
  require (nodeId = nodeIndex) "HNSW node ids are not dense"
  let (key, rest) ← orFail (readString rest) "invalid HNSW node key"
  require (key ≠ []) "invalid HNSW node key"
  let (sequence, rest) ← readFixed64 rest
  let (vector, rest) ← times readValue options.dimension 0 rest
  require (¬ (options.metric = .kCosine ∧ vector.all Float32Bits.isZero))
    "invalid vector in HNSW index"
  let (metadata, rest) ← readString rest
  let (layerCount, rest) ← orFail (readFixed32 rest) "invalid HNSW node layer count"
  require (layerCount ≠ 0 ∧ layerCount ≤ kMaximumRandomLevel + 1)
    "invalid HNSW node layer count"
  let (neighbors, rest) ← times (readLayer options nodeCount) layerCount 0 rest
  return (⟨sequence, vector, ⟨key, metadata, neighbors⟩⟩, rest)

def readVersion (nodeCount : Nat) (input : Bytes) :
    Except String ((Bytes × Nat × VersionState) × Bytes) := do
  let (key, rest) ← orFail (readString input) "invalid HNSW version key"
  require (key ≠ []) "invalid HNSW version key"
  let (sequence, rest) ← readFixed64 rest
  let (nodeId, rest) ← orFail (readFixed64 rest) "truncated HNSW version state"
  match rest with
  | [] => .error "truncated HNSW version state"
  | deletionTag :: rest =>
    require (deletionTag.val ≤ 1) "invalid HNSW deletion tag"
    let deleted := decide (deletionTag.val ≠ 0)
    require (deleted ∨ nodeId < nodeCount) "HNSW version node id is out of range"
    return ((key, sequence, ⟨nodeId, deleted⟩), rest)

def readVersions (nodeCount : Nat) : Nat → VersionTable → Bytes → Except String (VersionTable × Bytes)
  | 0, table, input => .ok (table, input)
  | count + 1, table, input => do
      let ((key, sequence, state), rest) ← readVersion nodeCount input
      require (table.version key sequence).isNone "duplicate HNSW version state"
      readVersions nodeCount count (table.emplace key sequence state) rest

/-! ## Checks across the records -/

/-- A neighbour list: no entry twice, not the node itself, only nodes of the layer. The
source looks for equal entries side by side in the sorted list. -/
def checkLayer (nodes : List LoadedNode) (index layer : Nat) (neighbors : List Nat) :
    Except String Unit := do
  require neighbors.Nodup "duplicate HNSW neighbor"
  require (neighbors.all fun neighbor => neighbor ≠ index ∧
      ((nodes[neighbor]?).any fun n => layer < n.node.neighbors.length))
    "invalid HNSW neighbor layer"

def checkNode (nodes : List LoadedNode) (table : VersionTable) (index : Nat) (n : LoadedNode) :
    Except String Unit := do
  require (table.version n.node.key n.sequence = some ⟨index, false⟩)
    "HNSW node is missing version state"
  checkAll (checkLayer nodes index) 0 n.node.neighbors

def actualMaxLevel (nodes : List LoadedNode) : Int :=
  nodes.foldl (fun level n => max level ((n.node.neighbors.length : Int) - 1)) (-1)

def refersToNode (nodes : List LoadedNode) (key : Bytes) (version : Nat × VersionState) : Bool :=
  version.2.deleted || (nodes[version.2.nodeId]?).any fun n =>
    n.node.key = key ∧ n.sequence = version.1

def checkGraph (header : Header) (nodes : List LoadedNode) (table : VersionTable) :
    Except String Unit := do
  checkAll (checkNode nodes table) 0 nodes
  require (actualMaxLevel nodes = header.encodedLevel ∧ (header.nodeCount ≠ 0 →
      (nodes[header.entryPoint]?).any fun n =>
        (n.node.neighbors.length : Int) = header.encodedLevel + 1))
    "HNSW entry point does not cover graph layers"
  require (table.all fun keyVersions => keyVersions.2.all (refersToNode nodes keyVersions.1))
    "HNSW version refers to a different node"

/-! ## Load and MergeFrom -/

def parseFile (options : HNSWGraphOptions) (file : Bytes) :
    Except String (Header × List LoadedNode × VersionTable) := do
  require (kIndexHeaderSize + kIndexFooterSize ≤ file.length)
    "HNSW index is truncated"
  let (header, rest) ← readHeader file
  checkHeader options (file.length - kIndexHeaderSize - kIndexFooterSize) header
  let (nodes, rest) ← times (readNode options header.nodeCount) header.nodeCount 0 rest
  let (table, rest) ← readVersions header.nodeCount header.versionCount [] rest
  require (rest.length = kIndexFooterSize) "trailing HNSW index data"
  let body := (file.drop kIndexHeaderSize).take (file.length - kIndexHeaderSize - kIndexFooterSize)
  require (crc32 body = decodeFixed32 rest) "HNSW index checksum mismatch"
  checkGraph header nodes table
  return (header, nodes, table)

/-- `Load`, of a file with this content; `none` is a file that cannot be opened. -/
def load (index : HNSWIndex) (file : Option Bytes) : HNSWIndex × Status :=
  match index.options.validateOptions with
  | .ok =>
    match file with
    | none => (index, .ioError "failed to open HNSW index")
    | some bytes =>
      match parseFile index.options bytes with
      | .error text => (index, .corruption text)
      | .ok (header, nodes, table) =>
        match index.graph.replace (nodes.map (·.node)) (nodes.flatMap (·.vector))
            header.entryPoint header.encodedLevel with
        | (graph, .ok) => (⟨graph, table⟩, .ok)
        | (graph, e) => ({ index with graph := graph }, e)
  | e => (index, e)

section Distance

variable {D : Type} [LinearOrder D] (dist : FloatVector → FloatVector → D)

/-- Replay one loaded version; `level` is the level the graph would draw for it. -/
def mergeVersion (loaded : HNSWGraph) (key : Bytes) (version : Nat × VersionState) (level : Nat)
    (index : HNSWIndex) : HNSWIndex × Status :=
  if version.2.deleted then index.markDeleted key version.1
  else if version.2.nodeId ≥ loaded.size then
    (index, .corruption "HNSW version node id is out of range")
  else
    index.insertVersion dist key version.1 (loaded.vectorOf version.2.nodeId)
      (loaded.metadataOf version.2.nodeId) level

def mergeVersions (loaded : HNSWGraph) (levels : Bytes → Nat → Nat) :
    List (Bytes × Nat × VersionState) → HNSWIndex → HNSWIndex × Status
  | [], index => (index, .ok)
  | (key, version) :: versions, index =>
    match mergeVersion dist loaded key version (levels key version.1) index with
    | (index, .ok) => mergeVersions loaded levels versions index
    | (index, e) => (index, e)

/-- The versions of a table in the order the two loops meet them. -/
def inOrder (table : VersionTable) : List (Bytes × Nat × VersionState) :=
  table.flatMap fun keyVersions => keyVersions.2.map fun version => (keyVersions.1, version)

/-- `MergeFrom`. `order` is the order in which the hash map is iterated, `levels` the
levels the graph draws for the versions. -/
def mergeFrom (index : HNSWIndex) (file : Option Bytes) (order : VersionTable → VersionTable)
    (levels : Bytes → Nat → Nat) : HNSWIndex × Status :=
  match (new index.options).load file with
  | (loaded, .ok) =>
    mergeVersions dist loaded.graph levels (inOrder (order loaded.versionsByKey)) index
  | (_, e) => (index, e)

end Distance

end HNSWIndex

end KvMem
