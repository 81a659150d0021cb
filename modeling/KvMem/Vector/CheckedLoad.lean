import KvMem.Foundation.CheckedAccess
import KvMem.Vector.LoadInvariant

/-! # Loading an index on positions

`Load` once more, as the code has it: with an offset into the file, and with node ids
from the file as positions in the list of loaded nodes. Whatever the file is, all
accesses stay inside and the result is that of `HNSWIndex.load`.
-/

namespace KvMem.CheckedLoad

open CheckedAccess CheckedAccess.Access HNSWIndex

abbrev Read (α : Type) := Access String α

/-! ## Fields -/

def readFixed32 (input : Bytes) (offset : Nat) : Read (Nat × Nat) := do
  require (offset ≤ input.length) "truncated HNSW index"
  let room ← sub input.length offset
  require (4 ≤ room) "truncated HNSW index"
  let bytes ← slice input offset 4
  return (decodeFixed32 bytes, offset + 4)

def readFixed64 (input : Bytes) (offset : Nat) : Read (Nat × Nat) := do
  require (offset ≤ input.length) "truncated HNSW index"
  let room ← sub input.length offset
  require (8 ≤ room) "truncated HNSW index"
  let bytes ← slice input offset 8
  return (decodeFixed64 bytes, offset + 8)

def readString (input : Bytes) (offset : Nat) : Read (Bytes × Nat) := do
  let (size, offset) ← readFixed32 input offset
  require (offset ≤ input.length) "truncated HNSW index string"
  let room ← sub input.length offset
  require (size ≤ room) "truncated HNSW index string"
  let bytes ← slice input offset size
  return (bytes, offset + size)

/-! ## Records -/

def readHeaderFields (input : Bytes) (offset : Nat) : Read (Header × Nat) := do
  let (dimension, offset) ← readFixed32 input offset
  let (maxNeighbors, offset) ← readFixed32 input offset
  let (efConstruction, offset) ← readFixed32 input offset
  let (metric, offset) ← readFixed32 input offset
  let (encodedMaxLevel, offset) ← readFixed32 input offset
  let (nodeCount, offset) ← readFixed64 input offset
  let (versionCount, offset) ← readFixed64 input offset
  let (entryPoint, offset) ← readFixed64 input offset
  return (⟨dimension, maxNeighbors, efConstruction, metric, encodedMaxLevel, nodeCount,
    versionCount, entryPoint⟩, offset)

def readHeader (input : Bytes) (offset : Nat) : Read (Header × Nat) := do
  let (magic, offset) ← orFail (readFixed64 input offset) "invalid HNSW index magic"
  require (magic = kIndexMagic) "invalid HNSW index magic"
  let (version, offset) ← orFail (readFixed32 input offset) "unsupported HNSW index version"
  require (version = kIndexVersion) "unsupported HNSW index version"
  orFail (readHeaderFields input offset) "truncated HNSW index header"

def readValue (input : Bytes) (_ offset : Nat) : Read (Float32Bits × Nat) := do
  let (bits, offset) ← readFixed32 input offset
  let value : Float32Bits := BitVec.ofNat 32 bits
  require value.isFinite "invalid vector in HNSW index"
  return (value, offset)

def readNeighbor (input : Bytes) (nodeCount _ offset : Nat) : Read (Nat × Nat) := do
  let (neighbor, offset) ← readFixed64 input offset
  require (neighbor < nodeCount) "HNSW neighbor id is out of range"
  return (neighbor, offset)

def readLayer (input : Bytes) (options : HNSWGraphOptions) (nodeCount layer offset : Nat) :
    Read (List Nat × Nat) := do
  let (neighborCount, offset) ← orFail (readFixed32 input offset) "invalid HNSW neighbor count"
  require (neighborCount ≤ options.neighborLimit layer) "invalid HNSW neighbor count"
  let room ← sub input.length offset
  require (neighborCount ≤ room / 8) "invalid HNSW neighbor count"
  times (readNeighbor input nodeCount) neighborCount 0 offset

def readNode (input : Bytes) (options : HNSWGraphOptions) (nodeCount nodeIndex offset : Nat) :
    Read (LoadedNode × Nat) := do
  let (nodeId, offset) ← readFixed64 input offset
  require (nodeId = nodeIndex) "HNSW node ids are not dense"
  let (key, offset) ← orFail (readString input offset) "invalid HNSW node key"
  require (key ≠ []) "invalid HNSW node key"
  let (sequence, offset) ← readFixed64 input offset
  let (vector, offset) ← times (readValue input) options.dimension 0 offset
  require (¬ (options.metric = .kCosine ∧ vector.all Float32Bits.isZero))
    "invalid vector in HNSW index"
  let (metadata, offset) ← readString input offset
  let (layerCount, offset) ← orFail (readFixed32 input offset) "invalid HNSW node layer count"
  require (layerCount ≠ 0 ∧ layerCount ≤ kMaximumRandomLevel + 1)
    "invalid HNSW node layer count"
  let (neighbors, offset) ← times (readLayer input options nodeCount) layerCount 0 offset
  return (⟨sequence, vector, ⟨key, metadata, neighbors⟩⟩, offset)

def readVersion (input : Bytes) (nodeCount offset : Nat) :
    Read ((Bytes × Nat × VersionState) × Nat) := do
  let (key, offset) ← orFail (readString input offset) "invalid HNSW version key"
  require (key ≠ []) "invalid HNSW version key"
  let (sequence, offset) ← readFixed64 input offset
  let (nodeId, offset) ← orFail (readFixed64 input offset) "truncated HNSW version state"
  require (offset < input.length) "truncated HNSW version state"
  let deletionTag ← item input offset
  require (deletionTag.val ≤ 1) "invalid HNSW deletion tag"
  let deleted := decide (deletionTag.val ≠ 0)
  require (deleted ∨ nodeId < nodeCount) "HNSW version node id is out of range"
  return ((key, sequence, ⟨nodeId, deleted⟩), offset + 1)

def readVersions (input : Bytes) (nodeCount : Nat) :
    Nat → VersionTable → Nat → Read (VersionTable × Nat)
  | 0, table, offset => .value (table, offset)
  | count + 1, table, offset => do
      let ((key, sequence, state), offset) ← readVersion input nodeCount offset
      require (table.version key sequence).isNone "duplicate HNSW version state"
      readVersions input nodeCount count (table.emplace key sequence state) offset

/-! ## Checks across the records -/

def checkNeighbors (nodes : List LoadedNode) (index layer : Nat) : List Nat → Read Unit
  | [] => .value ()
  | neighbor :: neighbors => do
      require (neighbor ≠ index) "invalid HNSW neighbor layer"
      let n ← item nodes neighbor
      require (layer < n.node.neighbors.length) "invalid HNSW neighbor layer"
      checkNeighbors nodes index layer neighbors

def checkLayer (nodes : List LoadedNode) (index layer : Nat) (neighbors : List Nat) :
    Read Unit := do
  require neighbors.Nodup "duplicate HNSW neighbor"
  checkNeighbors nodes index layer neighbors

def checkNode (nodes : List LoadedNode) (table : VersionTable) (index : Nat) (n : LoadedNode) :
    Read Unit := do
  require (table.version n.node.key n.sequence = some ⟨index, false⟩)
    "HNSW node is missing version state"
  checkAll (checkLayer nodes index) 0 n.node.neighbors

def checkVersions (nodes : List LoadedNode) (key : Bytes) : List (Nat × VersionState) → Read Unit
  | [] => .value ()
  | version :: versions =>
    if version.2.deleted then checkVersions nodes key versions
    else do
      let n ← item nodes version.2.nodeId
      require (n.node.key = key ∧ n.sequence = version.1)
        "HNSW version refers to a different node"
      checkVersions nodes key versions

def checkTable (nodes : List LoadedNode) : VersionTable → Read Unit
  | [] => .value ()
  | keyVersions :: table => do
      checkVersions nodes keyVersions.1 keyVersions.2
      checkTable nodes table

def checkGraph (header : Header) (nodes : List LoadedNode) (table : VersionTable) :
    Read Unit := do
  checkAll (checkNode nodes table) 0 nodes
  require (actualMaxLevel nodes = header.encodedLevel)
    "HNSW entry point does not cover graph layers"
  if header.nodeCount ≠ 0 then do
    let n ← item nodes header.entryPoint
    require ((n.node.neighbors.length : Int) = header.encodedLevel + 1)
      "HNSW entry point does not cover graph layers"
    checkTable nodes table
  else checkTable nodes table

/-! ## The file -/

def parseFile (options : HNSWGraphOptions) (file : Bytes) :
    Read (Header × List LoadedNode × VersionTable) := do
  require (kIndexHeaderSize + kIndexFooterSize ≤ file.length) "HNSW index is truncated"
  let (header, offset) ← readHeader file 0
  let bodySize ← sub file.length kIndexHeaderSize
  let bodySize ← sub bodySize kIndexFooterSize
  ofExcept (checkHeader options bodySize header)
  let (nodes, offset) ← times (readNode file options header.nodeCount) header.nodeCount 0 offset
  let (table, offset) ← readVersions file header.nodeCount header.versionCount [] offset
  require (offset + kIndexFooterSize = file.length) "trailing HNSW index data"
  let footer ← slice file offset kIndexFooterSize
  let size ← sub offset kIndexHeaderSize
  let body ← slice file kIndexHeaderSize size
  require (crc32 body = decodeFixed32 footer) "HNSW index checksum mismatch"
  checkGraph header nodes table
  return (header, nodes, table)

/-- `Load`; only a fault is not a result. -/
def load (index : HNSWIndex) (file : Option Bytes) : Read (HNSWIndex × Status) :=
  match index.options.validateOptions with
  | .ok =>
    match file with
    | none => .value (index, .ioError "failed to open HNSW index")
    | some bytes =>
      match parseFile index.options bytes with
      | .fault f => .fault f
      | .refused text => .value (index, .corruption text)
      | .value (header, nodes, table) =>
        match index.graph.replace (nodes.map (·.node)) (nodes.flatMap (·.vector))
            header.entryPoint header.encodedLevel with
        | (graph, .ok) => .value (⟨graph, table⟩, .ok)
        | (graph, e) => .value ({ index with graph := graph }, e)
  | e => .value (index, e)

/-! ## The readers follow -/

section Follow

variable {input : Bytes} {offset : Nat} (h : offset ≤ input.length)
include h

theorem readFixed32_follows :
    Follows input offset (HNSWIndex.readFixed32 (input.drop offset))
      (readFixed32 input offset) := by
  rw [readFixed32, require_true_bind (decide_eq_true h), sub_bind h, HNSWIndex.readFixed32,
    List.length_drop]
  by_cases hroom : 4 ≤ input.length - offset
  · rw [if_neg (by omega), require_true_bind (decide_eq_true hroom), slice_bind (by omega),
      decodeFixed32_take, List.drop_drop]
    exact Follows.value _ (by omega) (by omega)
  · rw [if_pos (by omega), decide_eq_false hroom]
    exact Follows.refused _

theorem readFixed64_follows :
    Follows input offset (HNSWIndex.readFixed64 (input.drop offset))
      (readFixed64 input offset) := by
  rw [readFixed64, require_true_bind (decide_eq_true h), sub_bind h, HNSWIndex.readFixed64,
    List.length_drop]
  by_cases hroom : 8 ≤ input.length - offset
  · rw [if_neg (by omega), require_true_bind (decide_eq_true hroom), slice_bind (by omega),
      decodeFixed64_take, List.drop_drop]
    exact Follows.value _ (by omega) (by omega)
  · rw [if_pos (by omega), decide_eq_false hroom]
    exact Follows.refused _

theorem readString_follows :
    Follows input offset (HNSWIndex.readString (input.drop offset)) (readString input offset) := by
  refine Follows.bind (readFixed32_follows h) fun size offset₁ _ h₁ => ?_
  dsimp only
  rw [require_true_bind (decide_eq_true h₁), sub_bind h₁, List.length_drop]
  refine Follows.require fun hsize => ?_
  have hsize := of_decide_eq_true hsize
  rw [slice_bind (by omega), List.drop_drop]
  exact Follows.value _ (by omega) (by omega)

theorem readHeaderFields_follows :
    Follows input offset (HNSWIndex.readHeaderFields (input.drop offset))
      (readHeaderFields input offset) := by
  refine Follows.bind (readFixed32_follows h) fun _ _ _ h => ?_
  refine Follows.bind (readFixed32_follows h) fun _ _ _ h => ?_
  refine Follows.bind (readFixed32_follows h) fun _ _ _ h => ?_
  refine Follows.bind (readFixed32_follows h) fun _ _ _ h => ?_
  refine Follows.bind (readFixed32_follows h) fun _ _ _ h => ?_
  refine Follows.bind (readFixed64_follows h) fun _ _ _ h => ?_
  refine Follows.bind (readFixed64_follows h) fun _ _ _ h => ?_
  refine Follows.bind (readFixed64_follows h) fun _ _ _ h => ?_
  exact Follows.value _ (Nat.le_refl _) h

theorem readHeader_follows :
    Follows input offset (HNSWIndex.readHeader (input.drop offset)) (readHeader input offset) := by
  refine Follows.bind ((readFixed64_follows h).orFail _) fun _ _ _ h => ?_
  refine Follows.require fun _ => ?_
  refine Follows.bind ((readFixed32_follows h).orFail _) fun _ _ _ h => ?_
  refine Follows.require fun _ => ?_
  exact (readHeaderFields_follows h).orFail _

theorem readValue_follows (i : Nat) :
    Follows input offset (HNSWIndex.readValue i (input.drop offset))
      (readValue input i offset) := by
  refine Follows.bind (readFixed32_follows h) fun _ _ _ h => ?_
  refine Follows.require fun _ => ?_
  exact Follows.value _ (Nat.le_refl _) h

theorem readNeighbor_follows (nodeCount i : Nat) :
    Follows input offset (HNSWIndex.readNeighbor nodeCount i (input.drop offset))
      (readNeighbor input nodeCount i offset) := by
  refine Follows.bind (readFixed64_follows h) fun _ _ _ h => ?_
  refine Follows.require fun _ => ?_
  exact Follows.value _ (Nat.le_refl _) h

theorem readLayer_follows (options : HNSWGraphOptions) (nodeCount layer : Nat) :
    Follows input offset (HNSWIndex.readLayer options nodeCount layer (input.drop offset))
      (readLayer input options nodeCount layer offset) := by
  refine Follows.bind ((readFixed32_follows h).orFail _) fun count offset₁ _ h₁ => ?_
  dsimp only
  refine Follows.require_and fun _ => ?_
  rw [sub_bind h₁, List.length_drop]
  refine Follows.require fun _ => ?_
  exact Follows.times (fun i _ h => readNeighbor_follows h nodeCount i) count 0 h₁

theorem readNode_follows (options : HNSWGraphOptions) (nodeCount nodeIndex : Nat) :
    Follows input offset (HNSWIndex.readNode options nodeCount nodeIndex (input.drop offset))
      (readNode input options nodeCount nodeIndex offset) := by
  refine Follows.bind (readFixed64_follows h) fun _ _ _ h => ?_
  refine Follows.require fun _ => ?_
  refine Follows.bind ((readString_follows h).orFail _) fun _ _ _ h => ?_
  refine Follows.require fun _ => ?_
  refine Follows.bind (readFixed64_follows h) fun _ _ _ h => ?_
  refine Follows.bind (Follows.times (fun i _ h => readValue_follows h i) _ 0 h) fun _ _ _ h => ?_
  refine Follows.require fun _ => ?_
  refine Follows.bind (readString_follows h) fun _ _ _ h => ?_
  refine Follows.bind ((readFixed32_follows h).orFail _) fun layerCount _ _ h => ?_
  refine Follows.require fun _ => ?_
  refine Follows.bind (Follows.times
    (fun layer _ h => readLayer_follows h options nodeCount layer) layerCount 0 h) fun _ _ _ h => ?_
  exact Follows.value _ (Nat.le_refl _) h

theorem readVersion_follows (nodeCount : Nat) :
    Follows input offset (HNSWIndex.readVersion nodeCount (input.drop offset))
      (readVersion input nodeCount offset) := by
  refine Follows.bind ((readString_follows h).orFail _) fun _ _ _ h => ?_
  refine Follows.require fun _ => ?_
  refine Follows.bind (readFixed64_follows h) fun _ _ _ h => ?_
  refine Follows.bind ((readFixed64_follows h).orFail _) fun nodeId offset₁ _ h => ?_
  dsimp only
  by_cases hin : offset₁ < input.length
  · rw [require_true_bind (decide_eq_true hin), item_bind (List.getElem?_eq_getElem hin),
      List.drop_eq_getElem_cons hin]
    dsimp only
    refine Follows.require fun _ => ?_
    refine Follows.require fun _ => ?_
    exact Follows.value _ (by omega) (by omega)
  · rw [decide_eq_false hin, List.drop_eq_nil_of_le (Nat.le_of_not_lt hin)]
    exact Follows.refused _

omit h in
theorem readVersions_follows (nodeCount count : Nat) (table : VersionTable)
    (h : offset ≤ input.length) :
    Follows input offset (HNSWIndex.readVersions nodeCount count table (input.drop offset))
      (readVersions input nodeCount count table offset) := by
  induction count generalizing table offset with
  | zero => exact Follows.value _ (Nat.le_refl _) h
  | succ count ih =>
    refine Follows.bind (readVersion_follows h nodeCount) fun version _ _ h => ?_
    obtain ⟨key, sequence, state⟩ := version
    exact Follows.require fun _ => ih _ h

end Follow

/-! ## Ids from the file are positions -/

variable {input : Bytes} {nodeCount : Nat} {n : LoadedNode}

theorem readLayer_lt {options : HNSWGraphOptions} {layer : Nat} {rest : Bytes} {ns : List Nat}
    (h : HNSWIndex.readLayer options nodeCount layer input = .ok (ns, rest)) :
    ∀ j ∈ ns, j < nodeCount := by
  rw [HNSWIndex.readLayer, Parsing.bind_ok] at h
  obtain ⟨⟨count, rest₁⟩, _, h⟩ := h
  obtain ⟨_, _, h⟩ := Parsing.bind_ok.mp h
  have hread : ∀ i input j rest, HNSWIndex.readNeighbor nodeCount i input = .ok (j, rest) →
      j < nodeCount := by
    intro i input j rest hj
    rw [HNSWIndex.readNeighbor, Parsing.bind_ok] at hj
    obtain ⟨⟨neighbor, rest'⟩, _, hj⟩ := hj
    obtain ⟨_, hlt, hj⟩ := Parsing.bind_ok.mp hj
    cases hj
    exact of_decide_eq_true (Parsing.require_ok hlt)
  obtain ⟨_, hall⟩ := Parsing.times_ok (P := fun _ j => j < nodeCount) hread count 0 rest₁ h
  intro j hj
  obtain ⟨i, hi⟩ := List.mem_iff_getElem?.mp hj
  exact hall i j hi

theorem readNode_lt {options : HNSWGraphOptions} {index : Nat} {rest : Bytes}
    (h : HNSWIndex.readNode options nodeCount index input = .ok (n, rest)) :
    ∀ ns ∈ n.node.neighbors, ∀ j ∈ ns, j < nodeCount := by
  rw [HNSWIndex.readNode, Parsing.bind_ok] at h
  obtain ⟨⟨nodeId, rest₁⟩, _, h⟩ := h
  obtain ⟨_, _, h⟩ := Parsing.bind_ok.mp h
  obtain ⟨⟨key, rest₂⟩, _, h⟩ := Parsing.bind_ok.mp h
  obtain ⟨_, _, h⟩ := Parsing.bind_ok.mp h
  obtain ⟨⟨sequence, rest₃⟩, _, h⟩ := Parsing.bind_ok.mp h
  obtain ⟨⟨vector, rest₄⟩, _, h⟩ := Parsing.bind_ok.mp h
  obtain ⟨_, _, h⟩ := Parsing.bind_ok.mp h
  obtain ⟨⟨metadata, rest₅⟩, _, h⟩ := Parsing.bind_ok.mp h
  obtain ⟨⟨layerCount, rest₆⟩, _, h⟩ := Parsing.bind_ok.mp h
  obtain ⟨_, _, h⟩ := Parsing.bind_ok.mp h
  obtain ⟨⟨neighbors, rest₇⟩, hneighbors, h⟩ := Parsing.bind_ok.mp h
  cases h
  obtain ⟨_, hall⟩ := Parsing.times_ok (P := fun _ (ns : List Nat) => ∀ j ∈ ns, j < nodeCount)
    (fun _ _ _ _ => readLayer_lt) _ _ _ hneighbors
  intro ns hns
  obtain ⟨i, hi⟩ := List.mem_iff_getElem?.mp hns
  exact hall i ns hi

def NamesNodes (count : Nat) (table : VersionTable) : Prop :=
  ∀ k m s v, (k, m) ∈ table → (s, v) ∈ m → v.deleted = false → v.nodeId < count

theorem readVersion_lt {rest key : Bytes} {sequence : Nat} {state : VersionState}
    (h : HNSWIndex.readVersion nodeCount input = .ok ((key, sequence, state), rest))
    (hlive : state.deleted = false) : state.nodeId < nodeCount := by
  rw [HNSWIndex.readVersion, Parsing.bind_ok] at h
  obtain ⟨⟨key', rest₁⟩, _, h⟩ := h
  obtain ⟨_, _, h⟩ := Parsing.bind_ok.mp h
  obtain ⟨⟨sequence', rest₂⟩, _, h⟩ := Parsing.bind_ok.mp h
  obtain ⟨⟨nodeId, rest₃⟩, _, h⟩ := Parsing.bind_ok.mp h
  cases rest₃ with
  | nil => cases h
  | cons tag rest₄ =>
    obtain ⟨_, _, h⟩ := Parsing.bind_ok.mp h
    obtain ⟨_, hrange, h⟩ := Parsing.bind_ok.mp h
    cases h
    rcases of_decide_eq_true (Parsing.require_ok hrange) with hdeleted | hlt
    · exact absurd (hlive.symm.trans hdeleted) Bool.false_ne_true
    · exact hlt

theorem readVersions_names (count : Nat) {table table' : VersionTable} {rest : Bytes}
    (hwf : table.Wf) (hnames : NamesNodes nodeCount table)
    (h : HNSWIndex.readVersions nodeCount count table input = .ok (table', rest)) :
    NamesNodes nodeCount table' := by
  induction count generalizing table input with
  | zero =>
    cases h
    exact hnames
  | succ count ih =>
    rw [HNSWIndex.readVersions, Parsing.bind_ok] at h
    obtain ⟨⟨⟨key, sequence, state⟩, rest₁⟩, hread, h⟩ := h
    obtain ⟨_, hfresh, h⟩ := Parsing.bind_ok.mp h
    have hfresh : table.version key sequence = none := by
      simpa using Parsing.require_ok hfresh
    refine ih (hwf.emplace key sequence state) ?_ h
    intro k m s v hm hv hlive
    have hversion := (VersionTable.version_eq_some (hwf.emplace key sequence state)).mpr
      ⟨m, hm, hv⟩
    rw [VersionTable.version_emplace hfresh] at hversion
    split at hversion
    · cases hversion
      exact readVersion_lt hread hlive
    · obtain ⟨m', hm', hv'⟩ := (VersionTable.version_eq_some hwf).mp hversion
      exact hnames k m' s v hm' hv' hlive

/-! ## The checks agree -/

theorem checkNeighbors_eq (nodes : List LoadedNode) (index layer : Nat) {neighbors : List Nat}
    (h : ∀ j ∈ neighbors, j < nodes.length) :
    checkNeighbors nodes index layer neighbors =
      ofExcept (Parsing.require (neighbors.all fun neighbor => neighbor ≠ index ∧
        ((nodes[neighbor]?).any fun n => layer < n.node.neighbors.length))
          "invalid HNSW neighbor layer") := by
  induction neighbors with
  | nil => rfl
  | cons j neighbors ih =>
    obtain ⟨n, hget⟩ : ∃ n, nodes[j]? = some n :=
      ⟨_, List.getElem?_eq_getElem (h j List.mem_cons_self)⟩
    have hrest := ih fun i hi => h i (List.mem_cons_of_mem j hi)
    rw [checkNeighbors, List.all_cons, hget, Option.any_some]
    by_cases hself : j ≠ index
    · rw [require_true_bind (decide_eq_true hself), item_bind hget]
      by_cases hlayer : layer < n.node.neighbors.length
      · rw [require_true_bind (decide_eq_true hlayer), hrest,
          decide_eq_true ⟨hself, decide_eq_true hlayer⟩, Bool.true_and]
      · rw [decide_eq_false hlayer, decide_eq_false fun hc => Bool.false_ne_true hc.2,
          Bool.false_and]
        rfl
    · rw [decide_eq_false hself, decide_eq_false fun hc => hself hc.1, Bool.false_and]
      rfl

theorem checkNode_eq (nodes : List LoadedNode) (table : VersionTable) (index : Nat)
    (h : ∀ ns ∈ n.node.neighbors, ∀ j ∈ ns, j < nodes.length) :
    checkNode nodes table index n = ofExcept (HNSWIndex.checkNode nodes table index n) := by
  refine require_bind fun _ => checkAll_eq _ (fun ns hns layer => ?_) 0
  exact require_bind fun _ => checkNeighbors_eq nodes index layer (h ns hns)

theorem checkVersions_eq (nodes : List LoadedNode) (key : Bytes) (versions : VersionMap)
    (h : ∀ s v, (s, v) ∈ versions → v.deleted = false → v.nodeId < nodes.length) :
    checkVersions nodes key versions =
      ofExcept (Parsing.require (versions.all (refersToNode nodes key))
        "HNSW version refers to a different node") := by
  induction versions with
  | nil => rfl
  | cons version versions ih =>
    obtain ⟨s, v⟩ := version
    have hrest := ih fun s' v' hv => h s' v' (List.mem_cons_of_mem _ hv)
    rw [checkVersions, List.all_cons, refersToNode]
    cases hdeleted : v.deleted with
    | true =>
      rw [if_pos rfl, hrest, Bool.true_or, Bool.true_and]
    | false =>
      obtain ⟨n, hget⟩ : ∃ n, nodes[v.nodeId]? = some n :=
        ⟨_, List.getElem?_eq_getElem (h s v List.mem_cons_self hdeleted)⟩
      rw [if_neg Bool.false_ne_true, item_bind hget, Bool.false_or, hget, Option.any_some]
      cases decide (n.node.key = key ∧ n.sequence = s) with
      | true => exact hrest
      | false => rfl

theorem checkTable_eq (nodes : List LoadedNode) (table : VersionTable)
    (h : NamesNodes nodes.length table) :
    checkTable nodes table =
      ofExcept (Parsing.require
        (table.all fun keyVersions => keyVersions.2.all (refersToNode nodes keyVersions.1))
          "HNSW version refers to a different node") := by
  induction table with
  | nil => rfl
  | cons keyVersions table ih =>
    have hfirst := checkVersions_eq nodes keyVersions.1 keyVersions.2
      fun s v hv => h keyVersions.1 keyVersions.2 s v List.mem_cons_self hv
    have hrest := ih fun k m s v hm => h k m s v (List.mem_cons_of_mem _ hm)
    rw [checkTable, List.all_cons, hfirst, hrest]
    cases keyVersions.2.all (refersToNode nodes keyVersions.1) with
    | true => rfl
    | false => rfl

theorem checkGraph_eq (header : Header) (nodes : List LoadedNode) (table : VersionTable)
    (hnodes : ∀ n ∈ nodes, ∀ ns ∈ n.node.neighbors, ∀ j ∈ ns, j < nodes.length)
    (hentry : header.nodeCount ≠ 0 → header.entryPoint < nodes.length)
    (htable : NamesNodes nodes.length table) :
    checkGraph header nodes table = ofExcept (HNSWIndex.checkGraph header nodes table) := by
  unfold checkGraph HNSWIndex.checkGraph
  refine bind_eq_ofExcept
    (checkAll_eq nodes (fun n hn i => checkNode_eq nodes table i (hnodes n hn)) 0) fun _ _ => ?_
  refine require_and_bind fun _ => ?_
  by_cases hcount : header.nodeCount ≠ 0
  · obtain ⟨n, hget⟩ : ∃ n, nodes[header.entryPoint]? = some n :=
      ⟨_, List.getElem?_eq_getElem (hentry hcount)⟩
    have hcond : decide (header.nodeCount ≠ 0 → ((nodes[header.entryPoint]?).any fun n =>
        decide ((n.node.neighbors.length : Int) = header.encodedLevel + 1)) = true) =
        decide ((n.node.neighbors.length : Int) = header.encodedLevel + 1) := by
      rw [hget, Option.any_some]
      exact decide_eq_decide.mpr
        ⟨fun h => of_decide_eq_true (h hcount), fun h _ => decide_eq_true h⟩
    rw [if_pos hcount, item_bind hget, hcond]
    exact require_bind fun _ => checkTable_eq nodes table htable
  · rw [if_neg hcount, decide_eq_true fun h => absurd h hcount]
    exact checkTable_eq nodes table htable

/-! ## Load -/

theorem parseFile_eq (options : HNSWGraphOptions) (file : Bytes) :
    parseFile options file = ofExcept (HNSWIndex.parseFile options file) := by
  unfold parseFile HNSWIndex.parseFile
  refine require_bind fun hlen => ?_
  have hlen : 60 ≤ file.length := of_decide_eq_true hlen
  have hheader := readHeader_follows (Nat.zero_le file.length)
  rw [List.drop_zero] at hheader
  rcases hheader with ⟨e, hx, hy⟩ | ⟨header, offset₁, _, h₁, hx, hy⟩
  · rw [hx, hy]
    rfl
  rw [hx, hy, value_bind, Parsing.ok_bind]
  dsimp only
  rw [sub_bind (show kIndexHeaderSize ≤ file.length by unfold kIndexHeaderSize; omega),
    sub_bind (show kIndexFooterSize ≤ file.length - kIndexHeaderSize by
      unfold kIndexFooterSize kIndexHeaderSize; omega)]
  refine bind_eq_ofExcept rfl fun _ hcheck => ?_
  have hrange : header.nodeCount ≠ 0 → header.entryPoint < header.nodeCount := by
    obtain ⟨_, _, hcheck⟩ := Parsing.bind_ok.mp hcheck
    obtain ⟨_, hlevel, _⟩ := Parsing.bind_ok.mp hcheck
    exact fun hcount => ((of_decide_eq_true (Parsing.require_ok hlevel)).2.2 hcount).2
  rcases Follows.times (fun i _ h => readNode_follows h options header.nodeCount i)
    header.nodeCount 0 h₁ with ⟨e, hx, hy⟩ | ⟨nodes, offset₂, _, h₂, hx, hy⟩
  · rw [hx, hy]
    rfl
  obtain ⟨hcount, hnodes⟩ := Parsing.times_ok
    (P := fun _ (n : LoadedNode) => ∀ ns ∈ n.node.neighbors, ∀ j ∈ ns, j < header.nodeCount)
    (fun _ _ _ _ => readNode_lt) _ _ _ hx
  rw [hx, hy, value_bind, Parsing.ok_bind]
  dsimp only
  rcases readVersions_follows header.nodeCount header.versionCount [] h₂ with
    ⟨e, hx, hy⟩ | ⟨table, offset₃, _, h₃, hx, hy⟩
  · rw [hx, hy]
    rfl
  have hnames := readVersions_names header.versionCount VersionTable.wf_nil
    (fun _ _ _ _ hm => by cases hm) hx
  rw [hx, hy, value_bind, Parsing.ok_bind]
  dsimp only
  have hend : decide (offset₃ + kIndexFooterSize = file.length) =
      decide ((file.drop offset₃).length = kIndexFooterSize) := by
    refine decide_eq_decide.mpr ?_
    rw [List.length_drop]
    unfold kIndexFooterSize
    omega
  rw [hend]
  refine require_bind fun hfooter => ?_
  have hfooter := of_decide_eq_true hfooter
  rw [List.length_drop] at hfooter
  unfold kIndexFooterSize at hfooter
  rw [slice_bind (by unfold kIndexFooterSize; omega), sub_bind (by unfold kIndexHeaderSize; omega),
    slice_bind (by unfold kIndexHeaderSize; omega)]
  have hsize : offset₃ - kIndexHeaderSize = file.length - kIndexHeaderSize - kIndexFooterSize := by
    unfold kIndexHeaderSize kIndexFooterSize
    omega
  rw [hsize, show kIndexFooterSize = 4 from rfl, decodeFixed32_take]
  refine require_bind fun _ => ?_
  refine bind_eq_ofExcept (checkGraph_eq header nodes table ?_ ?_ ?_) fun _ _ => rfl
  · intro n hn
    obtain ⟨i, hi⟩ := List.mem_iff_getElem?.mp hn
    rw [hcount]
    exact hnodes i n hi
  · rw [hcount]
    exact hrange
  · rw [hcount]
    exact hnames

theorem load_eq (index : HNSWIndex) (file : Option Bytes) :
    load index file = .value (index.load file) := by
  unfold load HNSWIndex.load
  cases index.options.validateOptions with
  | ok =>
    cases file with
    | none => rfl
    | some bytes =>
      dsimp only
      rw [parseFile_eq]
      cases HNSWIndex.parseFile index.options bytes with
      | error text => rfl
      | ok parsed =>
        obtain ⟨header, nodes, table⟩ := parsed
        dsimp only [Access.ofExcept]
        generalize index.graph.replace (nodes.map (·.node)) (nodes.flatMap (·.vector))
          header.entryPoint header.encodedLevel = replaced
        obtain ⟨graph, status⟩ := replaced
        cases status <;> rfl
  | notFound message => rfl
  | ioError message => rfl
  | corruption message => rfl
  | invalidArgument message => rfl

/-- Loading a file, whatever its bytes are and whatever the index holds: all accesses stay
inside, an error leaves the index as it was, and a loaded index is well formed. -/
theorem load_atomic (index : HNSWIndex) (file : Option Bytes) :
    load index file = .value (index.load file) ∧
    ((index.load file).2 ≠ .ok → (index.load file).1 = index) ∧
    ((index.load file).2 = .ok → (index.load file).1.Ok ∧
      (index.load file).1.options = index.options) := by
  refine ⟨load_eq index file, load_error, fun h => ?_⟩
  have hkept := load_success h
  exact ⟨hkept.ok, hkept.options⟩

end KvMem.CheckedLoad
