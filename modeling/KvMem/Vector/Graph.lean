import KvMem.Foundation.BeamSearch
import KvMem.Vector.Value

/-! # The graph

`HNSWGraph`: nodes with one neighbour list per level, their vectors in one array,
an entry point and the top level. The distance is an argument: `dist` stands for
the distance function of the graph's metric, with values in any linear order. A
level is drawn outside; every function takes it as an argument.
-/

namespace KvMem

open BeamSearch

structure HNSWGraphOptions where
  dimension : Nat := 0
  maxNeighbors : Nat := 16
  efConstruction : Nat := 200
  metric : VectorDistanceMetric := .kL2
  deriving DecidableEq, Repr

structure HNSWNode where
  id : Nat
  key : Bytes
  vectorOffset : Nat
  metadata : Bytes
  neighbors : List (List Nat)
  deriving DecidableEq, Repr

structure HNSWGraph where
  options : HNSWGraphOptions
  maxLevel : Int := -1
  entryPoint : Nat := 0
  nodes : List HNSWNode := []
  vectorData : List Float32Bits := []
  deriving DecidableEq, Repr

/-- `HNSWGraphNode`, a node as accepted by `Replace`. -/
structure HNSWGraphNode where
  key : Bytes
  metadata : Bytes
  neighbors : List (List Nat)
  deriving DecidableEq, Repr

def kMaximumRandomLevel : Nat := 63

namespace HNSWGraphOptions

/-- `ValidateOptions`. The metric is one of the three by its type. -/
def validateOptions (o : HNSWGraphOptions) : Status :=
  if o.dimension = 0 then .invalidArgument "HNSW dimension must be greater than zero"
  else if o.maxNeighbors < 2 then .invalidArgument "HNSW max_neighbors must be at least two"
  else if o.efConstruction = 0 then
    .invalidArgument "HNSW ef_construction must be greater than zero"
  else if o.dimension > maxUInt32 ∨ o.maxNeighbors > maxUInt32 / 2 ∨
      o.efConstruction > maxUInt32 then
    .invalidArgument "HNSW options exceed file format limits"
  else .ok

def validateVector (o : HNSWGraphOptions) (vector : FloatVector) : Status :=
  if vector.length ≠ o.dimension then
    .invalidArgument "vector dimension does not match HNSW dimension"
  else if ¬ vector.all Float32Bits.isFinite then .invalidArgument "vector values must be finite"
  else if o.metric = .kCosine ∧ vector.all Float32Bits.isZero then
    .invalidArgument "cosine distance is undefined for a zero vector"
  else .ok

def neighborLimit (o : HNSWGraphOptions) (level : Nat) : Nat :=
  if level = 0 then 2 * o.maxNeighbors else o.maxNeighbors

end HNSWGraphOptions

namespace HNSWGraph

def size (g : HNSWGraph) : Nat := g.nodes.length

def levelCount (g : HNSWGraph) (id : Nat) : Nat :=
  ((g.nodes[id]?).map fun n => n.neighbors.length).getD 0

def neighborsOf (g : HNSWGraph) (id level : Nat) : List Nat :=
  ((g.nodes[id]?).bind fun n => n.neighbors[level]?).getD []

def vectorOf (g : HNSWGraph) (id : Nat) : FloatVector :=
  ((g.nodes[id]?).map fun n => (g.vectorData.drop n.vectorOffset).take g.options.dimension).getD []

def keyOf (g : HNSWGraph) (id : Nat) : Bytes := ((g.nodes[id]?).map (·.key)).getD []

def metadataOf (g : HNSWGraph) (id : Nat) : Bytes := ((g.nodes[id]?).map (·.metadata)).getD []

def vectorEquals (g : HNSWGraph) (id : Nat) (vector : FloatVector) : Bool :=
  (vector.zip (g.vectorOf id)).all fun (a, b) => a.equal b

/-- The neighbours a search follows: those that exist at the level. -/
def links (g : HNSWGraph) (level id : Nat) : List Nat :=
  (g.neighborsOf id level).filter fun neighbor => level < g.levelCount neighbor

def setNeighbors (g : HNSWGraph) (id level : Nat) (neighbors : List Nat) : HNSWGraph :=
  { g with nodes := g.nodes.modify id fun n =>
      { n with neighbors := n.neighbors.set level neighbors } }

def appendNode (g : HNSWGraph) (vector : FloatVector) (key metadata : Bytes)
    (neighbors : List (List Nat)) : HNSWGraph :=
  { g with
    nodes := g.nodes ++ [⟨g.size, key, g.vectorData.length, metadata, neighbors⟩]
    vectorData := g.vectorData ++ vector }

section Distance

variable {D : Type} [LinearOrder D] (dist : FloatVector → FloatVector → D)

def searchLayer (g : HNSWGraph) (query : FloatVector) (entryPoints : List Nat) (ef level : Nat)
    (visibility : Nat → Bool) : List (Candidate Nat D) :=
  if ef = 0 then []
  else
    search (fun id => dist query (g.vectorOf id)) visibility ef (g.links level) g.size
      (entryPoints.filter fun entry => level < g.levelCount entry)

def fillNeighbors (limit : Nat) : List Nat → List Nat → List Nat
  | [], selected => selected
  | candidate :: pruned, selected =>
    let selected := selected ++ [candidate]
    if selected.length = limit then selected else fillNeighbors limit pruned selected

/-- The selection loop: a candidate closer to a selected node than to the new one is
put aside. -/
def selectLoop (g : HNSWGraph) (limit : Nat) :
    List (Candidate Nat D) → List Nat → List Nat → List Nat
  | [], selected, pruned => fillNeighbors limit pruned selected
  | candidate :: candidates, selected, pruned =>
    if selected.all fun neighbor =>
        ¬ dist (g.vectorOf candidate.id) (g.vectorOf neighbor) < candidate.distance then
      let selected := selected ++ [candidate.id]
      if selected.length = limit then selected
      else selectLoop g limit candidates selected pruned
    else selectLoop g limit candidates selected (pruned ++ [candidate.id])

def selectNeighbors (g : HNSWGraph) (candidates : List (Candidate Nat D)) (limit : Nat) :
    List Nat :=
  selectLoop dist g limit candidates [] []

def pruneNeighbors (g : HNSWGraph) (id level : Nat) : HNSWGraph :=
  let neighbors := g.neighborsOf id level
  let limit := g.options.neighborLimit level
  if neighbors.length ≤ limit then g
  else
    let candidates : List (Candidate Nat D) := neighbors.map fun neighbor =>
      ⟨dist (g.vectorOf id) (g.vectorOf neighbor), neighbor⟩
    g.setNeighbors id level (selectNeighbors dist g (candidates.insertionSort (· ≤ ·)) limit)

/-- The loop body of `Connect`. -/
def linkBack (id level : Nat) (g : HNSWGraph) (neighbor : Nat) : HNSWGraph :=
  let reverse := g.neighborsOf neighbor level
  if id ∈ reverse then g
  else pruneNeighbors dist (g.setNeighbors neighbor level (reverse ++ [id])) neighbor level

def connect (g : HNSWGraph) (id : Nat) (neighbors : List Nat) (level : Nat) : HNSWGraph :=
  neighbors.foldl (linkBack dist id level) (g.setNeighbors id level neighbors)

/-- Walk down `steps` levels to `level`, at each to the nearest node. -/
def descend (g : HNSWGraph) (query : FloatVector) (level : Nat) :
    Nat → List Nat → Option (List Nat)
  | 0, entryPoints => some entryPoints
  | steps + 1, entryPoints =>
    match searchLayer dist g query entryPoints 1 (level + (steps + 1)) fun _ => true with
    | [] => none
    | nearest :: _ => descend g query level steps [nearest.id]

/-- The neighbour lists of a new node for the levels below `levels`, selected from
the top down. -/
def selectLinks (g : HNSWGraph) (vector : FloatVector) : Nat → List Nat → Option (List (List Nat))
  | 0, _ => some []
  | level + 1, entryPoints =>
    let candidates := searchLayer dist g vector entryPoints
      (max g.options.efConstruction g.options.maxNeighbors) level fun _ => true
    if candidates = [] then none
    else
      match selectLinks g vector level (candidates.map (·.id)) with
      | none => none
      | some lower => some (lower ++ [selectNeighbors dist g candidates g.options.maxNeighbors])

def connectLevels (id : Nat) : Nat → HNSWGraph → HNSWGraph
  | 0, g => g
  | level + 1, g => connectLevels id level (connect dist g id (g.neighborsOf id level) level)

def connectedLevels (g : HNSWGraph) (level : Nat) : Nat := (min (level : Int) g.maxLevel + 1).toNat

/-- Publish a node whose lists have been selected, and link it. The lists above the
levels of the graph stay empty. -/
def publish (g : HNSWGraph) (vector : FloatVector) (key metadata : Bytes) (level : Nat)
    (lists : List (List Nat)) : HNSWGraph :=
  let linked := connectLevels dist g.size (g.connectedLevels level)
    (g.appendNode vector key metadata (lists ++ List.replicate (level + 1 - lists.length) []))
  if (level : Int) > g.maxLevel then { linked with entryPoint := g.size, maxLevel := level }
  else linked

/-- `AddNode`, with the level that `SelectLevel` draws. -/
def addNode (g : HNSWGraph) (vector : FloatVector) (key metadata : Bytes) (level : Nat) :
    HNSWGraph × Except Status Nat :=
  match g.options.validateOptions with
  | .ok =>
    if key = [] then (g, .error (.invalidArgument "HNSW key cannot be empty"))
    else
      match g.options.validateVector vector with
      | .ok =>
        match descend dist g vector level (g.maxLevel - level).toNat [g.entryPoint] with
        | none => (g, .error (.corruption "HNSW insertion has no valid layer entry"))
        | some entryPoints =>
          match selectLinks dist g vector (g.connectedLevels level) entryPoints with
          | none => (g, .error (.corruption "HNSW insertion has no valid layer entry"))
          | some lists => (publish dist g vector key metadata level lists, .ok g.size)
      | e => (g, .error e)
  | e => (g, .error e)

def searchGraph (g : HNSWGraph) (query : FloatVector) (topK ef : Nat) (visibility : Nat → Bool) :
    Except Status (List (Candidate Nat D)) :=
  if g.nodes = [] ∨ topK = 0 then .ok []
  else
    match descend dist g query 0 g.maxLevel.toNat [g.entryPoint] with
    | none => .error (.corruption "HNSW search has no valid layer entry")
    | some entryPoints =>
      .ok ((searchLayer dist g query entryPoints (max topK ef) 0 visibility).take topK)

end Distance

def replace (g : HNSWGraph) (nodes : List HNSWGraphNode) (vectorData : List Float32Bits)
    (entryPoint : Nat) (maxLevel : Int) : HNSWGraph × Status :=
  if g.options.dimension = 0 then
    (g, .invalidArgument "HNSW dimension must be greater than zero")
  else if nodes.length > maxUInt64 / g.options.dimension then
    (g, .corruption "HNSW index vector data is too large")
  else if vectorData.length ≠ nodes.length * g.options.dimension then
    (g, .corruption "HNSW index vector data size mismatch")
  else if (nodes = [] ∧ maxLevel ≠ -1) ∨
      (nodes ≠ [] ∧ (maxLevel < 0 ∨ entryPoint ≥ nodes.length)) then
    (g, .corruption "invalid HNSW index graph header")
  else
    ({ g with
        nodes := nodes.mapIdx fun index n =>
          ⟨index, n.key, index * g.options.dimension, n.metadata, n.neighbors⟩
        vectorData := vectorData
        maxLevel := if nodes = [] then -1 else maxLevel
        entryPoint := if nodes = [] then 0 else entryPoint }, .ok)

end HNSWGraph

end KvMem
