import KvMem.Vector.IndexFile
import KvMem.Vector.IndexInvariant

/-! # Loaded indexes

The checks of `Load` are enough: an index that a file was loaded into satisfies the
index invariant, whatever the bytes of the file are. A failed load changes nothing.
-/

namespace KvMem.HNSWIndex

open Parsing VersionTable

/-! ## Records -/

structure NodeOk (options : HNSWGraphOptions) (n : LoadedNode) : Prop where
  key : n.node.key ≠ []
  vector : options.validateVector n.vector = .ok
  layers_pos : 1 ≤ n.node.neighbors.length
  layers_le : n.node.neighbors.length ≤ kMaximumRandomLevel + 1
  limit : ∀ layer ns, n.node.neighbors[layer]? = some ns → ns.length ≤ options.neighborLimit layer

variable {input : Bytes} {layer nodeCount dimension : Nat} {ns : List Nat} {n : LoadedNode}
  {nodes : List LoadedNode} {u : Unit} {g : HNSWGraph} {file : Option Bytes} {index : HNSWIndex}

theorem readValue_ok {i : Nat} {value : Float32Bits} {rest : Bytes}
    (h : readValue i input = .ok (value, rest)) : value.isFinite = true := by
  rw [readValue, bind_ok] at h
  obtain ⟨⟨bits, rest₁⟩, _, h⟩ := h
  obtain ⟨_, hfinite, h⟩ := bind_ok.mp h
  cases h
  exact require_ok hfinite

theorem readLayer_ok {options : HNSWGraphOptions} {rest : Bytes}
    (h : readLayer options nodeCount layer input = .ok (ns, rest)) :
    ns.length ≤ options.neighborLimit layer := by
  rw [readLayer, bind_ok] at h
  obtain ⟨⟨count, rest₁⟩, _, h⟩ := h
  obtain ⟨_, hcount, h⟩ := bind_ok.mp h
  have hlen := (times_ok (P := fun _ _ => True) (fun _ _ _ _ _ => trivial) count 0 rest₁ h).1
  have hle := of_decide_eq_true (require_ok hcount)
  rw [hlen]
  exact hle.1

theorem validateVector_of_checks {options : HNSWGraphOptions} {vector : FloatVector}
    (hlen : vector.length = options.dimension) (hfinite : ∀ v ∈ vector, v.isFinite = true)
    (hzero : ¬ (options.metric = .kCosine ∧ vector.all Float32Bits.isZero = true)) :
    options.validateVector vector = .ok := by
  rw [HNSWGraphOptions.validateVector, if_neg (not_not.mpr hlen),
    if_neg (not_not.mpr (List.all_eq_true.mpr hfinite)), if_neg hzero]

theorem readNode_ok {options : HNSWGraphOptions} {index : Nat} {rest : Bytes}
    (h : readNode options nodeCount index input = .ok (n, rest)) : NodeOk options n := by
  rw [readNode, bind_ok] at h
  obtain ⟨⟨nodeId, rest₁⟩, _, h⟩ := h
  obtain ⟨_, _, h⟩ := bind_ok.mp h
  obtain ⟨⟨key, rest₂⟩, _, h⟩ := bind_ok.mp h
  obtain ⟨_, hkey, h⟩ := bind_ok.mp h
  obtain ⟨⟨sequence, rest₃⟩, _, h⟩ := bind_ok.mp h
  obtain ⟨⟨vector, rest₄⟩, hvector, h⟩ := bind_ok.mp h
  obtain ⟨_, hzero, h⟩ := bind_ok.mp h
  obtain ⟨⟨metadata, rest₅⟩, _, h⟩ := bind_ok.mp h
  obtain ⟨⟨layerCount, rest₆⟩, _, h⟩ := bind_ok.mp h
  obtain ⟨_, hcount, h⟩ := bind_ok.mp h
  obtain ⟨⟨neighbors, rest₇⟩, hneighbors, h⟩ := bind_ok.mp h
  cases h
  obtain ⟨hvlen, hvalues⟩ := times_ok (P := fun _ v => Float32Bits.isFinite v = true)
    (fun _ _ _ _ => readValue_ok) _ _ _ hvector
  obtain ⟨hnlen, hlayers⟩ := times_ok (P := fun layer ns => List.length ns ≤
    options.neighborLimit layer) (fun _ _ _ _ => readLayer_ok) _ _ _ hneighbors
  have hlayerCount := of_decide_eq_true (require_ok hcount)
  refine ⟨of_decide_eq_true (require_ok hkey), ?_, ?_, ?_, ?_⟩
  · refine validateVector_of_checks hvlen ?_ (of_decide_eq_true (require_ok hzero))
    intro v hv
    obtain ⟨j, hj⟩ := List.mem_iff_getElem?.mp hv
    exact hvalues j v hj
  · show 1 ≤ neighbors.length
    omega
  · show neighbors.length ≤ kMaximumRandomLevel + 1
    omega
  · intro layer ns hns
    have hlimit := hlayers layer ns hns
    rwa [Nat.zero_add] at hlimit

theorem readVersion_key {key : Bytes} {sequence : Nat} {state : VersionState} {rest : Bytes}
    (h : readVersion nodeCount input = .ok ((key, sequence, state), rest)) : key ≠ [] := by
  rw [readVersion, bind_ok] at h
  obtain ⟨⟨key', rest₁⟩, _, h⟩ := h
  obtain ⟨_, hkey, h⟩ := bind_ok.mp h
  obtain ⟨⟨sequence', rest₂⟩, _, h⟩ := bind_ok.mp h
  obtain ⟨⟨nodeId, rest₃⟩, _, h⟩ := bind_ok.mp h
  cases rest₃ with
  | nil => cases h
  | cons tag rest₄ =>
    obtain ⟨_, _, h⟩ := bind_ok.mp h
    obtain ⟨_, _, h⟩ := bind_ok.mp h
    cases h
    exact of_decide_eq_true (require_ok hkey)

theorem readVersions_ok (count : Nat) {table : VersionTable} {table' : VersionTable} {rest : Bytes}
    (hwf : table.Wf) (hkeys : ∀ k ∈ table.map (·.1), k ≠ [])
    (h : readVersions nodeCount count table input = .ok (table', rest)) :
    table'.Wf ∧ ∀ k ∈ table'.map (·.1), k ≠ [] := by
  induction count generalizing table input with
  | zero =>
    cases h
    exact ⟨hwf, hkeys⟩
  | succ count ih =>
    rw [readVersions, bind_ok] at h
    obtain ⟨⟨⟨key, sequence, state⟩, rest₁⟩, hread, h⟩ := h
    obtain ⟨_, _, h⟩ := bind_ok.mp h
    refine ih (hwf.emplace key sequence state) ?_ h
    intro k hk
    rcases mem_emplace_key hk with heq | hold
    · rw [heq]
      exact readVersion_key hread
    · exact hkeys k hold

/-! ## Checks across the records -/

structure GraphChecked (header : Header) (nodes : List LoadedNode) (table : VersionTable) :
    Prop where
  registered : ∀ i (n : LoadedNode), nodes[i]? = some n →
    table.version n.node.key n.sequence = some ⟨i, false⟩
  layer : ∀ i (n : LoadedNode) layer (ns : List Nat), nodes[i]? = some n →
    n.node.neighbors[layer]? = some ns → ns.Nodup ∧
      ∀ j ∈ ns, j ≠ i ∧ ∃ n' : LoadedNode, nodes[j]? = some n' ∧ layer < n'.node.neighbors.length
  maxLevel : actualMaxLevel nodes = header.encodedLevel
  entry : header.nodeCount ≠ 0 → ∃ n, nodes[header.entryPoint]? = some n ∧
    (n.node.neighbors.length : Int) = header.encodedLevel + 1
  refers : ∀ k m s v, (k, m) ∈ table → (s, v) ∈ m → v.deleted = false →
    ∃ n, nodes[v.nodeId]? = some n ∧ n.node.key = k ∧ n.sequence = s

theorem checkLayer_ok {index : Nat} (h : checkLayer nodes index layer ns = .ok u) :
    ns.Nodup ∧ ∀ j ∈ ns, j ≠ index ∧
      ∃ n', nodes[j]? = some n' ∧ layer < n'.node.neighbors.length := by
  rw [checkLayer, bind_ok] at h
  obtain ⟨_, hnodup, hall⟩ := h
  refine ⟨of_decide_eq_true (require_ok hnodup), ?_⟩
  intro j hj
  have hj' := of_decide_eq_true (List.all_eq_true.mp (require_ok hall) j hj)
  obtain ⟨n', hn', hlt⟩ := (Option.any_eq_true _ _).mp hj'.2
  exact ⟨hj'.1, n', hn', of_decide_eq_true hlt⟩

theorem checkGraph_ok {header : Header} {table : VersionTable}
    (h : checkGraph header nodes table = .ok u) : GraphChecked header nodes table := by
  rw [checkGraph, bind_ok] at h
  obtain ⟨_, hnodes, h⟩ := h
  obtain ⟨_, hlevel, hversions⟩ := bind_ok.mp h
  have hlevel' := of_decide_eq_true (require_ok hlevel)
  have hnode : ∀ i n, nodes[i]? = some n → checkNode nodes table i n = .ok () := by
    intro i n hn
    have hi := checkAll_ok nodes 0 hnodes i hn
    rwa [Nat.zero_add] at hi
  refine ⟨?_, ?_, hlevel'.1, ?_, ?_⟩
  · intro i n hn
    obtain ⟨_, hregistered, _⟩ := bind_ok.mp (hnode i n hn)
    exact of_decide_eq_true (require_ok hregistered)
  · intro i n layer ns hn hns
    obtain ⟨_, _, hlayers⟩ := bind_ok.mp (hnode i n hn)
    have hlayer := checkAll_ok n.node.neighbors 0 hlayers layer hns
    rw [Nat.zero_add] at hlayer
    exact checkLayer_ok hlayer
  · intro hcount
    obtain ⟨n, hn, heq⟩ := (Option.any_eq_true _ _).mp (hlevel'.2 hcount)
    exact ⟨n, hn, of_decide_eq_true heq⟩
  · intro k m s v hm hv hdeleted
    have hall := List.all_eq_true.mp (List.all_eq_true.mp (require_ok hversions) (k, m) hm) (s, v) hv
    rw [refersToNode, hdeleted, Bool.false_or] at hall
    obtain ⟨n, hn, heq⟩ := (Option.any_eq_true _ _).mp hall
    exact ⟨n, hn, of_decide_eq_true heq⟩

theorem le_actualMaxLevel (nodes : List LoadedNode) (h : n ∈ nodes) :
    (n.node.neighbors.length : Int) - 1 ≤ actualMaxLevel nodes := by
  have hfold : ∀ (nodes : List LoadedNode) (level : Int),
      level ≤ nodes.foldl (fun level n => max level ((n.node.neighbors.length : Int) - 1)) level ∧
      ∀ n ∈ nodes, (n.node.neighbors.length : Int) - 1 ≤
        nodes.foldl (fun level n => max level ((n.node.neighbors.length : Int) - 1)) level := by
    intro nodes
    induction nodes with
    | nil => simp
    | cons a nodes ih =>
      intro level
      obtain ⟨hstart, hall⟩ := ih (max level ((a.node.neighbors.length : Int) - 1))
      rw [List.foldl_cons]
      refine ⟨(le_max_left _ _).trans hstart, ?_⟩
      intro n hn
      rcases List.mem_cons.mp hn with heq | hmem
      · rw [heq]
        exact (le_max_right _ _).trans hstart
      · exact hall n hmem
  exact (hfold nodes (-1)).2 n h

/-! ## The file as a whole -/

structure Parsed (options : HNSWGraphOptions) (header : Header) (nodes : List LoadedNode)
    (table : VersionTable) : Prop where
  count : nodes.length = header.nodeCount
  node_ok : ∀ n ∈ nodes, NodeOk options n
  table_wf : table.Wf
  keys : ∀ k ∈ table.map (·.1), k ≠ []
  empty : header.nodeCount = 0 → header.encodedLevel = -1
  nonempty : header.nodeCount ≠ 0 → 0 ≤ header.encodedLevel ∧ header.entryPoint < header.nodeCount
  checked : GraphChecked header nodes table

theorem parseFile_ok {options : HNSWGraphOptions} {file : Bytes} {header : Header}
    {table : VersionTable} (h : parseFile options file = .ok (header, nodes, table)) :
    Parsed options header nodes table := by
  rw [parseFile, bind_ok] at h
  obtain ⟨_, _, h⟩ := h
  obtain ⟨⟨header', rest₁⟩, _, h⟩ := bind_ok.mp h
  obtain ⟨_, hheader, h⟩ := bind_ok.mp h
  obtain ⟨⟨nodes', rest₂⟩, hnodes, h⟩ := bind_ok.mp h
  obtain ⟨⟨table', rest₃⟩, htable, h⟩ := bind_ok.mp h
  obtain ⟨_, _, h⟩ := bind_ok.mp h
  obtain ⟨_, _, h⟩ := bind_ok.mp h
  obtain ⟨_, hgraph, h⟩ := bind_ok.mp h
  cases h
  obtain ⟨_, _, hrest⟩ := bind_ok.mp hheader
  obtain ⟨_, hlevel, _⟩ := bind_ok.mp hrest
  have hlevel' := of_decide_eq_true (require_ok hlevel)
  obtain ⟨hcount, heach⟩ := times_ok (P := fun _ n => NodeOk options n)
    (fun _ _ _ _ => readNode_ok) _ _ _ hnodes
  obtain ⟨hwf, hkeys⟩ := readVersions_ok header.versionCount wf_nil (by simp) htable
  refine ⟨hcount, ?_, hwf, hkeys, hlevel'.2.1, hlevel'.2.2, checkGraph_ok hgraph⟩
  intro n hn
  obtain ⟨j, hj⟩ := List.mem_iff_getElem?.mp hn
  exact heach j n hj

/-! ## The graph that replaces the old one -/

theorem flatMap_vector_slice (nodes : List LoadedNode)
    (hlen : ∀ n ∈ nodes, n.vector.length = dimension) (i : Nat) (hn : nodes[i]? = some n) :
    ((nodes.flatMap (·.vector)).drop (i * dimension)).take dimension = n.vector := by
  induction nodes generalizing i with
  | nil => cases hn
  | cons a nodes ih =>
    have ha : a.vector.length = dimension := hlen a List.mem_cons_self
    rw [List.flatMap_cons]
    cases i with
    | zero =>
      have heq : a = n := by simpa using hn
      subst heq
      rw [Nat.zero_mul, List.drop_zero, List.take_left' ha]
    | succ i =>
      have hdrop : (i + 1) * dimension = a.vector.length + i * dimension := by
        rw [ha, Nat.succ_mul, Nat.add_comm]
      rw [hdrop, ← List.drop_drop, List.drop_left]
      exact ih (fun n hn => hlen n (List.mem_cons_of_mem _ hn)) i (by simpa using hn)

theorem flatMap_vector_length (nodes : List LoadedNode)
    (hlen : ∀ n ∈ nodes, n.vector.length = dimension) :
    (nodes.flatMap (·.vector)).length = nodes.length * dimension := by
  induction nodes with
  | nil => simp
  | cons a nodes ih =>
    have hrest := ih (fun n hn => hlen n (List.mem_cons_of_mem _ hn))
    rw [List.flatMap_cons, List.length_append, hrest, hlen a List.mem_cons_self,
      List.length_cons, Nat.succ_mul, Nat.add_comm]

/-- The graph `Replace` installs. -/
def installed (options : HNSWGraphOptions) (header : Header) (nodes : List LoadedNode) :
    HNSWGraph where
  options := options
  maxLevel := if nodes = [] then -1 else header.encodedLevel
  entryPoint := if nodes = [] then 0 else header.entryPoint
  nodes := nodes.mapIdx fun index n =>
    ⟨index, n.node.key, index * options.dimension, n.node.metadata, n.node.neighbors⟩
  vectorData := nodes.flatMap (·.vector)

theorem replace_eq {g' : HNSWGraph} {header : Header}
    (h : g.replace (nodes.map (·.node)) (nodes.flatMap (·.vector)) header.entryPoint
      header.encodedLevel = (g', .ok)) : g' = installed g.options header nodes := by
  unfold HNSWGraph.replace at h
  split at h
  · cases h
  · split at h
    · cases h
    · split at h
      · cases h
      · split at h
        · cases h
        · cases h
          have hnodes : ∀ f : Nat → HNSWGraphNode → HNSWNode,
              (nodes.map (·.node)).mapIdx f = nodes.mapIdx fun index n => f index n.node := by
            intro f
            apply List.ext_getElem?
            intro i
            rw [List.getElem?_mapIdx, List.getElem?_mapIdx, List.getElem?_map, Option.map_map]
            rfl
          simp only [installed, List.map_eq_nil_iff, hnodes]

section Installed

variable {options : HNSWGraphOptions} {header : Header} {nodes : List LoadedNode}
  {table : VersionTable}

theorem installed_get (i : Nat) :
    (installed options header nodes).nodes[i]? = (nodes[i]?).map fun n =>
      ⟨i, n.node.key, i * options.dimension, n.node.metadata, n.node.neighbors⟩ :=
  List.getElem?_mapIdx

@[simp] theorem installed_size : (installed options header nodes).size = nodes.length :=
  List.length_mapIdx

variable {i : Nat}

theorem installed_levelCount {n : LoadedNode} (hn : nodes[i]? = some n) :
    (installed options header nodes).levelCount i = n.node.neighbors.length := by
  rw [HNSWGraph.levelCount, installed_get, hn]
  rfl

theorem installed_keyOf {n : LoadedNode} (hn : nodes[i]? = some n) :
    (installed options header nodes).keyOf i = n.node.key := by
  rw [HNSWGraph.keyOf, installed_get, hn]
  rfl

theorem installed_neighborsOf {layer : Nat} {n : LoadedNode} (hn : nodes[i]? = some n) :
    (installed options header nodes).neighborsOf i layer = (n.node.neighbors[layer]?).getD [] := by
  rw [HNSWGraph.neighborsOf, installed_get, hn]
  rfl

theorem Parsed.vector_length (h : Parsed options header nodes table) (n : LoadedNode)
    (hn : n ∈ nodes) : n.vector.length = options.dimension :=
  HNSWGraph.validateVector_length (h.node_ok n hn).vector

theorem Parsed.vectorOf (h : Parsed options header nodes table) {n : LoadedNode}
    (hn : nodes[i]? = some n) : (installed options header nodes).vectorOf i = n.vector := by
  rw [HNSWGraph.vectorOf, installed_get, hn]
  exact flatMap_vector_slice nodes h.vector_length i hn

theorem exists_node (h : i < nodes.length) : ∃ n, nodes[i]? = some n :=
  ⟨nodes[i], List.getElem?_eq_getElem h⟩

section

variable (h : Parsed options header nodes table)

include h

theorem Parsed.links : HNSWGraph.AllLinks (installed options header nodes) := by
  intro i layer hlayer
  obtain ⟨n, hn⟩ := exists_node (by
    simpa using HNSWGraph.lt_size_of_levelCount hlayer : i < nodes.length)
  rw [installed_levelCount hn] at hlayer
  have hns : n.node.neighbors[layer]? = some (n.node.neighbors[layer]) :=
    List.getElem?_eq_getElem hlayer
  rw [installed_neighborsOf hn, hns, Option.getD_some]
  obtain ⟨hnodup, hall⟩ := h.checked.layer i n layer _ hn hns
  refine ⟨(h.node_ok n (List.mem_of_getElem? hn)).limit layer _ hns, hnodup, ?_, ?_⟩
  · intro hself
    exact (hall i hself).1 rfl
  · intro j hj
    obtain ⟨_, n', hn', hlt⟩ := hall j hj
    rw [installed_levelCount hn']
    exact hlt

theorem Parsed.top : ((installed options header nodes).nodes = [] ∧
      (installed options header nodes).maxLevel = -1) ∨
    ∃ top : Nat, (installed options header nodes).maxLevel = top ∧
      (installed options header nodes).levelCount (installed options header nodes).entryPoint =
        top + 1 ∧ ∀ i, (installed options header nodes).levelCount i ≤ top + 1 := by
  by_cases hnil : nodes = []
  · left
    subst hnil
    exact ⟨rfl, rfl⟩
  · right
    have hcount : header.nodeCount ≠ 0 := by
      rw [← h.count]
      exact fun hz => hnil (List.eq_nil_of_length_eq_zero hz)
    obtain ⟨hlevel, _⟩ := h.nonempty hcount
    obtain ⟨n, hn, hlen⟩ := h.checked.entry hcount
    have hmax : (installed options header nodes).maxLevel = header.encodedLevel := if_neg hnil
    have hentry : (installed options header nodes).entryPoint = header.entryPoint := if_neg hnil
    refine ⟨header.encodedLevel.toNat, by omega, ?_, ?_⟩
    · rw [hentry, installed_levelCount hn]
      omega
    · intro i
      cases hi : nodes[i]? with
      | none =>
        rw [HNSWGraph.levelCount_of_ge (by simpa using List.getElem?_eq_none_iff.mp hi)]
        exact Nat.zero_le _
      | some n' =>
        have hle := le_actualMaxLevel nodes (List.mem_of_getElem? hi)
        rw [h.checked.maxLevel] at hle
        rw [installed_levelCount hi]
        omega

theorem Parsed.graph_ok
    (ho : options.validateOptions = .ok) : (installed options header nodes).Ok where
  options := ho
  vectorData_length := by
    rw [installed_size]
    exact flatMap_vector_length nodes h.vector_length
  node := by
    intro i n' hn'
    rw [installed_get] at hn'
    obtain ⟨n, hn, heq⟩ := Option.map_eq_some_iff.mp hn'
    subst heq
    have hnode := h.node_ok n (List.mem_of_getElem? hn)
    exact ⟨rfl, hnode.key, rfl, hnode.layers_pos, hnode.layers_le⟩
  vectors := by
    intro i hi
    obtain ⟨n, hn⟩ := exists_node (by simpa using hi : i < nodes.length)
    rw [h.vectorOf hn]
    exact (h.node_ok n (List.mem_of_getElem? hn)).vector
  links := h.links
  top := h.top

/-- The cross references of the file are the invariant of the index. -/
theorem Parsed.index_ok
    (ho : options.validateOptions = .ok) : Ok ⟨installed options header nodes, table⟩ where
  graph := h.graph_ok ho
  table := h.table_wf
  key_ne_nil k m hm := h.keys k (List.mem_map.mpr ⟨(k, m), hm, rfl⟩)
  version := by
    intro k s i hv
    obtain ⟨m, hm, hs⟩ := (version_eq_some h.table_wf).mp hv
    obtain ⟨n, hn, hkey, _⟩ := h.checked.refers k m s _ hm hs rfl
    refine ⟨?_, (installed_keyOf hn).trans hkey⟩
    show i < (installed options header nodes).size
    rw [installed_size]
    exact (List.getElem?_eq_some_iff.mp hn).1
  node := by
    intro i hi
    obtain ⟨n, hn⟩ := exists_node (by simpa using hi : i < nodes.length)
    refine ⟨n.sequence, ?_, ?_⟩
    · show table.version ((installed options header nodes).keyOf i) n.sequence = some ⟨i, false⟩
      rw [installed_keyOf hn]
      exact h.checked.registered i n hn
    · intro s hs
      obtain ⟨m, hm, hmem⟩ := (version_eq_some h.table_wf).mp hs
      obtain ⟨n', hn', _, hseq⟩ := h.checked.refers _ m s _ hm hmem rfl
      have heq : n = n' := Option.some.inj (hn.symm.trans hn')
      rw [heq, hseq]

end

end Installed

/-! ## Load -/

theorem replace_failed {graph : HNSWGraph} {nodes : List HNSWGraphNode}
    {vectorData : List Float32Bits} {entryPoint : Nat} {maxLevel : Int} {e : Status}
    (h : g.replace nodes vectorData entryPoint maxLevel = (graph, e)) (he : e ≠ .ok) :
    graph = g := by
  unfold HNSWGraph.replace at h
  split at h
  · cases h
    rfl
  · split at h
    · cases h
      rfl
    · split at h
      · cases h
        rfl
      · split at h
        · cases h
          rfl
        · cases h
          exact absurd rfl he

theorem load_cases (index : HNSWIndex) (file : Option Bytes) :
    ((index.load file).1 = index ∧ (index.load file).2 ≠ .ok) ∨
    ∃ bytes header nodes table, file = some bytes ∧ index.options.validateOptions = .ok ∧
      parseFile index.options bytes = .ok (header, nodes, table) ∧
      index.load file = (⟨installed index.options header nodes, table⟩, .ok) := by
  unfold load
  split
  · rename_i ho
    cases file with
    | none => exact Or.inl ⟨rfl, by simp⟩
    | some bytes =>
      dsimp only
      cases hp : parseFile index.options bytes with
      | error text => exact Or.inl ⟨rfl, by simp⟩
      | ok r =>
        obtain ⟨header, nodes, table⟩ := r
        dsimp only
        split
        · rename_i graph hreplace
          right
          refine ⟨bytes, header, nodes, table, rfl, ho, hp, ?_⟩
          rw [replace_eq hreplace]
          rfl
        · rename_i graph e hne hreplace
          rw [replace_failed hreplace hne]
          exact Or.inl ⟨rfl, hne⟩
  · rename_i hne
    exact Or.inl ⟨rfl, hne⟩

theorem load_error (h : (index.load file).2 ≠ .ok) : (index.load file).1 = index := by
  rcases load_cases index file with hold | ⟨_, _, _, _, _, _, _, heq⟩
  · exact hold.1
  · rw [heq] at h
    exact absurd rfl h

theorem load_success (h : (index.load file).2 = .ok) : Kept index (index.load file).1 := by
  rcases load_cases index file with hold | ⟨_, _, _, _, _, ho, hparse, heq⟩
  · exact absurd h hold.2
  · rw [heq]
    exact ⟨(parseFile_ok hparse).index_ok ho, rfl⟩

theorem load_kept (hok : Ok index) (file : Option Bytes) : Kept index (index.load file).1 := by
  by_cases h : (index.load file).2 = .ok
  · exact load_success h
  · rw [load_error h]
    exact hok.kept

/-! ## MergeFrom -/

section Merge

variable {D : Type} [LinearOrder D] (dist : FloatVector → FloatVector → D)

theorem mergeVersion_kept {index : HNSWIndex} (hok : Ok index) (loaded : HNSWGraph) (key : Bytes)
    (version : Nat × VersionState) {level : Nat} (hlevel : level ≤ kMaximumRandomLevel) :
    Kept index (mergeVersion dist loaded key version level index).1 := by
  unfold mergeVersion
  split
  · exact markDeleted_kept hok key version.1
  · split
    · exact hok.kept
    · exact insertVersion_kept dist hok key version.1 _ _ hlevel

variable {levels : Bytes → Nat → Nat}

theorem mergeVersions_kept {index : HNSWIndex} (hok : Ok index) (loaded : HNSWGraph)
    (hlevels : ∀ k s, levels k s ≤ kMaximumRandomLevel)
    (versions : List (Bytes × Nat × VersionState)) :
    Kept index (mergeVersions dist loaded levels versions index).1 := by
  induction versions generalizing index with
  | nil => exact hok.kept
  | cons e versions ih =>
    obtain ⟨key, version⟩ := e
    have hstep := mergeVersion_kept dist hok loaded key version (hlevels key version.1)
    rw [mergeVersions]
    split
    · rename_i index' hmerge
      rw [hmerge] at hstep
      exact hstep.trans (ih hstep.ok)
    · rename_i index' status hmerge
      rw [hmerge] at hstep
      exact hstep

theorem mergeFrom_kept {index : HNSWIndex} (hok : Ok index) (file : Option Bytes)
    (order : VersionTable → VersionTable) (hlevels : ∀ k s, levels k s ≤ kMaximumRandomLevel) :
    Kept index (index.mergeFrom dist file order levels).1 := by
  unfold mergeFrom
  split
  · exact mergeVersions_kept dist hok _ hlevels _
  · exact hok.kept

end Merge

end KvMem.HNSWIndex
