import KvMem.Foundation.OrderedMap
import KvMem.Vector.GraphInvariant

/-! # The index

`HNSWIndex`: a graph and, for every key, its versions by sequence number. A version
is a tombstone or refers to the graph node that holds its vector and metadata; the
graph keeps the nodes of old versions and knows nothing of sequence numbers.
-/

namespace KvMem

open BeamSearch

structure VersionState where
  nodeId : Nat := 0
  deleted : Bool := false
  deriving DecidableEq, Repr

/-- The versions of one key, in ascending order of their sequence numbers. -/
abbrev VersionMap := List (Nat × VersionState)

/-- The versions of all keys, in the order an iteration meets the keys. -/
abbrev VersionTable := List (Bytes × VersionMap)

namespace VersionTable

def find (table : VersionTable) (key : Bytes) : Option VersionMap := OrderedMap.find table key

/-- `table[key].emplace(..)`. -/
def emplace (key : Bytes) (sequence : Nat) (state : VersionState) : VersionTable → VersionTable
  | [] => [(key, OrderedMap.emplace sequence state [])]
  | (k, versions) :: table =>
    if k = key then (k, OrderedMap.emplace sequence state versions) :: table
    else (k, versions) :: emplace key sequence state table

def version (table : VersionTable) (key : Bytes) (sequence : Nat) : Option VersionState :=
  (table.find key).bind fun versions => OrderedMap.find versions sequence

structure Wf (table : VersionTable) : Prop where
  keys : (table.map (·.1)).Nodup
  versions : ∀ k m, (k, m) ∈ table → OrderedMap.Ascending m ∧ m ≠ []

theorem wf_nil : Wf [] where
  keys := List.nodup_nil
  versions := by simp

theorem find_cons (k : Bytes) (m : VersionMap) (table : VersionTable) (key : Bytes) :
    find ((k, m) :: table) key = if k = key then some m else find table key := rfl

theorem find_emplace (table : VersionTable) (key : Bytes) (sequence : Nat) (state : VersionState)
    (other : Bytes) :
    (table.emplace key sequence state).find other =
      if other = key then some (OrderedMap.emplace sequence state ((table.find key).getD []))
      else table.find other := by
  induction table with
  | nil =>
    rw [emplace, find_cons]
    by_cases h : other = key
    · rw [if_pos h, if_pos h.symm]
      rfl
    · rw [if_neg h, if_neg (Ne.symm h)]
  | cons e table ih =>
    obtain ⟨k, m⟩ := e
    rw [emplace]
    by_cases hk : k = key
    · subst hk
      rw [if_pos rfl, find_cons, find_cons, find_cons, if_pos rfl]
      by_cases h : other = k
      · rw [if_pos h, if_pos h.symm]
        rfl
      · rw [if_neg h, if_neg (Ne.symm h)]
        exact (if_neg (Ne.symm h)).symm
    · rw [if_neg hk, find_cons, find_cons, find_cons, if_neg hk, ih]
      by_cases h : other = key
      · subst h
        rw [if_pos rfl, if_pos rfl, if_neg hk]
      · rw [if_neg h, if_neg h]

theorem find_versions {table : VersionTable} (hwf : Wf table) {key : Bytes} {m : VersionMap}
    (h : table.find key = some m) : OrderedMap.Ascending m ∧ m ≠ [] :=
  hwf.versions key m (OrderedMap.mem_of_find h)

variable {sequence : Nat} {k : Bytes} {state : VersionState} {table' : VersionTable}

theorem version_emplace {table : VersionTable} {key : Bytes}
    (hnew : table.version key sequence = none) (state : VersionState) (k : Bytes) (s : Nat) :
    (table.emplace key sequence state).version k s =
      if k = key ∧ s = sequence then some state else table.version k s := by
  rw [version, find_emplace]
  by_cases hk : k = key
  · subst hk
    have hmap : OrderedMap.find ((table.find k).getD []) sequence = none := by
      rw [version] at hnew
      cases hf : table.find k with
      | none => rfl
      | some m =>
        rw [hf] at hnew
        exact hnew
    have hold : OrderedMap.find ((table.find k).getD []) s = table.version k s := by
      rw [version]
      cases hf : table.find k with
      | none => rfl
      | some m => rfl
    rw [if_pos rfl, Option.bind_some, OrderedMap.find_emplace hmap, hold]
    simp
  · rw [if_neg hk, if_neg (fun h => hk h.1)]
    rfl

theorem version_emplace_cases {table : VersionTable} {key : Bytes}
    (hnew : table.version key sequence = none) {s : Nat} {v : VersionState}
    (h : (table.emplace key sequence state).version k s = some v) :
    (k = key ∧ s = sequence ∧ v = state) ∨ table.version k s = some v := by
  rw [version_emplace hnew] at h
  split at h
  · rename_i hks
    exact Or.inl ⟨hks.1, hks.2, (Option.some.inj h).symm⟩
  · exact Or.inr h

theorem mem_emplace_key {table : VersionTable} {key : Bytes}
    (h : k ∈ (table.emplace key sequence state).map (·.1)) : k = key ∨ k ∈ table.map (·.1) := by
  induction table with
  | nil => exact Or.inl (by simpa [emplace] using h)
  | cons e table ih =>
    obtain ⟨k', m⟩ := e
    rw [emplace] at h
    split at h
    · exact Or.inr h
    · rcases List.mem_cons.mp h with heq | hmem
      · exact Or.inr (List.mem_cons.mpr (Or.inl heq))
      · exact (ih hmem).imp_right (List.mem_cons_of_mem _)

theorem Wf.tail {e : Bytes × VersionMap} {table : VersionTable} (h : Wf (e :: table)) : Wf table where
  keys := (List.nodup_cons.mp h.keys).2
  versions k m hm := h.versions k m (List.mem_cons_of_mem _ hm)

theorem Wf.emplace {table : VersionTable} (hwf : Wf table) (key : Bytes) (sequence : Nat)
    (state : VersionState) : Wf (table.emplace key sequence state) := by
  induction table with
  | nil =>
    refine ⟨List.nodup_singleton _, ?_⟩
    intro k m hm
    cases List.mem_singleton.mp hm
    exact ⟨OrderedMap.ascending_emplace OrderedMap.ascending_nil _ _,
      OrderedMap.emplace_ne_nil _ _ _⟩
  | cons e table ih =>
    obtain ⟨k', m'⟩ := e
    obtain ⟨hhead, htail⟩ := List.nodup_cons.mp hwf.keys
    rw [VersionTable.emplace]
    split
    · refine ⟨hwf.keys, ?_⟩
      intro k m hm
      rcases List.mem_cons.mp hm with heq | hmem
      · cases heq
        have hold := hwf.versions k' m' List.mem_cons_self
        exact ⟨OrderedMap.ascending_emplace hold.1 _ _, OrderedMap.emplace_ne_nil _ _ _⟩
      · exact hwf.versions k m (List.mem_cons_of_mem _ hmem)
    · rename_i hne
      have hrest := ih hwf.tail
      refine ⟨List.nodup_cons.mpr ⟨?_, hrest.keys⟩, ?_⟩
      · intro hmem
        rcases mem_emplace_key hmem with heq | hin
        · exact hne heq
        · exact hhead hin
      · intro k m hm
        rcases List.mem_cons.mp hm with heq | hmem
        · cases heq
          exact hwf.versions k' m' List.mem_cons_self
        · exact hrest.versions k m hmem

theorem version_eq_some {table : VersionTable} (hwf : Wf table) {key : Bytes} :
    table.version key sequence = some state ↔ ∃ m, (key, m) ∈ table ∧ (sequence, state) ∈ m := by
  rw [version]
  constructor
  · intro h
    obtain ⟨m, hm, hs⟩ := Option.bind_eq_some_iff.mp h
    exact ⟨m, OrderedMap.mem_of_find hm, OrderedMap.mem_of_find hs⟩
  · rintro ⟨m, hm, hs⟩
    rw [find, OrderedMap.find_of_mem hwf.keys hm]
    exact OrderedMap.find_of_mem (hwf.versions key m hm).1.nodup hs

/-! An iteration meets the keys in any order. -/

theorem Wf.perm {table : VersionTable} (h : Wf table) (hp : table'.Perm table) :
    Wf table' where
  keys := (hp.map _).nodup_iff.mpr h.keys
  versions k m hm := h.versions k m (hp.mem_iff.mp hm)

theorem find_perm {table : VersionTable} (h : Wf table) (hp : table'.Perm table) (key : Bytes) :
    table'.find key = table.find key := by
  cases hf : table.find key with
  | some m =>
    exact OrderedMap.find_of_mem (h.perm hp).keys (hp.mem_iff.mpr (OrderedMap.mem_of_find hf))
  | none =>
    cases hf' : table'.find key with
    | none => rfl
    | some m =>
      have hfound := OrderedMap.find_of_mem h.keys (hp.mem_iff.mp (OrderedMap.mem_of_find hf'))
      cases hf.symm.trans hfound

theorem version_perm {table : VersionTable} (h : Wf table) (hp : table'.Perm table) (key : Bytes)
    (sequence : Nat) : table'.version key sequence = table.version key sequence := by
  rw [version, find_perm h hp, version]

end VersionTable

structure HNSWIndex where
  graph : HNSWGraph
  versionsByKey : VersionTable := []
  deriving DecidableEq, Repr

structure VectorResult (D : Type) where
  key : Bytes
  distance : D
  metadata : Bytes
  deriving DecidableEq, Repr

namespace HNSWIndex

def new (options : HNSWGraphOptions) : HNSWIndex := ⟨⟨options, -1, 0, [], []⟩, []⟩

def options (index : HNSWIndex) : HNSWGraphOptions := index.graph.options

def isVisibleAt (index : HNSWIndex) (nodeId : Nat) (key : Bytes) (readSequence : Nat) : Bool :=
  if nodeId ≥ index.graph.size then false
  else
    match index.versionsByKey.find key with
    | none => false
    | some versions =>
      match OrderedMap.lastAtMost readSequence versions with
      | none => false
      | some (_, visible) => !visible.deleted && visible.nodeId == nodeId

section Distance

variable {D : Type} [LinearOrder D] (dist : FloatVector → FloatVector → D)

/-- `InsertVersionLocked`, with the level the graph would draw. -/
def insertVersionLocked (index : HNSWIndex) (key : Bytes) (sequence : Nat) (vector : FloatVector)
    (metadata : Bytes) (allowExistingKey : Bool) (level : Nat) : HNSWIndex × Status :=
  if !allowExistingKey && (index.versionsByKey.find key).isSome then
    (index, .invalidArgument "HNSW key already exists")
  else
    match index.versionsByKey.version key sequence with
    | some existing =>
      if existing.deleted then
        (index, .invalidArgument "HNSW key version conflicts with tombstone")
      else if index.graph.vectorEquals existing.nodeId vector ∧
          index.graph.metadataOf existing.nodeId = metadata then (index, .ok)
      else (index, .invalidArgument "HNSW key version already exists")
    | none =>
      match index.graph.addNode dist vector key metadata level with
      | (_, .error e) => (index, e)
      | (graph, .ok nodeId) =>
        (⟨graph, index.versionsByKey.emplace key sequence ⟨nodeId, false⟩⟩, .ok)

/-- The checks of `Insert` and `InsertVersion` before the lock is taken. -/
def checkInsert (index : HNSWIndex) (key : Bytes) (vector : FloatVector) : Status :=
  match index.options.validateOptions with
  | .ok =>
    if key = [] then .invalidArgument "HNSW key cannot be empty"
    else index.options.validateVector vector
  | e => e

/-- `Insert`: the only version of a new key, at sequence 0. -/
def insert (index : HNSWIndex) (key : Bytes) (vector : FloatVector) (metadata : Bytes)
    (level : Nat) : HNSWIndex × Status :=
  match index.checkInsert key vector with
  | .ok => index.insertVersionLocked dist key 0 vector metadata false level
  | e => (index, e)

def insertVersion (index : HNSWIndex) (key : Bytes) (sequence : Nat) (vector : FloatVector)
    (metadata : Bytes) (level : Nat) : HNSWIndex × Status :=
  match index.checkInsert key vector with
  | .ok => index.insertVersionLocked dist key sequence vector metadata true level
  | e => (index, e)

end Distance

def markDeleted (index : HNSWIndex) (key : Bytes) (sequence : Nat) : HNSWIndex × Status :=
  match index.options.validateOptions with
  | .ok =>
    if key = [] then (index, .invalidArgument "HNSW key cannot be empty")
    else
      match index.versionsByKey.version key sequence with
      | some existing =>
        if existing.deleted then (index, .ok)
        else (index, .invalidArgument "HNSW key version already exists")
      | none =>
        ({ index with versionsByKey := index.versionsByKey.emplace key sequence ⟨0, true⟩ }, .ok)
  | e => (index, e)

section Search

variable {D : Type} [LinearOrder D] (dist : FloatVector → FloatVector → D)

def resultLe (a b : VectorResult D) : Prop :=
  a.distance < b.distance ∨ (a.distance = b.distance ∧ a.key ≤ b.key)

instance (a b : VectorResult D) : Decidable (resultLe a b) := by
  unfold resultLe
  infer_instance

def resultOf (index : HNSWIndex) (c : Candidate Nat D) : VectorResult D :=
  ⟨index.graph.keyOf c.id, c.distance, index.graph.metadataOf c.id⟩

def searchAtSequenceLocked (index : HNSWIndex) (query : FloatVector) (topK efSearch : Nat)
    (readSequence : Nat) : Except Status (List (VectorResult D)) :=
  if index.graph.size = 0 then .ok []
  else
    match index.graph.searchGraph dist query topK efSearch fun nodeId =>
        index.isVisibleAt nodeId (index.graph.keyOf nodeId) readSequence with
    | .error e => .error e
    | .ok candidates => .ok ((candidates.map index.resultOf).insertionSort resultLe)

def searchAtSequence (index : HNSWIndex) (query : FloatVector) (topK efSearch : Nat)
    (readSequence : Nat) : Except Status (List (VectorResult D)) :=
  match index.options.validateOptions with
  | .ok =>
    match index.options.validateVector query with
    | .ok =>
      if efSearch = 0 then
        .error (.invalidArgument "HNSW ef_search must be greater than zero")
      else if topK = 0 then .ok []
      else index.searchAtSequenceLocked dist query topK efSearch readSequence
    | e => .error e
  | e => .error e

/-- `Search`: at the largest sequence number. -/
def search (index : HNSWIndex) (query : FloatVector) (topK efSearch : Nat) :
    Except Status (List (VectorResult D)) :=
  index.searchAtSequence dist query topK efSearch maxUInt64

end Search

end HNSWIndex

end KvMem
