import KvMem.Vector.LoadInvariant

/-! # Runs

Any sequence of insertions into a graph, and any sequence of calls on an index. The
level of a node is whatever the generator draws for it, and a merge meets the keys of
a hash map in any order.
-/

namespace KvMem

/-! ## Insertions into a graph -/

namespace HNSWGraph

structure Addition where
  vector : FloatVector
  key : Bytes
  metadata : Bytes
  level : Nat
  deriving DecidableEq, Repr

/-- A graph nothing was inserted into yet: empty, or installed by `Load`. -/
inductive Start : HNSWGraph → Prop
  | empty (options : HNSWGraphOptions) (h : options.validateOptions = .ok) :
      Start ⟨options, -1, 0, [], []⟩
  | loaded (index : HNSWIndex) (file : Option Bytes) (h : (index.load file).2 = .ok) :
      Start (index.load file).1.graph

theorem Start.ok {g : HNSWGraph} (h : Start g) : g.Ok := by
  cases h with
  | empty options h => exact ok_empty h
  | loaded index file h => exact (HNSWIndex.load_success h).ok.graph

section Distance

variable {D : Type} [LinearOrder D] (dist : FloatVector → FloatVector → D)

/-- Insertions one after the other; those that fail change nothing. -/
def addNodes (g : HNSWGraph) (additions : List Addition) : HNSWGraph :=
  additions.foldl (fun g a => (g.addNode dist a.vector a.key a.metadata a.level).1) g

theorem addNode_keeps {g : HNSWGraph} (hok : g.Ok) {a : Addition}
    (hlevel : a.level ≤ kMaximumRandomLevel) :
    (g.addNode dist a.vector a.key a.metadata a.level).1.Ok := by
  cases h : (g.addNode dist a.vector a.key a.metadata a.level).2 with
  | error e =>
    rw [addNode_error dist g a.vector a.key a.metadata a.level h]
    exact hok
  | ok id =>
    have hvalid : a.key ≠ [] ∧ g.options.validateVector a.vector = .ok := by
      constructor
      · intro hk
        simp [addNode, hok.options, hk] at h
      · rcases validateVector_cases g.options a.vector with hv | ⟨message, hv⟩
        · exact hv
        · by_cases hk : a.key = []
          · simp [addNode, hok.options, hk] at h
          · simp [addNode, hok.options, hk, hv] at h
    obtain ⟨g', heq, hg', _⟩ := addNode_ok dist hok a.metadata hlevel hvalid.1 hvalid.2
    rw [heq]
    exact hg'

theorem addNodes_keeps {g : HNSWGraph} (hok : g.Ok) (additions : List Addition)
    (hlevels : ∀ a ∈ additions, a.level ≤ kMaximumRandomLevel) : (addNodes dist g additions).Ok := by
  induction additions generalizing g with
  | nil => exact hok
  | cons a additions ih =>
    exact ih (addNode_keeps dist hok (hlevels a List.mem_cons_self))
      (fun b hb => hlevels b (List.mem_cons_of_mem _ hb))

/-- Every graph insertions can build satisfies the invariant. It follows that a failed
insertion was given invalid arguments and changes nothing, and that every search
succeeds. -/
theorem addNodes_sound {g₀ : HNSWGraph} (hstart : Start g₀) (additions : List Addition)
    (hlevels : ∀ a ∈ additions, a.level ≤ kMaximumRandomLevel) :
    (addNodes dist g₀ additions).Ok ∧
    (∀ vector key metadata level, level ≤ kMaximumRandomLevel → ∀ e,
      ((addNodes dist g₀ additions).addNode dist vector key metadata level).2 = .error e →
      (∃ message, e = .invalidArgument message) ∧
      ((addNodes dist g₀ additions).addNode dist vector key metadata level).1 =
        addNodes dist g₀ additions) ∧
    (∀ vector key metadata level, level ≤ kMaximumRandomLevel → key ≠ [] →
      (addNodes dist g₀ additions).options.validateVector vector = .ok →
      ((addNodes dist g₀ additions).addNode dist vector key metadata level).2 =
        .ok (addNodes dist g₀ additions).size) ∧
    ∀ query topK ef visibility, ∃ results,
      (addNodes dist g₀ additions).searchGraph dist query topK ef visibility = .ok results := by
  have hok := addNodes_keeps dist hstart.ok additions hlevels
  refine ⟨hok, ?_, ?_, ?_⟩
  · intro vector key metadata level hlevel e he
    exact ⟨addNode_error_invalid dist hok vector key metadata hlevel he,
      addNode_error dist _ vector key metadata level he⟩
  · intro vector key metadata level hlevel hk hv
    obtain ⟨g', heq, _⟩ := addNode_ok dist hok metadata hlevel hk hv
    rw [heq]
  · exact searchGraph_ok dist hok

end Distance

theorem addNodes_sound_two :
    (addNodes exactL2 ⟨⟨1, 2, 1, .kL2⟩, -1, 0, [], []⟩
      [⟨[1#32], ascii "a", [], 1⟩, ⟨[2#32], ascii "b", [], 0⟩]).Ok ∧
    (addNodes exactL2 ⟨⟨1, 2, 1, .kL2⟩, -1, 0, [], []⟩
      [⟨[1#32], ascii "a", [], 1⟩, ⟨[2#32], ascii "b", [], 0⟩]).nodes.map (·.neighbors) =
        [[[1], []], [[0]]] :=
  ⟨(addNodes_sound exactL2 (.empty ⟨1, 2, 1, .kL2⟩ (by decide)) _ (by decide)).1,
    by decide +kernel⟩

end HNSWGraph

/-! ## Calls on an index -/

namespace HNSWIndex

/-- A call, with what it is given and what the generator and the hash map decide. -/
inductive Call where
  | insert (key : Bytes) (vector : FloatVector) (metadata : Bytes) (level : Nat)
  | insertVersion (key : Bytes) (sequence : Nat) (vector : FloatVector) (metadata : Bytes)
      (level : Nat)
  | markDeleted (key : Bytes) (sequence : Nat)
  | load (file : Option Bytes)
  | mergeFrom (file : Option Bytes) (order : VersionTable → VersionTable)
      (levels : Bytes → Nat → Nat)

/-- The levels are in range, and an iteration meets every key once. -/
def Call.Possible : Call → Prop
  | .insert _ _ _ level => level ≤ kMaximumRandomLevel
  | .insertVersion _ _ _ _ level => level ≤ kMaximumRandomLevel
  | .markDeleted _ _ => True
  | .load _ => True
  | .mergeFrom _ order levels =>
    (∀ table, (order table).Perm table) ∧ ∀ k s, levels k s ≤ kMaximumRandomLevel

section Distance

variable {D : Type} [LinearOrder D] (dist : FloatVector → FloatVector → D)

def call (index : HNSWIndex) : Call → HNSWIndex × Status
  | .insert key vector metadata level => index.insert dist key vector metadata level
  | .insertVersion key sequence vector metadata level =>
    index.insertVersion dist key sequence vector metadata level
  | .markDeleted key sequence => index.markDeleted key sequence
  | .load file => index.load file
  | .mergeFrom file order levels => index.mergeFrom dist file order levels

def calls (index : HNSWIndex) (cs : List Call) : HNSWIndex :=
  cs.foldl (fun index c => (index.call dist c).1) index

theorem call_kept {index : HNSWIndex} (hok : Ok index) {c : Call} (hc : c.Possible) :
    Kept index (index.call dist c).1 := by
  cases c with
  | insert key vector metadata level => exact insert_kept dist hok key vector metadata hc
  | insertVersion key sequence vector metadata level =>
    exact insertVersion_kept dist hok key sequence vector metadata hc
  | markDeleted key sequence => exact markDeleted_kept hok key sequence
  | load file => exact load_kept hok file
  | mergeFrom file order levels => exact mergeFrom_kept dist hok file order hc.2

theorem call_invalid {index : HNSWIndex} (h : index.options.validateOptions ≠ .ok) (c : Call) :
    (index.call dist c).1 = index := by
  have hcheck : ∀ key vector, index.checkInsert key vector ≠ .ok := by
    intro key vector
    unfold checkInsert
    split
    · rename_i hok
      exact absurd hok h
    · assumption
  cases c with
  | insert key vector metadata level =>
    show (index.insert dist key vector metadata level).1 = index
    unfold insert
    split
    · rename_i hok
      exact absurd hok (hcheck key vector)
    · rfl
  | insertVersion key sequence vector metadata level =>
    show (index.insertVersion dist key sequence vector metadata level).1 = index
    unfold insertVersion
    split
    · rename_i hok
      exact absurd hok (hcheck key vector)
    · rfl
  | markDeleted key sequence =>
    show (index.markDeleted key sequence).1 = index
    unfold markDeleted
    split
    · rename_i hok
      exact absurd hok h
    · rfl
  | load file =>
    rcases load_cases index file with hold | ⟨_, _, _, _, _, ho, _⟩
    · exact hold.1
    · exact absurd ho h
  | mergeFrom file order levels =>
    show (index.mergeFrom dist file order levels).1 = index
    unfold mergeFrom
    split
    · rename_i loaded hload
      rcases load_cases (new index.options) file with hold | ⟨_, _, _, _, _, ho, _⟩
      · rw [hload] at hold
        exact absurd rfl hold.2
      · exact absurd ho h
    · rfl

theorem calls_new (options : HNSWGraphOptions) (cs : List Call) (hcs : ∀ c ∈ cs, c.Possible) :
    (calls dist (new options) cs).options = options ∧
    ((options.validateOptions = .ok ∧ Ok (calls dist (new options) cs)) ∨
      (options.validateOptions ≠ .ok ∧ calls dist (new options) cs = new options)) := by
  have hrun : ∀ (index : HNSWIndex), Ok index → ∀ cs : List Call, (∀ c ∈ cs, c.Possible) →
      Kept index (calls dist index cs) := by
    intro index hok cs hcs
    induction cs generalizing index with
    | nil => exact hok.kept
    | cons c cs ih =>
      have hstep := call_kept dist hok (hcs c List.mem_cons_self)
      exact hstep.trans (ih _ hstep.ok fun c' hc' => hcs c' (List.mem_cons_of_mem _ hc'))
  by_cases ho : options.validateOptions = .ok
  · have hkept := hrun (new options) (ok_new ho) cs hcs
    exact ⟨hkept.options, Or.inl ⟨ho, hkept.ok⟩⟩
  · have hinvalid : (new options).options.validateOptions ≠ .ok := ho
    have hsame : calls dist (new options) cs = new options := by
      clear hcs
      induction cs with
      | nil => rfl
      | cons c cs ih =>
        have hstep : ((new options).call dist c).1 = new options := call_invalid dist hinvalid c
        show calls dist ((new options).call dist c).1 cs = new options
        rw [hstep]
        exact ih
    rw [hsame]
    exact ⟨rfl, Or.inr ⟨ho, rfl⟩⟩

end Distance

end HNSWIndex

end KvMem
