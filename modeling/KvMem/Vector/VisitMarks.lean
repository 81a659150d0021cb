import KvMem.Foundation.Stamps
import KvMem.Vector.GraphInvariant

/-! # The visit marks

`SearchLayer` as it runs on one thread: the nodes met are marked in an array that all
calls of the thread share, with a generation of 32 bits for each call. Every access to
the array is checked and written down. A run from the marks any earlier calls have left
behind never leaves the array and returns what the search over a set of its own returns.
-/

namespace KvMem

open BeamSearch HNSWGraph

/-- What the two functions on the marks were asked, with the answer. -/
inductive MarkAccess where
  | visited (id : Nat) (answer : Bool)
  | markVisited (id : Nat)
  deriving DecidableEq, Repr

def generationLimit : Nat := 2 ^ 32

structure LayerCall (D : Type) where
  graph : HNSWGraph
  dist : FloatVector → FloatVector → D
  query : FloatVector
  entryPoints : List Nat
  ef : Nat
  level : Int
  visibility : Nat → Bool

structure MarkedState (D : Type) where
  candidates : List (Candidate Nat D) := []
  nearest : List (Candidate Nat D) := []
  marks : Stamps
  log : List MarkAccess := []

structure LayerResult (D : Type) where
  result : List (Candidate Nat D)
  log : List MarkAccess

variable {D : Type}

namespace MarkedState

def visited (s : MarkedState D) (id : Nat) : Option (Bool × MarkedState D) :=
  (s.marks.isMarked id).map fun answer =>
    (answer, { s with log := s.log ++ [.visited id answer] })

def markVisited (s : MarkedState D) (id : Nat) : Option (MarkedState D) :=
  (s.marks.mark id).map fun marks =>
    { s with marks := marks, log := s.log ++ [.markVisited id] }

end MarkedState

namespace LayerCall

variable [LinearOrder D] (c : LayerCall D)

def candidate (id : Nat) : Candidate Nat D := ⟨c.dist c.query (c.graph.vectorOf id), id⟩

/-- The checks both loops begin with. A node that passes them is marked. -/
def meet (s : MarkedState D) (id : Nat) : Option (Bool × MarkedState D) :=
  if c.graph.size ≤ id then some (false, s)
  else
    match s.visited id with
    | none => none
    | some (true, s) => some (false, s)
    | some (false, s) =>
      if c.graph.levelCount id ≤ c.level.toNat then some (false, s)
      else (s.markVisited id).map fun s => (true, s)

def enqueue (s : MarkedState D) (id : Nat) : MarkedState D :=
  { s with
    candidates := push (c.candidate id) s.candidates
    nearest := accept c.visibility c.ef (c.candidate id) s.nearest }

def enterMarked (s : MarkedState D) (id : Nat) : Option (MarkedState D) :=
  match c.meet s id with
  | none => none
  | some (met, s) => some (if met then c.enqueue s id else s)

def visitMarked (s : MarkedState D) (id : Nat) : Option (MarkedState D) :=
  match c.meet s id with
  | none => none
  | some (met, s) =>
    some (if met ∧ improves c.ef (c.candidate id) s.nearest then c.enqueue s id else s)

def stopsMarked (s : MarkedState D) (current : Candidate Nat D) : Prop :=
  c.ef ≤ s.nearest.length ∧ ∃ top ∈ s.nearest.getLast?, top.distance < current.distance

instance (s : MarkedState D) (current : Candidate Nat D) : Decidable (c.stopsMarked s current) := by
  unfold stopsMarked
  infer_instance

def expandMarked (s : MarkedState D) (current : Candidate Nat D) (rest : List (Candidate Nat D)) :
    Option (MarkedState D) :=
  (c.graph.neighborsOf current.id c.level.toNat).foldlM c.visitMarked { s with candidates := rest }

/-- The loop over the queue. It fails if the fuel does not last to its end. -/
def loopMarked : Nat → MarkedState D → Option (MarkedState D)
  | 0, s =>
    match s.candidates with
    | [] => some s
    | current :: _ => if c.stopsMarked s current then some s else none
  | fuel + 1, s =>
    match s.candidates with
    | [] => some s
    | current :: rest =>
      if c.stopsMarked s current then some s
      else
        match c.expandMarked s current rest with
        | none => none
        | some s => loopMarked fuel s

def searchLayerMarked (marks : Stamps) : Option (LayerResult D × Stamps) :=
  if c.ef = 0 ∨ c.level < 0 then some (⟨[], []⟩, marks)
  else
    match c.entryPoints.foldlM c.enterMarked { marks := marks.next generationLimit c.graph.size } with
    | none => none
    | some s => (c.loopMarked c.graph.size s).map fun s => (⟨s.nearest, s.log⟩, s.marks)

def searchLayerFresh : List (Candidate Nat D) :=
  if c.level < 0 then []
  else searchLayer c.dist c.graph c.query c.entryPoints c.ef c.level.toNat c.visibility

end LayerCall

def searchLayers [LinearOrder D] (marks : Stamps) :
    List (LayerCall D) → Option (List (LayerResult D) × Stamps)
  | [] => some ([], marks)
  | c :: cs =>
    match c.searchLayerMarked marks with
    | none => none
    | some (result, marks) =>
      (searchLayers marks cs).map fun (results, marks) => (result :: results, marks)

/-! ## Answers of a set -/

/-- The log of calls on a set that is empty at the beginning. -/
inductive Faithful : List MarkAccess → List Nat → Prop
  | nil : Faithful [] []
  | visited {log : List MarkAccess} {set : List Nat} (h : Faithful log set) (id : Nat) :
      Faithful (log ++ [.visited id (decide (id ∈ set))]) set
  | markVisited {log : List MarkAccess} {set : List Nat} (h : Faithful log set) (id : Nat) :
      Faithful (log ++ [.markVisited id]) (id :: set)

variable {log back : List MarkAccess}

theorem Faithful.mem_iff {set : List Nat} (h : Faithful log set) (id : Nat) :
    id ∈ set ↔ MarkAccess.markVisited id ∈ log := by
  induction h with
  | nil => simp
  | visited _ _ ih => simp [ih]
  | markVisited _ _ ih => simp [ih, or_comm]

theorem append_last_cases {front : List MarkAccess} {last entry : MarkAccess}
    (h : log ++ [last] = front ++ entry :: back) :
    (log = front ∧ last = entry) ∨ ∃ back', log = front ++ entry :: back' := by
  rcases List.eq_nil_or_concat back with rfl | ⟨back', b, rfl⟩
  · obtain ⟨hfront, hentry⟩ := List.append_inj' h rfl
    exact Or.inl ⟨hfront, (List.cons.inj hentry).1⟩
  · rw [List.concat_eq_append, ← List.cons_append, ← List.append_assoc] at h
    exact Or.inr ⟨back', (List.append_inj' h rfl).1⟩

/-- A node is said to be visited exactly if it was marked before in the same log. -/
theorem Faithful.answer {set : List Nat} (h : Faithful log set) {front : List MarkAccess} {id : Nat}
    {answer : Bool} (hlog : log = front ++ .visited id answer :: back) :
    answer = true ↔ MarkAccess.markVisited id ∈ front := by
  induction h generalizing back with
  | nil => simp at hlog
  | visited hf x ih =>
    rcases append_last_cases hlog with ⟨rfl, hentry⟩ | ⟨back', hrest⟩
    · cases hentry
      rw [decide_eq_true_iff]
      exact hf.mem_iff id
    · exact ih hrest
  | markVisited hf x ih =>
    rcases append_last_cases hlog with ⟨_, hentry⟩ | ⟨back', hrest⟩
    · cases hentry
    · exact ih hrest

/-! ## The marks hold the set of the search -/

/-- The state of the search with marks is the one of the search with a set. -/
structure Simulates (n : Nat) (s : State Nat D) (m : MarkedState D) : Prop where
  candidates : m.candidates = s.candidates
  nearest : m.nearest = s.nearest
  marks : Stamps.Represents generationLimit n s.visited m.marks
  log : Faithful m.log s.visited

variable {c : LayerCall D} {s : State Nat D} {m : MarkedState D}

theorem Simulates.meet (h : Simulates c.graph.size s m) (id : Nat) :
    (∃ m', c.meet m id = some (false, m') ∧ Simulates c.graph.size s m' ∧
      (id ∈ s.visited ∨ ¬ c.level.toNat < c.graph.levelCount id)) ∨
    ∃ m', c.meet m id = some (true, m') ∧ id ∉ s.visited ∧
      c.level.toNat < c.graph.levelCount id ∧
      Simulates c.graph.size { s with visited := id :: s.visited } m' := by
  unfold LayerCall.meet
  by_cases hin : c.graph.size ≤ id
  · left
    refine ⟨m, if_pos hin, h, Or.inr ?_⟩
    intro hlevel
    exact absurd (lt_size_of_levelCount (Nat.lt_of_le_of_lt (Nat.zero_le _) hlevel)) (by omega)
  · have hlt : id < c.graph.size := by omega
    have hmarked := h.marks.isMarked hlt
    rw [if_neg hin, MarkedState.visited, hmarked]
    have hlog := h.log.visited id
    by_cases hmet : id ∈ s.visited
    · left
      rw [decide_eq_true hmet] at hlog ⊢
      exact ⟨_, rfl, ⟨h.candidates, h.nearest, h.marks, hlog⟩, Or.inl hmet⟩
    · rw [decide_eq_false hmet] at hlog ⊢
      dsimp only [Option.map_some]
      by_cases hlevel : c.graph.levelCount id ≤ c.level.toNat
      · left
        exact ⟨_, if_pos hlevel, ⟨h.candidates, h.nearest, h.marks, hlog⟩, Or.inr (by omega)⟩
      · right
        obtain ⟨marks, hmark, hrep⟩ := h.marks.mark hlt
        rw [if_neg hlevel, MarkedState.markVisited, hmark]
        exact ⟨_, rfl, hmet, by omega, h.candidates, h.nearest, hrep, hlog.markVisited id⟩

/-- A loop whose body follows the other one on the nodes of a level, and skips the rest. -/
theorem Simulates.foldlM {n : Nat} {body : MarkedState D → Nat → Option (MarkedState D)}
    {step : State Nat D → Nat → State Nat D} {p : Nat → Bool}
    (hbody : ∀ {s m}, Simulates n s m → ∀ id, ∃ m', body m id = some m' ∧
      Simulates n (if p id then step s id else s) m')
    (ids : List Nat) (h : Simulates n s m) :
    ∃ m', ids.foldlM body m = some m' ∧ Simulates n ((ids.filter p).foldl step s) m' := by
  induction ids generalizing s m with
  | nil => exact ⟨m, rfl, h⟩
  | cons id ids ih =>
    obtain ⟨m₁, hone, h₁⟩ := hbody h id
    obtain ⟨m₂, hrest, h₂⟩ := ih h₁
    refine ⟨m₂, ?_, ?_⟩
    · rw [List.foldlM_cons, hone]
      exact hrest
    · by_cases hp : p id = true
      · rw [if_pos hp] at h₂
        rw [List.filter_cons_of_pos hp]
        exact h₂
      · rw [if_neg hp] at h₂
        rw [List.filter_cons_of_neg hp]
        exact h₂

section Search

variable [LinearOrder D]

theorem Simulates.enqueue {id : Nat}
    (h : Simulates c.graph.size { s with visited := id :: s.visited } m) :
    Simulates c.graph.size
      (queueNode (fun id => c.dist c.query (c.graph.vectorOf id)) c.visibility c.ef s id)
      (c.enqueue m id) where
  candidates := by
    rw [LayerCall.enqueue, h.candidates]
    rfl
  nearest := by
    rw [LayerCall.enqueue, h.nearest]
    rfl
  marks := h.marks
  log := h.log

theorem Simulates.enter (h : Simulates c.graph.size s m) (id : Nat) :
    ∃ m', c.enterMarked m id = some m' ∧
      Simulates c.graph.size
        (if c.level.toNat < c.graph.levelCount id then
          enter (fun id => c.dist c.query (c.graph.vectorOf id)) c.visibility c.ef s id
        else s) m' := by
  unfold LayerCall.enterMarked
  rcases h.meet id with ⟨m', hmeet, hsim, hskip⟩ | ⟨m', hmeet, hnew, hlevel, hsim⟩
  · rw [hmeet]
    refine ⟨m', rfl, ?_⟩
    split
    · rename_i hlevel
      rcases hskip with hmet | hno
      · rw [BeamSearch.enter, if_pos hmet]
        exact hsim
      · exact absurd hlevel hno
    · exact hsim
  · rw [hmeet, if_pos hlevel, BeamSearch.enter, if_neg hnew]
    exact ⟨c.enqueue m' id, rfl, hsim.enqueue⟩

theorem Simulates.visit (h : Simulates c.graph.size s m) (id : Nat) :
    ∃ m', c.visitMarked m id = some m' ∧
      Simulates c.graph.size
        (if c.level.toNat < c.graph.levelCount id then
          visit (fun id => c.dist c.query (c.graph.vectorOf id)) c.visibility c.ef s id
        else s) m' := by
  unfold LayerCall.visitMarked
  rcases h.meet id with ⟨m', hmeet, hsim, hskip⟩ | ⟨m', hmeet, hnew, hlevel, hsim⟩
  · rw [hmeet]
    refine ⟨m', by simp, ?_⟩
    split
    · rename_i hlevel
      rcases hskip with hmet | hno
      · rw [BeamSearch.visit, if_pos hmet]
        exact hsim
      · exact absurd hlevel hno
    · exact hsim
  · rw [hmeet, if_pos hlevel, BeamSearch.visit, if_neg hnew]
    have hnearest : m'.nearest = s.nearest := hsim.nearest
    by_cases himproves : improves c.ef (c.candidate id) s.nearest
    · refine ⟨c.enqueue m' id, by simp [hnearest, himproves], ?_⟩
      rw [if_pos (show improves c.ef ⟨c.dist c.query (c.graph.vectorOf id), id⟩ s.nearest
        from himproves)]
      exact hsim.enqueue
    · refine ⟨m', by simp [hnearest, himproves], ?_⟩
      rw [if_neg (show ¬ improves c.ef ⟨c.dist c.query (c.graph.vectorOf id), id⟩ s.nearest
        from himproves)]
      exact hsim

theorem Simulates.loop (fuel : Nat) (h : Simulates c.graph.size s m)
    (hfin : Finished c.ef (loop (fun id => c.dist c.query (c.graph.vectorOf id)) c.visibility c.ef
      (c.graph.links c.level.toNat) fuel s)) :
    ∃ m', c.loopMarked fuel m = some m' ∧
      Simulates c.graph.size (loop (fun id => c.dist c.query (c.graph.vectorOf id)) c.visibility
        c.ef (c.graph.links c.level.toNat) fuel s) m' := by
  have hstops : ∀ {s : State Nat D} {m : MarkedState D}, Simulates c.graph.size s m →
      ∀ current, c.stopsMarked m current ↔ stops c.ef s current := by
    intro s m h current
    rw [LayerCall.stopsMarked, h.nearest, stops]
  induction fuel generalizing s m with
  | zero =>
    rw [BeamSearch.loop] at hfin ⊢
    rw [LayerCall.loopMarked, h.candidates]
    cases hc : s.candidates with
    | nil => exact ⟨m, rfl, h⟩
    | cons current rest => exact ⟨m, if_pos ((hstops h current).mpr (hfin current rest hc)), h⟩
  | succ fuel ih =>
    rw [BeamSearch.loop] at hfin ⊢
    rw [LayerCall.loopMarked, h.candidates]
    cases hc : s.candidates with
    | nil => exact ⟨m, rfl, h⟩
    | cons current rest =>
      rw [hc] at hfin
      dsimp only at hfin ⊢
      by_cases hstop : stops c.ef s current
      · rw [if_pos hstop, if_pos ((hstops h current).mpr hstop)]
        exact ⟨m, rfl, h⟩
      · rw [if_neg hstop] at hfin
        rw [if_neg hstop, if_neg (mt (hstops h current).mp hstop)]
        have hpopped : Simulates c.graph.size { s with candidates := rest }
            { m with candidates := rest } := ⟨rfl, h.nearest, h.marks, h.log⟩
        obtain ⟨m₁, hexpand, h₁⟩ := hpopped.foldlM
          (p := fun id => c.level.toNat < c.graph.levelCount id)
          (fun h id => by simpa using h.visit id)
          (c.graph.neighborsOf current.id c.level.toNat)
        rw [LayerCall.expandMarked, hexpand]
        exact ih h₁ hfin

variable {marks : Stamps}

/-- One call, from marks that are not ahead of their generation: it stays inside the array,
returns what a search with a fresh set returns, and leaves such marks behind. -/
theorem searchLayerMarked_spec (c : LayerCall D) (hmarks : marks.Bounded generationLimit) :
    ∃ r marks', c.searchLayerMarked marks = some (r, marks') ∧ r.result = c.searchLayerFresh ∧
      (∃ set, Faithful r.log set) ∧ marks'.Bounded generationLimit := by
  unfold LayerCall.searchLayerMarked LayerCall.searchLayerFresh
  by_cases hcond : c.ef = 0 ∨ c.level < 0
  · refine ⟨⟨[], []⟩, marks, if_pos hcond, ?_, ⟨[], .nil⟩, hmarks⟩
    split
    · rfl
    · rename_i hlevel
      rw [searchLayer, if_pos (hcond.resolve_right hlevel)]
  · have hef : c.ef ≠ 0 := fun h => hcond (Or.inl h)
    have hlevel : ¬ c.level < 0 := fun h => hcond (Or.inr h)
    have hnew : Simulates c.graph.size ({} : State Nat D)
        { marks := marks.next generationLimit c.graph.size } :=
      ⟨rfl, rfl, hmarks.next (by decide) _, .nil⟩
    obtain ⟨m₁, hstart, h₁⟩ := hnew.foldlM (p := fun id => c.level.toNat < c.graph.levelCount id)
      (fun h id => by simpa using h.enter id) c.entryPoints
    have hinside : ∀ id, c.level.toNat < c.graph.levelCount id → id ∈ Finset.range c.graph.size :=
      fun id hid =>
        Finset.mem_range.mpr (lt_size_of_levelCount (Nat.lt_of_le_of_lt (Nat.zero_le _) hid))
    have hentries : ∀ id ∈ c.entryPoints.filter (fun id => c.level.toNat < c.graph.levelCount id),
        id ∈ Finset.range c.graph.size := by
      intro id hid
      exact hinside id (by simpa using (List.mem_filter.mp hid).2)
    have hlinks : ∀ x ∈ Finset.range c.graph.size, ∀ y ∈ c.graph.links c.level.toNat x,
        y ∈ Finset.range c.graph.size := by
      intro x _ y hy
      exact hinside y (by simpa using (List.mem_filter.mp hy).2)
    have hfin : Finished c.ef (loop (fun id => c.dist c.query (c.graph.vectorOf id)) c.visibility
        c.ef (c.graph.links c.level.toNat) c.graph.size _) :=
      loop_finished hlinks c.graph.size (Inv.start _ hentries)
        ((start_pending _ hentries).trans (Finset.card_range _).le)
    obtain ⟨m₂, hloop, h₂⟩ := h₁.loop c.graph.size hfin
    rw [if_neg hcond, if_neg hlevel, hstart]
    dsimp only
    rw [hloop]
    refine ⟨⟨m₂.nearest, m₂.log⟩, m₂.marks, rfl, ?_, ⟨_, h₂.log⟩, h₂.marks.bounded⟩
    rw [searchLayer, if_neg hef]
    exact h₂.nearest

theorem searchLayers_spec (cs : List (LayerCall D)) (hmarks : marks.Bounded generationLimit) :
    ∃ results marks', searchLayers marks cs = some (results, marks') ∧
      results.map (·.result) = cs.map (·.searchLayerFresh) ∧
      ∀ r ∈ results, ∃ set, Faithful r.log set := by
  induction cs generalizing marks with
  | nil => exact ⟨[], marks, rfl, rfl, by simp⟩
  | cons c cs ih =>
    obtain ⟨r, marks₁, hcall, hresult, hlog, h₁⟩ := searchLayerMarked_spec c hmarks
    obtain ⟨results, marks₂, hcalls, hresults, hlogs⟩ := ih h₁
    refine ⟨r :: results, marks₂, ?_, ?_, ?_⟩
    · rw [searchLayers, hcall]
      dsimp only
      rw [hcalls]
      rfl
    · rw [List.map_cons, List.map_cons, hresult, hresults]
    · intro r' hr'
      rcases List.mem_cons.mp hr' with rfl | hr'
      · exact hlog
      · exact hlogs r' hr'

/-- On one thread, any number of calls over any graphs: no access leaves the array, `visited`
answers with exactly the nodes the same call has marked before, and every call returns what
it returns with a set of its own. -/
theorem searchLayers_fresh (cs : List (LayerCall D)) :
    ∃ results marks, searchLayers {} cs = some (results, marks) ∧
      (∀ r ∈ results, ∀ front id answer back, r.log = front ++ .visited id answer :: back →
        (answer = true ↔ MarkAccess.markVisited id ∈ front)) ∧
      results.map (·.result) = cs.map (·.searchLayerFresh) := by
  obtain ⟨results, marks, hrun, hresults, hlogs⟩ :=
    searchLayers_spec cs (Stamps.bounded_new (by decide))
  refine ⟨results, marks, hrun, ?_, hresults⟩
  intro r hr front id answer back hlog
  obtain ⟨set, hfaithful⟩ := hlogs r hr
  exact hfaithful.answer hlog

end Search

end KvMem
