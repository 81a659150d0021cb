import KvMem.Vector.Graph

/-! # The graph invariant

What holds of every graph that insertions build: dense ids, one vector per node in
place, bounded neighbour lists without repetitions or self links that name only
nodes of their level, and an entry point on the top level. It follows that a search
and an insertion always find an entry on every level they walk through.
-/

namespace KvMem.HNSWGraph

open BeamSearch

/-! ## Updates of neighbour lists -/

def shape (n : HNSWNode) : Nat × Bytes × Nat × Bytes × Nat :=
  (n.id, n.key, n.vectorOffset, n.metadata, n.neighbors.length)

/-- The graphs differ in the content of neighbour lists only. -/
structure SameShape (g g' : HNSWGraph) : Prop where
  options : g'.options = g.options
  maxLevel : g'.maxLevel = g.maxLevel
  entryPoint : g'.entryPoint = g.entryPoint
  vectorData : g'.vectorData = g.vectorData
  nodes : g'.nodes.map shape = g.nodes.map shape

theorem SameShape.refl (g : HNSWGraph) : SameShape g g := ⟨rfl, rfl, rfl, rfl, rfl⟩

theorem SameShape.trans {g₁ g₂ g₃ : HNSWGraph} (h : SameShape g₁ g₂) (h' : SameShape g₂ g₃) :
    SameShape g₁ g₃ :=
  ⟨h'.options.trans h.options, h'.maxLevel.trans h.maxLevel, h'.entryPoint.trans h.entryPoint,
    h'.vectorData.trans h.vectorData, h'.nodes.trans h.nodes⟩

variable {g g' : HNSWGraph} {id level i : Nat} {o : HNSWGraphOptions} {lists : List (List Nat)}
  {vector : FloatVector}

theorem SameShape.get (h : SameShape g g') (i : Nat) :
    (g'.nodes[i]?).map shape = (g.nodes[i]?).map shape := by
  rw [← List.getElem?_map, ← List.getElem?_map, h.nodes]

theorem SameShape.size (h : SameShape g g') : g'.size = g.size := by
  have hlen := congrArg List.length h.nodes
  simpa [HNSWGraph.size] using hlen

theorem levelCount_eq_shape (g : HNSWGraph) (i : Nat) :
    g.levelCount i = (((g.nodes[i]?).map shape).map fun s => s.2.2.2.2).getD 0 := by
  rw [levelCount, Option.map_map]
  rfl

theorem SameShape.levelCount (h : SameShape g g') (i : Nat) : g'.levelCount i = g.levelCount i := by
  rw [levelCount_eq_shape, levelCount_eq_shape, h.get]

theorem vectorOf_eq_shape (g : HNSWGraph) (i : Nat) :
    g.vectorOf i = (((g.nodes[i]?).map shape).map
      fun s => (g.vectorData.drop s.2.2.1).take g.options.dimension).getD [] := by
  rw [vectorOf, Option.map_map]
  rfl

theorem SameShape.vectorOf (h : SameShape g g') (i : Nat) : g'.vectorOf i = g.vectorOf i := by
  rw [vectorOf_eq_shape, vectorOf_eq_shape, h.get, h.vectorData, h.options]

theorem SameShape.keyOf (h : SameShape g g') (i : Nat) : g'.keyOf i = g.keyOf i := by
  have hget := congrArg (fun o => (o.map fun s : Nat × Bytes × Nat × Bytes × Nat => s.2.1).getD [])
    (h.get i)
  simp only [Option.map_map] at hget
  exact hget

theorem SameShape.metadataOf (h : SameShape g g') (i : Nat) : g'.metadataOf i = g.metadataOf i := by
  have hget := congrArg
    (fun o => (o.map fun s : Nat × Bytes × Nat × Bytes × Nat => s.2.2.2.1).getD []) (h.get i)
  simp only [Option.map_map] at hget
  exact hget

theorem setNeighbors_shape (g : HNSWGraph) (id level : Nat) (ns : List Nat) :
    SameShape g (g.setNeighbors id level ns) := by
  refine ⟨rfl, rfl, rfl, rfl, ?_⟩
  apply List.ext_getElem?
  intro i
  rw [List.getElem?_map, List.getElem?_map, setNeighbors, List.getElem?_modify]
  cases g.nodes[i]? with
  | none => rfl
  | some n =>
    by_cases hi : id = i
    · simp [shape, hi]
    · simp [shape, hi]

theorem neighborsOf_setNeighbors (g : HNSWGraph) (ns : List Nat) (h : level < g.levelCount id)
    (i k : Nat) :
    (g.setNeighbors id level ns).neighborsOf i k =
      if i = id ∧ k = level then ns else g.neighborsOf i k := by
  rw [neighborsOf, setNeighbors, List.getElem?_modify]
  by_cases hi : id = i
  · subst hi
    cases hn : g.nodes[id]? with
    | none =>
      simp only [levelCount, hn, Option.map_none, Option.getD_none] at h
      omega
    | some n =>
      have hlen : level < n.neighbors.length := by
        simpa [levelCount, hn] using h
      by_cases hk : level = k
      · subst hk
        simp [hlen]
      · have hk' : ¬ k = level := fun he => hk he.symm
        simp [hk, hk', neighborsOf, hn]
  · have hi' : ¬ i = id := fun he => hi he.symm
    simp only [if_neg hi, hi', false_and, if_false, neighborsOf]
    simp

theorem setNeighbors_setNeighbors (g : HNSWGraph) (id level : Nat) (ns ms : List Nat) :
    (g.setNeighbors id level ns).setNeighbors id level ms = g.setNeighbors id level ms := by
  simp only [setNeighbors]
  congr 1
  apply List.ext_getElem?
  intro i
  rw [List.getElem?_modify, List.getElem?_modify, List.getElem?_modify]
  cases g.nodes[i]? with
  | none => rfl
  | some n =>
    by_cases hi : id = i
    · simp [hi, List.set_set]
    · simp [hi]

/-! ## Well-formed lists -/

structure LinksOk (o : HNSWGraphOptions) (levelCount : Nat → Nat) (i level : Nat)
    (ns : List Nat) : Prop where
  length_le : ns.length ≤ o.neighborLimit level
  nodup : ns.Nodup
  no_self : i ∉ ns
  exist : ∀ j ∈ ns, level < levelCount j

def AllLinks (g : HNSWGraph) : Prop :=
  ∀ i level, level < g.levelCount i →
    LinksOk g.options g.levelCount i level (g.neighborsOf i level)

theorem AllLinks.setNeighbors (h : AllLinks g) {ns : List Nat} (hl : level < g.levelCount id)
    (hns : LinksOk g.options g.levelCount id level ns) : AllLinks (g.setNeighbors id level ns) := by
  have hshape := setNeighbors_shape g id level ns
  have hcount : (g.setNeighbors id level ns).levelCount = g.levelCount := funext hshape.levelCount
  intro i k hk
  rw [hcount] at hk
  rw [hcount, hshape.options, neighborsOf_setNeighbors g ns hl]
  split
  · rename_i he
    rw [he.1, he.2]
    exact hns
  · exact h i k hk

/-! ## Selection -/

section Select

variable {D : Type} [LinearOrder D] (dist : FloatVector → FloatVector → D)

theorem fillNeighbors_eq (limit : Nat) (pruned selected : List Nat)
    (h : selected.length < limit) :
    fillNeighbors limit pruned selected = selected ++ pruned.take (limit - selected.length) := by
  induction pruned generalizing selected with
  | nil => simp [fillNeighbors]
  | cons x pruned ih =>
    obtain ⟨k, hk⟩ : ∃ k, limit - selected.length = k + 1 :=
      Nat.exists_eq_succ_of_ne_zero (by omega)
    simp only [fillNeighbors, List.length_append, List.length_cons, List.length_nil, hk,
      List.take_succ_cons]
    split
    · have hzero : k = 0 := by omega
      simp [hzero]
    · have hk' : limit - (selected ++ [x]).length = k := by
        simp only [List.length_append, List.length_cons, List.length_nil]
        omega
      rw [ih (selected ++ [x]) (by simp; omega), hk', List.append_assoc, List.singleton_append]

structure Selected (from_ : List Nat) (limit : Nat) (ns : List Nat) : Prop where
  nodup : ns.Nodup
  length_le : ns.length ≤ limit
  subset : ns ⊆ from_

variable {limit neighbor e : Nat}

theorem selectLoop_selected (g : HNSWGraph) (candidates : List (Candidate Nat D))
    (selected pruned : List Nat) (hnodup : (selected ++ (pruned ++ candidates.map (·.id))).Nodup)
    (hlt : selected.length < limit) :
    Selected (selected ++ (pruned ++ candidates.map (·.id))) limit
      (selectLoop dist g limit candidates selected pruned) := by
  induction candidates generalizing selected pruned with
  | nil =>
    rw [List.map_nil, List.append_nil] at hnodup ⊢
    rw [selectLoop, fillNeighbors_eq limit pruned selected hlt]
    have hsub : (selected ++ pruned.take (limit - selected.length)).Sublist (selected ++ pruned) :=
      (List.take_sublist _ _).append_left _
    refine ⟨hnodup.sublist hsub, ?_, hsub.subset⟩
    rw [List.length_append, List.length_take]
    omega
  | cons c cs ih =>
    rw [List.map_cons] at hnodup ⊢
    rw [selectLoop]
    split
    · -- the candidate is selected
      have hperm : (selected ++ [c.id] ++ (pruned ++ cs.map (·.id))).Perm
          (selected ++ (pruned ++ c.id :: cs.map (·.id))) := by
        rw [List.append_assoc]
        apply List.Perm.append_left
        rw [List.singleton_append]
        exact List.perm_middle.symm
      have hnodup' := hperm.nodup_iff.mpr hnodup
      simp only
      split
      · rename_i hfull
        refine ⟨hnodup'.of_append_left, Nat.le_of_eq hfull, fun x hx => ?_⟩
        exact hperm.subset (List.mem_append_left _ hx)
      · rename_i hfull
        have hlt' : (selected ++ [c.id]).length < limit := by
          simp only [List.length_append, List.length_cons, List.length_nil] at hfull ⊢
          omega
        have hrest := ih (selected ++ [c.id]) pruned hnodup' hlt'
        exact ⟨hrest.nodup, hrest.length_le, fun x hx => hperm.subset (hrest.subset hx)⟩
    · -- it is put aside
      have hassoc : selected ++ (pruned ++ [c.id] ++ cs.map (·.id)) =
          selected ++ (pruned ++ c.id :: cs.map (·.id)) := by simp
      have hrest := ih selected (pruned ++ [c.id]) (by rw [hassoc]; exact hnodup) hlt
      rwa [hassoc] at hrest

theorem selectNeighbors_selected (g : HNSWGraph) (hlimit : 1 ≤ limit)
    {candidates : List (Candidate Nat D)} (hnodup : (candidates.map (·.id)).Nodup) :
    Selected (candidates.map (·.id)) limit (selectNeighbors dist g candidates limit) := by
  have h := selectLoop_selected dist g candidates [] [] hnodup hlimit
  simpa [selectNeighbors] using h

/-! ## Linking -/

theorem neighborLimit_pos {o : HNSWGraphOptions} (h : 2 ≤ o.maxNeighbors) (level : Nat) :
    1 ≤ o.neighborLimit level ∧ o.maxNeighbors ≤ o.neighborLimit level := by
  unfold HNSWGraphOptions.neighborLimit
  split <;> omega

theorem linkBack_eq (g : HNSWGraph) {id level : Nat} (hm : 2 ≤ g.options.maxNeighbors)
    (hlinks : LinksOk g.options g.levelCount neighbor level (g.neighborsOf neighbor level))
    (hid : level < g.levelCount id) (hn : level < g.levelCount neighbor) (hne : neighbor ≠ id) :
    linkBack dist id level g neighbor = g ∨
      ∃ ns, LinksOk g.options g.levelCount neighbor level ns ∧
        linkBack dist id level g neighbor = g.setNeighbors neighbor level ns := by
  unfold linkBack
  simp only
  split
  · exact Or.inl rfl
  · rename_i hnew
    right
    have hnodup : (g.neighborsOf neighbor level ++ [id]).Nodup := by
      rw [List.nodup_append]
      refine ⟨hlinks.nodup, List.nodup_singleton _, ?_⟩
      intro a ha b hb he
      rw [List.mem_singleton] at hb
      exact hnew (hb ▸ he ▸ ha)
    have hmem : ∀ j ∈ g.neighborsOf neighbor level ++ [id], j ≠ neighbor ∧ level < g.levelCount j := by
      intro j hj
      rcases List.mem_append.mp hj with hj | hj
      · exact ⟨fun he => hlinks.no_self (he ▸ hj), hlinks.exist j hj⟩
      · rw [List.mem_singleton] at hj
        subst hj
        exact ⟨fun he => hne he.symm, hid⟩
    have hshape := setNeighbors_shape g neighbor level (g.neighborsOf neighbor level ++ [id])
    have hread : (g.setNeighbors neighbor level (g.neighborsOf neighbor level ++ [id])).neighborsOf
        neighbor level = g.neighborsOf neighbor level ++ [id] := by
      rw [neighborsOf_setNeighbors g _ hn, if_pos ⟨rfl, rfl⟩]
    unfold pruneNeighbors
    simp only [hread, hshape.options]
    split
    · rename_i hle
      exact ⟨_, ⟨hle, hnodup, fun hs => (hmem _ hs).1 rfl, fun j hj => (hmem j hj).2⟩, rfl⟩
    · -- the list is pruned: a selection of it is written in its place
      rw [setNeighbors_setNeighbors]
      generalize hc : (List.insertionSort (· ≤ ·) ((g.neighborsOf neighbor level ++ [id]).map
        fun j => (⟨dist ((g.setNeighbors neighbor level
          (g.neighborsOf neighbor level ++ [id])).vectorOf neighbor) ((g.setNeighbors neighbor level
          (g.neighborsOf neighbor level ++ [id])).vectorOf j), j⟩ : Candidate Nat D))) = candidates
      have hids : (candidates.map (·.id)).Perm (g.neighborsOf neighbor level ++ [id]) := by
        rw [← hc]
        refine ((List.perm_insertionSort _ _).map _).trans ?_
        rw [List.map_map]
        have hid' : ((fun c : Candidate Nat D => c.id) ∘ fun j => (⟨dist ((g.setNeighbors neighbor
            level (g.neighborsOf neighbor level ++ [id])).vectorOf neighbor) ((g.setNeighbors neighbor
            level (g.neighborsOf neighbor level ++ [id])).vectorOf j), j⟩ : Candidate Nat D)) =
            fun j => j := rfl
        rw [hid', List.map_id']
      have hsel := selectNeighbors_selected dist
        (g.setNeighbors neighbor level (g.neighborsOf neighbor level ++ [id]))
        (neighborLimit_pos hm level).1 (hids.nodup_iff.mpr hnodup)
      refine ⟨_, ⟨hsel.length_le, hsel.nodup, ?_, ?_⟩, rfl⟩
      · exact fun hs => (hmem _ (hids.subset (hsel.subset hs))).1 rfl
      · exact fun j hj => (hmem j (hids.subset (hsel.subset hj))).2

theorem linkBack_keeps {g : HNSWGraph} {id level : Nat} (hm : 2 ≤ g.options.maxNeighbors)
    (h : AllLinks g) (hid : level < g.levelCount id) (hn : level < g.levelCount neighbor)
    (hne : neighbor ≠ id) :
    AllLinks (linkBack dist id level g neighbor) ∧
      SameShape g (linkBack dist id level g neighbor) := by
  rcases linkBack_eq dist g hm (h neighbor level hn) hid hn hne with he | ⟨ns, hns, he⟩
  · rw [he]
    exact ⟨h, SameShape.refl g⟩
  · rw [he]
    exact ⟨h.setNeighbors hn hns, setNeighbors_shape g neighbor level ns⟩

theorem foldl_linkBack_keeps {id level : Nat} (ns : List Nat) {g : HNSWGraph}
    (hm : 2 ≤ g.options.maxNeighbors) (h : AllLinks g) (hid : level < g.levelCount id)
    (hns : ∀ j ∈ ns, level < g.levelCount j ∧ j ≠ id) :
    AllLinks (ns.foldl (linkBack dist id level) g) ∧
      SameShape g (ns.foldl (linkBack dist id level) g) := by
  induction ns generalizing g with
  | nil => exact ⟨h, SameShape.refl g⟩
  | cons j ns ih =>
    obtain ⟨hj, hne⟩ := hns j List.mem_cons_self
    obtain ⟨hlinks, hshape⟩ := linkBack_keeps dist hm h hid hj hne
    have hcount := hshape.levelCount
    obtain ⟨hrest, hrestshape⟩ := ih (g := linkBack dist id level g j)
      (by rw [hshape.options]; exact hm) hlinks (by rw [hcount]; exact hid)
      (fun k hk => by rw [hcount]; exact hns k (List.mem_cons_of_mem j hk))
    exact ⟨hrest, hshape.trans hrestshape⟩

theorem connect_keeps {g : HNSWGraph} {id level : Nat} (hm : 2 ≤ g.options.maxNeighbors)
    (h : AllLinks g) (hid : level < g.levelCount id) :
    AllLinks (connect dist g id (g.neighborsOf id level) level) ∧
      SameShape g (connect dist g id (g.neighborsOf id level) level) := by
  have hown := h id level hid
  have hset := h.setNeighbors hid hown
  have hshape := setNeighbors_shape g id level (g.neighborsOf id level)
  have hcount := hshape.levelCount
  obtain ⟨hlinks, hrest⟩ := foldl_linkBack_keeps dist (g.neighborsOf id level)
    (by rw [hshape.options]; exact hm) hset (by rw [hcount]; exact hid)
    (fun j hj => ⟨by rw [hcount]; exact hown.exist j hj, by
      intro he
      rw [he] at hj
      exact hown.no_self hj⟩)
  exact ⟨hlinks, hshape.trans hrest⟩

theorem connectLevels_keeps {id : Nat} (levels : Nat) {g : HNSWGraph}
    (hm : 2 ≤ g.options.maxNeighbors) (h : AllLinks g) (hid : levels ≤ g.levelCount id) :
    AllLinks (connectLevels dist id levels g) ∧ SameShape g (connectLevels dist id levels g) := by
  induction levels generalizing g with
  | zero => exact ⟨h, SameShape.refl g⟩
  | succ level ih =>
    obtain ⟨hlinks, hshape⟩ := connect_keeps dist hm h (Nat.lt_of_succ_le hid)
    obtain ⟨hrest, hrestshape⟩ := ih (by rw [hshape.options]; exact hm) hlinks
      (by rw [hshape.levelCount]; omega)
    exact ⟨hrest, hshape.trans hrestshape⟩

/-! ## Searching a layer -/

theorem searchLayer_sound (g : HNSWGraph) (query : FloatVector) (entries : List Nat)
    (ef level : Nat) (visibility : Nat → Bool) :
    (∀ c ∈ searchLayer dist g query entries ef level visibility,
      level < g.levelCount c.id ∧ c.distance = dist query (g.vectorOf c.id) ∧
        visibility c.id = true) ∧
    (searchLayer dist g query entries ef level visibility).Pairwise (· < ·) ∧
    (searchLayer dist g query entries ef level visibility).length ≤ ef ∧
    ((searchLayer dist g query entries ef level visibility).map (·.id)).Nodup := by
  unfold searchLayer
  split
  · simp
  · have hlinks : ∀ x, level < g.levelCount x → ∀ y ∈ g.links level x, level < g.levelCount y := by
      intro x _ y hy
      simpa using (List.mem_filter.mp hy).2
    have hentries : ∀ x ∈ entries.filter fun entry => level < g.levelCount entry,
        level < g.levelCount x := fun x hx => by simpa using (List.mem_filter.mp hx).2
    obtain ⟨h1, h2, h3⟩ := search_sound (fun id => dist query (g.vectorOf id)) visibility ef hlinks
      g.size _ hentries
    exact ⟨h1, h2, h3, search_ids_nodup hlinks g.size _ hentries⟩

theorem searchLayer_ne_nil (g : HNSWGraph) (query : FloatVector) {entries : List Nat}
    {ef level : Nat} (hef : 1 ≤ ef) (he : e ∈ entries) (hl : level < g.levelCount e) :
    searchLayer dist g query entries ef level (fun _ => true) ≠ [] := by
  have hmem : e ∈ entries.filter fun entry => level < g.levelCount entry :=
    List.mem_filter.mpr ⟨he, by simpa using hl⟩
  unfold searchLayer
  rw [if_neg (by omega)]
  cases hf : entries.filter fun entry => level < g.levelCount entry with
  | nil =>
    rw [hf] at hmem
    cases hmem
  | cons x xs => exact search_ne_nil hef g.size xs rfl

theorem descend_some (g : HNSWGraph) (query : FloatVector) (level steps : Nat) {entries : List Nat}
    (he : e ∈ entries) (hl : level + steps < g.levelCount e) :
    ∃ entries', descend dist g query level steps entries = some entries' ∧
      ∃ e' ∈ entries', level < g.levelCount e' := by
  induction steps generalizing entries e with
  | zero => exact ⟨entries, rfl, e, he, hl⟩
  | succ steps ih =>
    have hne := searchLayer_ne_nil dist g query (Nat.le_refl 1) he hl
    rw [descend]
    cases hs : searchLayer dist g query entries 1 (level + (steps + 1)) fun _ => true with
    | nil => exact absurd hs hne
    | cons nearest rest =>
      have hvalid := (searchLayer_sound dist g query entries 1 (level + (steps + 1))
        fun _ => true).1 nearest (hs ▸ List.mem_cons_self)
      have hself : nearest.id ∈ [nearest.id] := List.mem_cons_self
      exact ih hself (by omega)

theorem selectLinks_some (g : HNSWGraph) (vector : FloatVector) (hm : 2 ≤ g.options.maxNeighbors)
    (levels : Nat) {entries : List Nat} (he : e ∈ entries) (hl : levels ≤ g.levelCount e) :
    ∃ lists, selectLinks dist g vector levels entries = some lists ∧ lists.length = levels ∧
      ∀ level ns, lists[level]? = some ns →
        ns.Nodup ∧ ns.length ≤ g.options.maxNeighbors ∧ ∀ j ∈ ns, level < g.levelCount j := by
  induction levels generalizing entries e with
  | zero => exact ⟨[], rfl, rfl, by simp⟩
  | succ level ih =>
    have hwide : 1 ≤ max g.options.efConstruction g.options.maxNeighbors := by omega
    have hne := searchLayer_ne_nil dist g vector hwide he (Nat.lt_of_succ_le hl)
    obtain ⟨hsound, _, _, hnodup⟩ := searchLayer_sound dist g vector entries
      (max g.options.efConstruction g.options.maxNeighbors) level fun _ => true
    rw [selectLinks]
    simp only [if_neg hne]
    generalize searchLayer dist g vector entries
      (max g.options.efConstruction g.options.maxNeighbors) level (fun _ => true) = candidates
      at hne hsound hnodup
    obtain ⟨c, cs, rfl⟩ := List.exists_cons_of_ne_nil hne
    have hc := hsound c List.mem_cons_self
    have hself : c.id ∈ (c :: cs).map (·.id) := List.mem_cons_self
    obtain ⟨lower, hlower, hlen, hlists⟩ := ih hself (by omega)
    rw [hlower]
    have hone : 1 ≤ g.options.maxNeighbors := by omega
    have hsel := selectNeighbors_selected dist g hone hnodup
    refine ⟨_, rfl, by simp [hlen], ?_⟩
    intro k ns hk
    by_cases hlt : k < lower.length
    · rw [List.getElem?_append_left hlt] at hk
      exact hlists k ns hk
    · rw [List.getElem?_append_right (by omega)] at hk
      have hk0 : k - lower.length = 0 := by
        by_contra h0
        rw [List.getElem?_eq_none (by simp; omega)] at hk
        cases hk
      rw [hk0] at hk
      have hns := Option.some.inj hk
      subst hns
      refine ⟨hsel.nodup, hsel.length_le, fun j hj => ?_⟩
      obtain ⟨c', hc', rfl⟩ := List.mem_map.mp (hsel.subset hj)
      have hvalid := (hsound c' hc').1
      omega

end Select

/-! ## The invariant -/

structure Ok (g : HNSWGraph) : Prop where
  options : g.options.validateOptions = .ok
  vectorData_length : g.vectorData.length = g.size * g.options.dimension
  node : ∀ i n, g.nodes[i]? = some n →
    n.id = i ∧ n.key ≠ [] ∧ n.vectorOffset = i * g.options.dimension ∧
      1 ≤ n.neighbors.length ∧ n.neighbors.length ≤ kMaximumRandomLevel + 1
  vectors : ∀ i, i < g.size → g.options.validateVector (g.vectorOf i) = .ok
  links : AllLinks g
  top : (g.nodes = [] ∧ g.maxLevel = -1) ∨
    ∃ top : Nat, g.maxLevel = top ∧ g.levelCount g.entryPoint = top + 1 ∧
      ∀ i, g.levelCount i ≤ top + 1

theorem validateOptions_ok (h : o.validateOptions = .ok) :
    1 ≤ o.dimension ∧ 2 ≤ o.maxNeighbors ∧ 1 ≤ o.efConstruction := by
  unfold HNSWGraphOptions.validateOptions at h
  split at h
  · cases h
  · split at h
    · cases h
    · split at h
      · cases h
      · exact ⟨by omega, by omega, by omega⟩

theorem validateVector_length {v : FloatVector} (h : o.validateVector v = .ok) :
    v.length = o.dimension := by
  unfold HNSWGraphOptions.validateVector at h
  split at h
  · cases h
  · rename_i hl
    exact not_not.mp hl

theorem validateVector_cases (o : HNSWGraphOptions) (v : FloatVector) :
    o.validateVector v = .ok ∨ ∃ message, o.validateVector v = .invalidArgument message := by
  unfold HNSWGraphOptions.validateVector
  split
  · exact Or.inr ⟨_, rfl⟩
  · split
    · exact Or.inr ⟨_, rfl⟩
    · split
      · exact Or.inr ⟨_, rfl⟩
      · exact Or.inl rfl

theorem levelCount_of_ge (h : g.size ≤ i) : g.levelCount i = 0 := by
  rw [levelCount, List.getElem?_eq_none h, Option.map_none, Option.getD_none]

theorem lt_size_of_levelCount (h : level < g.levelCount i) : i < g.size := by
  by_contra hge
  rw [levelCount_of_ge (Nat.le_of_not_lt hge)] at h
  omega

theorem Ok.levelCount_pos (h : Ok g) (hi : i < g.size) : 1 ≤ g.levelCount i := by
  have hget : g.nodes[i]? = some g.nodes[i] := List.getElem?_eq_getElem hi
  have hnode := h.node i _ hget
  rw [levelCount, hget, Option.map_some, Option.getD_some]
  exact hnode.2.2.2.1

theorem ok_empty (h : o.validateOptions = .ok) : Ok ⟨o, -1, 0, [], []⟩ where
  options := h
  vectorData_length := by simp [size]
  node := by simp
  vectors := by simp [size]
  links := by
    intro i level hl
    simp [levelCount] at hl
  top := Or.inl ⟨rfl, rfl⟩

theorem Ok.of_shape (hs : SameShape g g') (hlinks : AllLinks g') (h : Ok g) :
    Ok g' where
  options := by rw [hs.options]; exact h.options
  vectorData_length := by rw [hs.vectorData, hs.size, hs.options]; exact h.vectorData_length
  node := by
    intro i n hn
    have hget := hs.get i
    rw [hn, Option.map_some] at hget
    obtain ⟨m, hm, hshape⟩ := Option.map_eq_some_iff.mp hget.symm
    simp only [shape, Prod.mk.injEq] at hshape
    obtain ⟨h1, h2, h3, _, h5⟩ := hshape
    rw [hs.options, ← h1, ← h2, ← h3, ← h5]
    exact h.node i m hm
  vectors := by
    intro i hi
    rw [hs.size] at hi
    rw [hs.options, hs.vectorOf]
    exact h.vectors i hi
  links := hlinks
  top := by
    rcases h.top with ⟨hn, hm⟩ | ⟨top, hm, he, hall⟩
    · left
      have hlen := hs.size
      rw [size, size, hn, List.length_nil] at hlen
      exact ⟨List.length_eq_zero_iff.mp hlen, by rw [hs.maxLevel, hm]⟩
    · right
      refine ⟨top, by rw [hs.maxLevel, hm], by rw [hs.entryPoint, hs.levelCount, he], ?_⟩
      intro i
      rw [hs.levelCount]
      exact hall i

/-! ## A new node -/

section Append

variable (g : HNSWGraph) (vector : FloatVector) (key metadata : Bytes)
  (neighbors : List (List Nat))

theorem appendNode_get_self :
    (g.appendNode vector key metadata neighbors).nodes[g.size]? =
      some ⟨g.size, key, g.vectorData.length, metadata, neighbors⟩ :=
  List.getElem?_concat_length

theorem appendNode_get_lt {i : Nat} (h : i < g.size) :
    (g.appendNode vector key metadata neighbors).nodes[i]? = g.nodes[i]? :=
  List.getElem?_append_left h

@[simp] theorem appendNode_size :
    (g.appendNode vector key metadata neighbors).size = g.size + 1 := by
  simp [appendNode, size]

theorem appendNode_levelCount_self :
    (g.appendNode vector key metadata neighbors).levelCount g.size = neighbors.length := by
  rw [levelCount, appendNode_get_self, Option.map_some, Option.getD_some]

theorem appendNode_levelCount_ne {i : Nat} (h : i ≠ g.size) :
    (g.appendNode vector key metadata neighbors).levelCount i = g.levelCount i := by
  by_cases hi : i < g.size
  · rw [levelCount, levelCount, appendNode_get_lt g vector key metadata neighbors hi]
  · rw [levelCount_of_ge (by rw [appendNode_size]; omega), levelCount_of_ge (by omega)]

theorem appendNode_neighborsOf_self (level : Nat) :
    (g.appendNode vector key metadata neighbors).neighborsOf g.size level =
      (neighbors[level]?).getD [] := by
  rw [neighborsOf, appendNode_get_self, Option.bind_some]

theorem appendNode_neighborsOf_lt {i : Nat} (h : i < g.size) (level : Nat) :
    (g.appendNode vector key metadata neighbors).neighborsOf i level = g.neighborsOf i level := by
  rw [neighborsOf, neighborsOf, appendNode_get_lt g vector key metadata neighbors h]

theorem appendNode_keyOf_self :
    (g.appendNode vector key metadata neighbors).keyOf g.size = key := by
  rw [keyOf, appendNode_get_self, Option.map_some, Option.getD_some]

theorem appendNode_keyOf_lt {i : Nat} (h : i < g.size) :
    (g.appendNode vector key metadata neighbors).keyOf i = g.keyOf i := by
  rw [keyOf, keyOf, appendNode_get_lt g vector key metadata neighbors h]

theorem appendNode_metadataOf_self :
    (g.appendNode vector key metadata neighbors).metadataOf g.size = metadata := by
  rw [metadataOf, appendNode_get_self, Option.map_some, Option.getD_some]

theorem appendNode_metadataOf_lt {i : Nat} (h : i < g.size) :
    (g.appendNode vector key metadata neighbors).metadataOf i = g.metadataOf i := by
  rw [metadataOf, metadataOf, appendNode_get_lt g vector key metadata neighbors h]

theorem appendNode_vectorOf_self (hv : vector.length = g.options.dimension) :
    (g.appendNode vector key metadata neighbors).vectorOf g.size = vector := by
  rw [vectorOf, appendNode_get_self, Option.map_some, Option.getD_some]
  have hdrop : (g.vectorData ++ vector).drop g.vectorData.length = vector := List.drop_left' rfl
  change ((g.vectorData ++ vector).drop g.vectorData.length).take g.options.dimension = vector
  rw [hdrop, List.take_of_length_le (by omega)]

theorem appendNode_vectorOf_lt (hok : Ok g) {i : Nat} (h : i < g.size) :
    (g.appendNode vector key metadata neighbors).vectorOf i = g.vectorOf i := by
  have hget : g.nodes[i]? = some g.nodes[i] := List.getElem?_eq_getElem h
  have hoff := (hok.node i _ hget).2.2.1
  have hroom : i * g.options.dimension + g.options.dimension ≤ g.vectorData.length := by
    rw [hok.vectorData_length, ← Nat.succ_mul]
    exact Nat.mul_le_mul_right _ h
  rw [vectorOf, vectorOf, appendNode_get_lt g vector key metadata neighbors h, hget,
    Option.map_some, Option.map_some, Option.getD_some, Option.getD_some, hoff]
  change ((g.vectorData ++ vector).drop _).take g.options.dimension = _
  rw [List.drop_append_of_le_length (by omega),
    List.take_append_of_le_length (by rw [List.length_drop]; omega)]

end Append

def ListsOk (g : HNSWGraph) (lists : List (List Nat)) : Prop :=
  ∀ level ns, lists[level]? = some ns →
    ns.Nodup ∧ ns.length ≤ g.options.maxNeighbors ∧ ∀ j ∈ ns, level < g.levelCount j

theorem listsOk_pad (h : ListsOk g lists) (k : Nat) : ListsOk g (lists ++ List.replicate k []) := by
  intro level ns hns
  by_cases hlt : level < lists.length
  · rw [List.getElem?_append_left hlt] at hns
    exact h level ns hns
  · rw [List.getElem?_append_right (by omega)] at hns
    have hmem := List.mem_of_getElem? hns
    have hnil := List.eq_of_mem_replicate hmem
    subst hnil
    simp

theorem appendNode_links (hok : Ok g) (vector : FloatVector) (key metadata : Bytes)
    (hl : ListsOk g lists) : AllLinks (g.appendNode vector key metadata lists) := by
  have hm := (validateOptions_ok hok.options).2.1
  have hmono : ∀ j level, level < g.levelCount j →
      level < (g.appendNode vector key metadata lists).levelCount j := by
    intro j level hj
    rw [appendNode_levelCount_ne g vector key metadata lists
      (Nat.ne_of_lt (lt_size_of_levelCount hj))]
    exact hj
  intro i level hi
  by_cases hnew : i = g.size
  · subst hnew
    rw [appendNode_levelCount_self] at hi
    have hget : lists[level]? = some lists[level] := List.getElem?_eq_getElem hi
    obtain ⟨hnodup, hlen, hexist⟩ := hl level _ hget
    rw [appendNode_neighborsOf_self, hget, Option.getD_some]
    refine ⟨hlen.trans (neighborLimit_pos hm level).2, hnodup, ?_, fun j hj => hmono j level (hexist j hj)⟩
    intro hself
    exact absurd (lt_size_of_levelCount (hexist _ hself)) (Nat.lt_irrefl _)
  · rw [appendNode_levelCount_ne g vector key metadata lists hnew] at hi
    have hold := hok.links i level hi
    rw [appendNode_neighborsOf_lt g vector key metadata lists (lt_size_of_levelCount hi)]
    exact ⟨hold.length_le, hold.nodup, hold.no_self, fun j hj => hmono j level (hold.exist j hj)⟩

/-- What an insertion adds, and what it leaves alone. -/
structure Added (g g' : HNSWGraph) (vector : FloatVector) (key metadata : Bytes) : Prop where
  options : g'.options = g.options
  size : g'.size = g.size + 1
  vectorOf_new : g'.vectorOf g.size = vector
  keyOf_new : g'.keyOf g.size = key
  metadataOf_new : g'.metadataOf g.size = metadata
  old : ∀ i, i < g.size → g'.vectorOf i = g.vectorOf i ∧ g'.keyOf i = g.keyOf i ∧
    g'.metadataOf i = g.metadataOf i

theorem Added.of_shape {g'' : HNSWGraph} {key metadata : Bytes} (h : Added g g' vector key metadata)
    (hs : SameShape g' g'') :
    Added g g'' vector key metadata where
  options := by rw [hs.options, h.options]
  size := by rw [hs.size, h.size]
  vectorOf_new := by rw [hs.vectorOf, h.vectorOf_new]
  keyOf_new := by rw [hs.keyOf, h.keyOf_new]
  metadataOf_new := by rw [hs.metadataOf, h.metadataOf_new]
  old := by
    intro i hi
    rw [hs.vectorOf, hs.keyOf, hs.metadataOf]
    exact h.old i hi

theorem appendNode_added (hok : Ok g) (key metadata : Bytes) (lists : List (List Nat))
    (hv : g.options.validateVector vector = .ok) :
    Added g (g.appendNode vector key metadata lists) vector key metadata where
  options := rfl
  size := appendNode_size g vector key metadata lists
  vectorOf_new := appendNode_vectorOf_self g vector key metadata lists (validateVector_length hv)
  keyOf_new := appendNode_keyOf_self g vector key metadata lists
  metadataOf_new := appendNode_metadataOf_self g vector key metadata lists
  old := fun _ hi => ⟨appendNode_vectorOf_lt g vector key metadata lists hok hi,
    appendNode_keyOf_lt g vector key metadata lists hi,
    appendNode_metadataOf_lt g vector key metadata lists hi⟩

theorem appendNode_ok (hok : Ok g) {key : Bytes} (metadata : Bytes) (hk : key ≠ [])
    (hv : g.options.validateVector vector = .ok) (hl : ListsOk g lists) (hpos : 1 ≤ lists.length)
    (hle : lists.length ≤ kMaximumRandomLevel + 1) {entry : Nat} {top : Nat}
    (hentry : (g.appendNode vector key metadata lists).levelCount entry = top + 1)
    (htop : ∀ i, (g.appendNode vector key metadata lists).levelCount i ≤ top + 1) :
    Ok { g.appendNode vector key metadata lists with entryPoint := entry, maxLevel := top } where
  options := hok.options
  vectorData_length := by
    change (g.vectorData ++ vector).length =
      (g.appendNode vector key metadata lists).size * g.options.dimension
    rw [appendNode_size, List.length_append, hok.vectorData_length, validateVector_length hv,
      Nat.succ_mul]
  node := by
    intro i n hn
    change (g.appendNode vector key metadata lists).nodes[i]? = some n at hn
    by_cases hi : i < g.size
    · rw [appendNode_get_lt g vector key metadata lists hi] at hn
      exact hok.node i n hn
    · have hsize : i < (g.appendNode vector key metadata lists).size :=
        (List.getElem?_eq_some_iff.mp hn).1
      rw [appendNode_size] at hsize
      have hie : i = g.size := by omega
      subst hie
      rw [appendNode_get_self] at hn
      have hne := Option.some.inj hn
      subst hne
      exact ⟨rfl, hk, hok.vectorData_length, hpos, hle⟩
  vectors := by
    intro i hi
    change i < (g.appendNode vector key metadata lists).size at hi
    rw [appendNode_size] at hi
    change g.options.validateVector ((g.appendNode vector key metadata lists).vectorOf i) = .ok
    by_cases hlt : i < g.size
    · rw [appendNode_vectorOf_lt g vector key metadata lists hok hlt]
      exact hok.vectors i hlt
    · have hie : i = g.size := by omega
      rw [hie, appendNode_vectorOf_self g vector key metadata lists (validateVector_length hv)]
      exact hv
  links := appendNode_links hok vector key metadata hl
  top := Or.inr ⟨top, rfl, hentry, htop⟩

section Insert

variable {D : Type} [LinearOrder D] (dist : FloatVector → FloatVector → D)

/-- The graph the linking starts from, with the entry point and the top level the
insertion will set. -/
def announced (g : HNSWGraph) (vector : FloatVector) (key metadata : Bytes) (level : Nat)
    (lists : List (List Nat)) : HNSWGraph :=
  let appended := g.appendNode vector key metadata
    (lists ++ List.replicate (level + 1 - lists.length) [])
  if (level : Int) > g.maxLevel then { appended with entryPoint := g.size, maxLevel := level }
  else appended

theorem padded_length {lists : List (List Nat)} {level : Nat} (h : lists.length ≤ level + 1) :
    (lists ++ List.replicate (level + 1 - lists.length) []).length = level + 1 := by
  rw [List.length_append, List.length_replicate]
  omega

theorem announced_ok {g : HNSWGraph} (hok : Ok g) {vector : FloatVector} {key : Bytes}
    (metadata : Bytes) {level : Nat} {lists : List (List Nat)} (hlevel : level ≤ kMaximumRandomLevel)
    (hk : key ≠ []) (hv : g.options.validateVector vector = .ok) (hl : ListsOk g lists)
    (hlen : lists.length ≤ level + 1) : Ok (g.announced vector key metadata level lists) := by
  have hpad := padded_length hlen
  have hlists := listsOk_pad hl (level + 1 - lists.length)
  have hself := appendNode_levelCount_self g vector key metadata
    (lists ++ List.replicate (level + 1 - lists.length) [])
  have hne : ∀ i, i ≠ g.size → _ := fun i hi => appendNode_levelCount_ne g vector key metadata
    (lists ++ List.replicate (level + 1 - lists.length) []) hi
  rw [hpad] at hself
  unfold announced
  simp only
  split
  · rename_i hgt
    refine appendNode_ok hok metadata hk hv hlists (by omega) (by omega) hself ?_
    intro i
    by_cases hi : i = g.size
    · rw [hi, hself]
    · rw [hne i hi]
      rcases hok.top with ⟨hn, _⟩ | ⟨top, hm, _, hall⟩
      · have hzero : g.levelCount i = 0 := levelCount_of_ge (by simp [size, hn])
        omega
      · have := hall i
        omega
  · rename_i hle
    rcases hok.top with ⟨_, hm⟩ | ⟨top, hm, hentry, hall⟩
    · rw [hm] at hle
      omega
    · have htop : top < g.levelCount g.entryPoint := by omega
      have hlt := lt_size_of_levelCount htop
      have hsame : ({ g.appendNode vector key metadata
          (lists ++ List.replicate (level + 1 - lists.length) []) with
            entryPoint := g.entryPoint, maxLevel := (top : Int) } : HNSWGraph) =
          g.appendNode vector key metadata
            (lists ++ List.replicate (level + 1 - lists.length) []) := by
        rw [← hm]
        rfl
      rw [← hsame]
      refine appendNode_ok hok metadata hk hv hlists (by omega) (by omega) ?_ ?_
      · rw [hne _ (Nat.ne_of_lt hlt), hentry]
      · intro i
        by_cases hi : i = g.size
        · rw [hi, hself]
          omega
        · rw [hne i hi]
          exact hall i

/-- Linking commutes with setting the entry point and the top level. -/
theorem publish_shape {g : HNSWGraph} (hok : Ok g) {vector : FloatVector} {key : Bytes}
    (metadata : Bytes) {level : Nat} {lists : List (List Nat)} (hl : ListsOk g lists)
    (hlen : lists.length ≤ level + 1) (hlevels : g.connectedLevels level ≤ level + 1) :
    AllLinks (publish dist g vector key metadata level lists) ∧
      SameShape (g.announced vector key metadata level lists)
        (publish dist g vector key metadata level lists) := by
  have hm := (validateOptions_ok hok.options).2.1
  have hlists := listsOk_pad hl (level + 1 - lists.length)
  have hlinks := appendNode_links hok vector key metadata hlists
  have hself := appendNode_levelCount_self g vector key metadata
    (lists ++ List.replicate (level + 1 - lists.length) [])
  rw [padded_length hlen] at hself
  have hroom : g.connectedLevels level ≤ (g.appendNode vector key metadata
      (lists ++ List.replicate (level + 1 - lists.length) [])).levelCount g.size := by omega
  obtain ⟨hall, hshape⟩ := connectLevels_keeps dist (g.connectedLevels level)
    (g := g.appendNode vector key metadata
      (lists ++ List.replicate (level + 1 - lists.length) [])) hm hlinks hroom
  unfold publish announced
  simp only
  split
  · exact ⟨hall, ⟨hshape.options, rfl, rfl, hshape.vectorData, hshape.nodes⟩⟩
  · exact ⟨hall, hshape⟩

theorem announced_added {g : HNSWGraph} (hok : Ok g) {vector : FloatVector} (key metadata : Bytes)
    (level : Nat) (lists : List (List Nat)) (hv : g.options.validateVector vector = .ok) :
    Added g (g.announced vector key metadata level lists) vector key metadata := by
  have hadded := appendNode_added hok key metadata
    (lists ++ List.replicate (level + 1 - lists.length) []) hv
  unfold announced
  simp only
  split
  · exact ⟨hadded.options, hadded.size, hadded.vectorOf_new, hadded.keyOf_new,
      hadded.metadataOf_new, hadded.old⟩
  · exact hadded

theorem selectLinks_of_ok {g : HNSWGraph} (hok : Ok g) (vector : FloatVector) (level : Nat) :
    ∃ entries lists, descend dist g vector level (g.maxLevel - level).toNat [g.entryPoint] =
        some entries ∧ selectLinks dist g vector (g.connectedLevels level) entries = some lists ∧
      lists.length = g.connectedLevels level ∧ ListsOk g lists := by
  have hm := (validateOptions_ok hok.options).2.1
  rcases hok.top with ⟨hn, hmax⟩ | ⟨top, hmax, hentry, _⟩
  · -- the empty graph has no level to walk through
    have hsteps : (g.maxLevel - level).toNat = 0 := by omega
    have hzero : g.connectedLevels level = 0 := by
      rw [connectedLevels, hmax]
      omega
    refine ⟨[g.entryPoint], [], ?_, ?_, by rw [hzero]; rfl, by simp [ListsOk]⟩
    · rw [hsteps]
      rfl
    · rw [hzero]
      rfl
  · have hself : g.entryPoint ∈ [g.entryPoint] := List.mem_cons_self
    by_cases hle : level ≤ top
    · have hsteps : (g.maxLevel - level).toNat = top - level := by omega
      have hlevels : g.connectedLevels level = level + 1 := by
        rw [connectedLevels, hmax]
        omega
      obtain ⟨entries, hd, e, he, hl⟩ :=
        descend_some dist g vector level (top - level) hself (by omega)
      obtain ⟨lists, hs, hlen, hok'⟩ := selectLinks_some dist g vector hm (level + 1) he (by omega)
      rw [hsteps, hlevels]
      exact ⟨entries, lists, hd, hs, hlen, hok'⟩
    · have hsteps : (g.maxLevel - level).toNat = 0 := by omega
      have hlevels : g.connectedLevels level = top + 1 := by
        rw [connectedLevels, hmax]
        omega
      obtain ⟨lists, hs, hlen, hok'⟩ := selectLinks_some dist g vector hm (top + 1) hself (by omega)
      rw [hsteps, hlevels]
      exact ⟨[g.entryPoint], lists, rfl, hs, hlen, hok'⟩

theorem connectedLevels_le (g : HNSWGraph) (level : Nat) : g.connectedLevels level ≤ level + 1 := by
  rw [connectedLevels]
  omega

/-- An insertion of a valid vector under a key succeeds and keeps the invariant. -/
theorem addNode_ok {g : HNSWGraph} (hok : Ok g) {vector : FloatVector} {key : Bytes}
    (metadata : Bytes) {level : Nat} (hlevel : level ≤ kMaximumRandomLevel) (hk : key ≠ [])
    (hv : g.options.validateVector vector = .ok) :
    ∃ g', addNode dist g vector key metadata level = (g', .ok g.size) ∧ Ok g' ∧
      Added g g' vector key metadata := by
  obtain ⟨entries, lists, hd, hs, hlen, hlists⟩ := selectLinks_of_ok dist hok vector level
  have hlevels := connectedLevels_le g level
  have hannounced := announced_ok hok metadata hlevel hk hv hlists (by omega)
  obtain ⟨hlinks, hshape⟩ : AllLinks (publish dist g vector key metadata level lists) ∧
      SameShape (g.announced vector key metadata level lists)
        (publish dist g vector key metadata level lists) :=
    publish_shape dist hok metadata hlists (by omega) hlevels
  refine ⟨publish dist g vector key metadata level lists, ?_, hannounced.of_shape hshape hlinks,
    (announced_added hok key metadata level lists hv).of_shape hshape⟩
  simp only [addNode, hok.options, if_neg hk, hv, hd, hs]

variable {e : Status}

theorem addNode_error (g : HNSWGraph) (vector : FloatVector) (key metadata : Bytes) (level : Nat)
    (h : (addNode dist g vector key metadata level).2 = .error e) :
    (addNode dist g vector key metadata level).1 = g := by
  have hcases : (addNode dist g vector key metadata level).1 = g ∨
      ∃ id, (addNode dist g vector key metadata level).2 = .ok id := by
    unfold addNode
    split
    · split
      · exact Or.inl rfl
      · split
        · split
          · exact Or.inl rfl
          · split
            · exact Or.inl rfl
            · exact Or.inr ⟨_, rfl⟩
        · exact Or.inl rfl
    · exact Or.inl rfl
  rcases hcases with hg | ⟨id, hid⟩
  · exact hg
  · rw [hid] at h
    cases h

/-- An insertion into a well-formed graph never fails for want of an entry. -/
theorem addNode_error_invalid {g : HNSWGraph} (hok : Ok g) (vector : FloatVector)
    (key metadata : Bytes) {level : Nat} (hlevel : level ≤ kMaximumRandomLevel)
    (h : (addNode dist g vector key metadata level).2 = .error e) :
    ∃ message, e = .invalidArgument message := by
  by_cases hk : key = []
  · simp only [addNode, hok.options, if_pos hk] at h
    cases h
    exact ⟨_, rfl⟩
  · rcases validateVector_cases g.options vector with hv | ⟨message, hv⟩
    · obtain ⟨g', hadd, _⟩ := addNode_ok dist hok metadata hlevel hk hv
      rw [hadd] at h
      cases h
    · simp only [addNode, hok.options, if_neg hk, hv] at h
      cases h
      exact ⟨message, rfl⟩

/-- A search of a well-formed graph always has an entry. -/
theorem searchGraph_ok {g : HNSWGraph} (hok : Ok g) (query : FloatVector) (topK ef : Nat)
    (visibility : Nat → Bool) : ∃ results, searchGraph dist g query topK ef visibility = .ok results := by
  unfold searchGraph
  split
  · exact ⟨_, rfl⟩
  · rename_i hne
    rcases hok.top with ⟨hn, _⟩ | ⟨top, hmax, hentry, _⟩
    · exact absurd (Or.inl hn) hne
    · have hself : g.entryPoint ∈ [g.entryPoint] := List.mem_cons_self
      have hsteps : g.maxLevel.toNat = top := by omega
      obtain ⟨entries, hd, _⟩ := descend_some dist g query 0 top hself (by omega)
      rw [hsteps, hd]
      exact ⟨_, rfl⟩

end Insert

end KvMem.HNSWGraph
