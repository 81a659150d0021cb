import KvMem.Vector.Runs

/-! # Searches of an index

A search at a sequence number answers with latest versions only: those that were
written at or before it, are not deleted, and carry the metadata and the vector the
answer was computed from. Which of them it finds depends on the links of the graph.
-/

namespace KvMem

open BeamSearch VersionTable

/-! ## Candidates -/

namespace HNSWGraph

variable {D : Type} [LinearOrder D] (dist : FloatVector → FloatVector → D)

variable {candidates : List (Candidate Nat D)} {ef topK : Nat} {g : HNSWGraph}

theorem searchGraph_sound {query : FloatVector} {visibility : Nat → Bool}
    (h : g.searchGraph dist query topK ef visibility = .ok candidates) :
    (∀ c ∈ candidates, c.distance = dist query (g.vectorOf c.id) ∧ visibility c.id = true) ∧
      candidates.length ≤ topK ∧ (candidates.map (·.id)).Nodup := by
  unfold searchGraph at h
  split at h
  · cases h
    simp
  · split at h
    · cases h
    · rename_i entries _
      cases h
      obtain ⟨hall, _, _, hnodup⟩ :=
        searchLayer_sound dist g query entries (max topK ef) 0 visibility
      refine ⟨?_, List.length_take_le _ _, ?_⟩
      · intro c hc
        exact (hall c (List.mem_of_mem_take hc)).2
      · rw [List.map_take]
        exact hnodup.sublist (List.take_sublist _ _)

theorem descend_single (g : HNSWGraph) (query : FloatVector) (level steps entry : Nat)
    {entries : List Nat} (h : descend dist g query level steps [entry] = some entries) :
    ∃ e, entries = [e] := by
  induction steps generalizing entry with
  | zero =>
    cases h
    exact ⟨entry, rfl⟩
  | succ steps ih =>
    rw [descend] at h
    split at h
    · cases h
    · exact ih _ h

theorem descend_entry (hok : g.Ok) (hne : g.nodes ≠ []) (query : FloatVector) :
    ∃ entry, descend dist g query 0 g.maxLevel.toNat [g.entryPoint] = some [entry] ∧
      0 < g.levelCount entry := by
  rcases hok.top with ⟨hn, _⟩ | ⟨top, hmax, hentry, _⟩
  · exact absurd hn hne
  · have hself : g.entryPoint ∈ [g.entryPoint] := List.mem_cons_self
    have hsteps : g.maxLevel.toNat = top := by omega
    obtain ⟨entries, hd, e, he, hl⟩ := descend_some dist g query 0 top hself (by omega)
    obtain ⟨entry, rfl⟩ := descend_single dist g query 0 top g.entryPoint hd
    rw [List.mem_singleton.mp he] at hl
    rw [hsteps]
    exact ⟨entry, hd, hl⟩

/-- A node that a search can meet: links of level 0 lead to it from where the search
enters that level. -/
def Findable (g : HNSWGraph) (query : FloatVector) (id : Nat) : Prop :=
  ∃ entry, descend dist g query 0 g.maxLevel.toNat [g.entryPoint] = some [entry] ∧
    Reaches (g.links 0) [entry] id

theorem mem_searchLayer_iff (query : FloatVector) {entry : Nat} (hl : 0 < g.levelCount entry)
    (hwide : g.size ≤ ef) (visibility : Nat → Bool) (c : Candidate Nat D) :
    c ∈ searchLayer dist g query [entry] ef 0 visibility ↔
      c.distance = dist query (g.vectorOf c.id) ∧ visibility c.id = true ∧
        Reaches (g.links 0) [entry] c.id := by
  have hentry : entry < g.size := lt_size_of_levelCount hl
  have hentries : [entry].filter (fun e => 0 < g.levelCount e) = [entry] := by simp [hl]
  have hlinks : ∀ x ∈ Finset.range g.size, ∀ y ∈ g.links 0 x, y ∈ Finset.range g.size := by
    intro x _ y hy
    have hlevel : 0 < g.levelCount y := by simpa using (List.mem_filter.mp hy).2
    exact Finset.mem_range.mpr (lt_size_of_levelCount hlevel)
  rw [searchLayer, if_neg (by omega), hentries]
  refine mem_search_iff hlinks (by rw [Finset.card_range]; exact hwide) [entry] ?_
    (by rw [Finset.card_range])
  intro x hx
  rw [List.mem_singleton.mp hx]
  exact Finset.mem_range.mpr hentry

/-- With a beam as wide as the graph a search is exact on what it can meet: it returns the
first of all visible nodes that links lead to, in the order of distance and node. -/
theorem searchGraph_wide {g : HNSWGraph} (hok : g.Ok) (query : FloatVector) {topK ef : Nat}
    (hwide : g.size ≤ max topK ef) (visibility : Nat → Bool) :
    ∃ all : List (Candidate Nat D), all.Pairwise (· < ·) ∧
      (∀ c, c ∈ all ↔ c.id < g.size ∧ c.distance = dist query (g.vectorOf c.id) ∧
        visibility c.id = true ∧ Findable dist g query c.id) ∧
      g.searchGraph dist query topK ef visibility = .ok (all.take topK) := by
  by_cases hne : g.nodes = []
  · have hsize : g.size = 0 := by rw [size, hne, List.length_nil]
    refine ⟨[], List.Pairwise.nil, ?_, ?_⟩
    · intro c
      rw [hsize]
      simp
    · rw [searchGraph, if_pos (Or.inl hne), List.take_nil]
  · obtain ⟨entry, hd, hl⟩ := descend_entry dist hok hne query
    obtain ⟨hall, hsorted, _, _⟩ := searchLayer_sound dist g query [entry] (max topK ef) 0 visibility
    refine ⟨searchLayer dist g query [entry] (max topK ef) 0 visibility, hsorted, ?_, ?_⟩
    · intro c
      constructor
      · intro hc
        obtain ⟨hdist, hvis, hreach⟩ := (mem_searchLayer_iff dist query hl hwide visibility c).mp hc
        exact ⟨lt_size_of_levelCount (hall c hc).1, hdist, hvis, entry, hd, hreach⟩
      · rintro ⟨_, hdist, hvis, entry', hd', hreach⟩
        rw [hd] at hd'
        cases hd'
        exact (mem_searchLayer_iff dist query hl hwide visibility c).mpr ⟨hdist, hvis, hreach⟩
    · by_cases htop : topK = 0
      · rw [searchGraph, if_pos (Or.inr htop), htop, List.take_zero]
      · rw [searchGraph, if_neg (by simp [hne, htop]), hd]

def twoNodes : HNSWGraph :=
  addNodes exactL2 ⟨⟨1, 2, 1, .kL2⟩, -1, 0, [], []⟩
    [⟨[1#32], ascii "a", [], 1⟩, ⟨[2#32], ascii "b", [], 0⟩]

theorem searchGraph_wide_two :
    twoNodes.searchGraph exactL2 [1#32] 1 2 (· ≠ 0) = .ok [⟨1, 1⟩] ∧
    ∃ all : List (Candidate Nat Int), all.Pairwise (· < ·) ∧
      (∀ c, c ∈ all ↔ c.id < twoNodes.size ∧
        c.distance = exactL2 [1#32] (twoNodes.vectorOf c.id) ∧ decide (c.id ≠ 0) = true ∧
        Findable exactL2 twoNodes [1#32] c.id) ∧
      twoNodes.searchGraph exactL2 [1#32] 1 2 (· ≠ 0) = .ok (all.take 1) :=
  ⟨by decide +kernel,
    searchGraph_wide exactL2 (addNodes_keeps exactL2 (ok_empty (by decide)) _ (by decide)) [1#32]
      (by decide +kernel) (· ≠ 0)⟩

theorem mem_searchGraph_iff (hok : g.Ok) (hne : g.nodes ≠ []) (query : FloatVector)
    (htop : g.size ≤ topK) (visibility : Nat → Bool)
    (h : g.searchGraph dist query topK ef visibility = .ok candidates) (id : Nat) :
    id ∈ candidates.map (·.id) ↔ visibility id = true ∧ Findable dist g query id := by
  obtain ⟨entry, hd, hl⟩ := descend_entry dist hok hne query
  have hpos : 0 < g.size := List.length_pos_iff.mpr hne
  have hmem := mem_searchLayer_iff dist query hl (le_max_of_le_left htop : g.size ≤ max topK ef)
    visibility
  -- the ids are distinct nodes, so the whole layer fits under the limit
  have hlen : (searchLayer dist g query [entry] (max topK ef) 0 visibility).length ≤ topK := by
    obtain ⟨hall, _, _, hnodup⟩ := searchLayer_sound dist g query [entry] (max topK ef) 0 visibility
    have hsub : ((searchLayer dist g query [entry] (max topK ef) 0 visibility).map
        (·.id)).toFinset ⊆ Finset.range g.size := by
      intro x hx
      obtain ⟨c, hc, rfl⟩ := List.mem_map.mp (List.mem_toFinset.mp hx)
      exact Finset.mem_range.mpr (lt_size_of_levelCount (hall c hc).1)
    have hcard := Finset.card_le_card hsub
    rw [List.toFinset_card_of_nodup hnodup, List.length_map, Finset.card_range] at hcard
    omega
  have hcandidates : candidates = searchLayer dist g query [entry] (max topK ef) 0 visibility := by
    have hcond : ¬ (g.nodes = [] ∨ topK = 0) := by
      rintro (hnil | hzero)
      · exact hne hnil
      · omega
    rw [searchGraph, if_neg hcond, hd] at h
    dsimp only at h
    rw [List.take_of_length_le hlen] at h
    exact (Except.ok.inj h).symm
  rw [hcandidates, List.mem_map]
  constructor
  · rintro ⟨c, hc, rfl⟩
    obtain ⟨_, hvis, hreach⟩ := (hmem c).mp hc
    exact ⟨hvis, entry, hd, hreach⟩
  · rintro ⟨hvis, entry', hd', hreach⟩
    rw [hd] at hd'
    cases hd'
    exact ⟨⟨dist query (g.vectorOf id), id⟩, (hmem _).mpr ⟨rfl, hvis, hreach⟩, rfl⟩

/-- A layer search of any width returns nodes of the level that links lead to, nearest
first, and stops at a local optimum: a visible neighbour of a returned node is returned
too, unless the result is full of nodes better than it. -/
theorem searchLayer_locallyOptimal {g : HNSWGraph} (hg : AllLinks g) (query : FloatVector)
    (entries : List Nat) {ef : Nat} (hef : 1 ≤ ef) (level : Nat) (visibility : Nat → Bool) :
    (searchLayer dist g query entries ef level visibility).length ≤ ef ∧
    ((searchLayer dist g query entries ef level visibility).map (·.id)).Nodup ∧
    (searchLayer dist g query entries ef level visibility).Pairwise (· < ·) ∧
    (∀ c ∈ searchLayer dist g query entries ef level visibility,
      c.distance = dist query (g.vectorOf c.id) ∧ visibility c.id = true ∧
        level < g.levelCount c.id ∧
        Reaches (fun id => g.neighborsOf id level)
          (entries.filter fun entry => level < g.levelCount entry) c.id) ∧
    ∀ c ∈ searchLayer dist g query entries ef level visibility,
      ∀ x ∈ g.neighborsOf c.id level, visibility x = true →
        ⟨dist query (g.vectorOf x), x⟩ ∈ searchLayer dist g query entries ef level visibility ∨
        ((searchLayer dist g query entries ef level visibility).length = ef ∧
          ∀ z ∈ searchLayer dist g query entries ef level visibility,
            z < ⟨dist query (g.vectorOf x), x⟩) := by
  obtain ⟨hall, hsorted, hlen, hnodup⟩ := searchLayer_sound dist g query entries ef level visibility
  refine ⟨hlen, hnodup, hsorted, ?_, ?_⟩
  · intro c hc
    obtain ⟨hlevel, hdist, hvis⟩ := hall c hc
    refine ⟨hdist, hvis, hlevel, ?_⟩
    rw [searchLayer, if_neg (by omega)] at hc
    -- every node met is one that the neighbour lists lead to
    refine ((search_sound (fun id => dist query (g.vectorOf id)) visibility ef
      (P := Reaches (fun id => g.neighborsOf id level)
        (entries.filter fun entry => level < g.levelCount entry)) ?_ g.size _ ?_).1 c hc).1
    · intro x hx y hy
      exact hx.step (List.mem_filter.mp hy).1
    · intro x hx
      exact ⟨x, hx, Relation.ReflTransGen.refl⟩
  · intro c hc x hx hvis
    have hlink : x ∈ g.links level c.id :=
      List.mem_filter.mpr ⟨hx, by simpa using (hg c.id level (hall c hc).1).exist x hx⟩
    rw [searchLayer, if_neg (by omega)] at hc ⊢
    have hinside : ∀ y, level < g.levelCount y → y ∈ Finset.range g.size :=
      fun y hy => Finset.mem_range.mpr (lt_size_of_levelCount (Nat.lt_of_le_of_lt (Nat.zero_le _) hy))
    refine search_local hef (S := Finset.range g.size) ?_ _ ?_ (by rw [Finset.card_range]) hc hlink hvis
    · intro y _ z hz
      exact hinside z (by simpa using (List.mem_filter.mp hz).2)
    · intro y hy
      exact hinside y (by simpa using (List.mem_filter.mp hy).2)

def linkedPair : HNSWGraph :=
  ⟨⟨1, 2, 1, .kL2⟩, 0, 0, [⟨0, ascii "a", 0, [], [[1]]⟩, ⟨1, ascii "b", 1, [], [[0]]⟩],
    [1#32, 2#32]⟩

theorem allLinks_linkedPair : AllLinks linkedPair := by
  intro i level h
  match i, level with
  | 0, 0 => exact ⟨by decide, by decide, by decide, by decide⟩
  | 1, 0 => exact ⟨by decide, by decide, by decide, by decide⟩
  | 0, level + 1 => simp [levelCount, linkedPair] at h
  | 1, level + 1 => simp [levelCount, linkedPair] at h
  | i + 2, level => simp [levelCount, linkedPair] at h

theorem searchLayer_locallyOptimal_pair :
    (searchLayer exactL2 linkedPair [2#32] [0] 1 0 fun _ => true).map (·.id) = [1] ∧
    ∀ z ∈ searchLayer exactL2 linkedPair [2#32] [0] 1 0 fun _ => true,
      z < ⟨exactL2 [2#32] (linkedPair.vectorOf 0), 0⟩ := by
  have hids : (searchLayer exactL2 linkedPair [2#32] [0] 1 0 fun _ => true).map (·.id) = [1] := by
    decide +kernel
  refine ⟨hids, ?_⟩
  obtain ⟨c, hc, hid⟩ := List.mem_map.mp (hids ▸ List.mem_singleton_self 1)
  have hlink : 0 ∈ linkedPair.neighborsOf c.id 0 := by
    rw [hid]
    decide
  rcases (searchLayer_locallyOptimal exactL2 allLinks_linkedPair [2#32] [0] (Nat.le_refl 1) 0
    fun _ => true).2.2.2.2 c hc 0 hlink rfl with hin | ⟨_, hbetter⟩
  · have hzero := List.mem_map_of_mem (f := (·.id)) hin
    rw [hids] at hzero
    simp at hzero
  · exact hbetter

end HNSWGraph

namespace HNSWIndex

/-! ## Visible versions -/

def Latest (index : HNSWIndex) (key : Bytes) (readSequence sequence : Nat)
    (content : Option NodeRecord) : Prop :=
  index.record key sequence = some content ∧ sequence ≤ readSequence ∧
    ∀ s c, index.record key s = some c → s ≤ readSequence → s ≤ sequence

variable {index : HNSWIndex} {sequence id : Nat}

theorem record_eq_some {key : Bytes} {content : Option NodeRecord} :
    index.record key sequence = some content ↔
      ∃ state, index.versionsByKey.version key sequence = some state ∧
        index.recordOf state = content :=
  Option.map_eq_some_iff

theorem isLastAtMost_version {table : VersionTable} {key : Bytes} {m : VersionMap}
    (hm : table.find key = some m) {readSequence : Nat} {state : VersionState} :
    OrderedMap.IsLastAtMost readSequence m sequence state ↔
      table.version key sequence = some state ∧ sequence ≤ readSequence ∧
        ∀ s v, table.version key s = some v → s ≤ readSequence → s ≤ sequence := by
  have hversion : ∀ s, table.version key s = OrderedMap.find m s := by
    intro s
    rw [version, hm]
    rfl
  simp only [hversion]
  rfl

theorem isVisibleAt_iff (hok : Ok index) {key : Bytes} {readSequence : Nat} :
    index.isVisibleAt id key readSequence = true ↔
      ∃ sequence, index.versionsByKey.version key sequence = some ⟨id, false⟩ ∧
        sequence ≤ readSequence ∧
        ∀ s v, index.versionsByKey.version key s = some v → s ≤ readSequence → s ≤ sequence := by
  unfold isVisibleAt
  constructor
  · intro h
    split at h
    · cases h
    · split at h
      · cases h
      · rename_i m hm
        split at h
        · cases h
        · rename_i sequence state hlast
          have hstate : state.deleted = false ∧ state.nodeId = id := by simpa using h
          have heq : state = ⟨id, false⟩ := by
            obtain ⟨nodeId, deleted⟩ := state
            obtain ⟨rfl, rfl⟩ := hstate
            rfl
          rw [heq] at hlast
          exact ⟨sequence, (isLastAtMost_version hm).mp
            ((OrderedMap.lastAtMost_eq_some (find_versions hok.table hm).1).mp hlast)⟩
  · rintro ⟨sequence, hversion, hrest⟩
    have hsize := (hok.version key sequence id hversion).1
    rw [if_neg (not_le.mpr hsize)]
    cases hm : index.versionsByKey.find key with
    | none =>
      rw [version, hm] at hversion
      cases hversion
    | some m =>
      have hlast := (OrderedMap.lastAtMost_eq_some (find_versions hok.table hm).1).mpr
        ((isLastAtMost_version hm).mpr ⟨hversion, hrest⟩)
      dsimp only
      rw [hlast]
      simp

theorem latest_of_visible (hok : Ok index) {key : Bytes} {readSequence : Nat}
    (h : index.isVisibleAt id key readSequence = true) :
    ∃ sequence, index.Latest key readSequence sequence
      (some ⟨index.graph.vectorOf id, index.graph.metadataOf id⟩) := by
  obtain ⟨sequence, hversion, hle, hlast⟩ := (isVisibleAt_iff hok).mp h
  refine ⟨sequence, record_eq_some.mpr ⟨_, hversion, rfl⟩, hle, ?_⟩
  intro s c hs
  obtain ⟨state, hstate, _⟩ := record_eq_some.mp hs
  exact hlast s state hstate

theorem visible_unique (hok : Ok index) {id' : Nat} {key : Bytes} {readSequence : Nat}
    (h : index.isVisibleAt id key readSequence = true)
    (h' : index.isVisibleAt id' key readSequence = true) : id = id' := by
  obtain ⟨s, hs, hle, hlast⟩ := (isVisibleAt_iff hok).mp h
  obtain ⟨s', hs', hle', hlast'⟩ := (isVisibleAt_iff hok).mp h'
  have heq : s = s' := le_antisymm (hlast' s _ hs hle) (hlast s' _ hs' hle')
  subst heq
  rw [hs] at hs'
  cases hs'
  rfl

/-! ## Results -/

section Distance

variable {D : Type} [LinearOrder D] (dist : FloatVector → FloatVector → D)

instance : Std.Total (resultLe : VectorResult D → VectorResult D → Prop) where
  total a b := by
    unfold resultLe
    rcases lt_trichotomy a.distance b.distance with h | h | h
    · exact Or.inl (Or.inl h)
    · rcases le_total a.key b.key with hk | hk
      · exact Or.inl (Or.inr ⟨h, hk⟩)
      · exact Or.inr (Or.inr ⟨h.symm, hk⟩)
    · exact Or.inr (Or.inl h)

instance : IsTrans (VectorResult D) resultLe where
  trans a b c hab hbc := by
    unfold resultLe at *
    rcases hab with h | ⟨h, hk⟩
    · rcases hbc with h' | ⟨h', _⟩
      · exact Or.inl (h.trans h')
      · exact Or.inl (h' ▸ h)
    · rcases hbc with h' | ⟨h', hk'⟩
      · exact Or.inl (h ▸ h')
      · exact Or.inr ⟨h.trans h', hk.trans hk'⟩

/-- What the results of a search at a sequence number satisfy. -/
structure Sound (index : HNSWIndex) (query : FloatVector) (topK readSequence : Nat)
    (results : List (VectorResult D)) : Prop where
  distinct : (results.map (·.key)).Nodup
  length_le : results.length ≤ topK
  sorted : results.Pairwise resultLe
  latest : ∀ x ∈ results, ∃ sequence vector,
    index.Latest x.key readSequence sequence (some ⟨vector, x.metadata⟩) ∧
      x.distance = dist query vector

theorem sound_nil (index : HNSWIndex) (query : FloatVector) (topK readSequence : Nat) :
    Sound dist index query topK readSequence [] where
  distinct := List.nodup_nil
  length_le := Nat.zero_le _
  sorted := List.Pairwise.nil
  latest := by simp

variable {efSearch topK i : Nat} {query : FloatVector}

theorem searchAtSequenceLocked_sound {index : HNSWIndex} (hok : Ok index) {readSequence : Nat}
    {results : List (VectorResult D)}
    (h : index.searchAtSequenceLocked dist query topK efSearch readSequence = .ok results) :
    Sound dist index query topK readSequence results := by
  unfold searchAtSequenceLocked at h
  split at h
  · cases h
    exact sound_nil dist index query topK readSequence
  · split at h
    · cases h
    · rename_i candidates hsearch
      cases h
      obtain ⟨hall, hlen, hids⟩ := HNSWGraph.searchGraph_sound dist hsearch
      have hperm := List.perm_insertionSort resultLe (candidates.map index.resultOf)
      -- visible candidates of one key are one node, so the keys differ as the ids do
      have hkeys : ((candidates.map index.resultOf).map (·.key)).Nodup := by
        rw [List.map_map]
        refine List.Nodup.map_on ?_ (List.Nodup.of_map _ hids)
        intro c hc c' hc' heq
        have hkey : index.graph.keyOf c.id = index.graph.keyOf c'.id := heq
        have hvis := (hall c hc).2
        rw [hkey] at hvis
        exact List.inj_on_of_nodup_map hids hc hc' (visible_unique hok hvis (hall c' hc').2)
      refine ⟨(hperm.map _).nodup_iff.mpr hkeys, ?_, List.pairwise_insertionSort _ _, ?_⟩
      · rw [hperm.length_eq, List.length_map]
        exact hlen
      · intro x hx
        obtain ⟨c, hc, rfl⟩ := List.mem_map.mp (hperm.mem_iff.mp hx)
        obtain ⟨hdist, hvis⟩ := hall c hc
        obtain ⟨sequence, hlatest⟩ := latest_of_visible hok hvis
        exact ⟨sequence, index.graph.vectorOf c.id, hlatest, hdist⟩

theorem searchAtSequenceLocked_succeeds {index : HNSWIndex} (hok : Ok index) (query : FloatVector)
    (topK efSearch readSequence : Nat) : ∃ results : List (VectorResult D),
      index.searchAtSequenceLocked dist query topK efSearch readSequence = .ok results := by
  unfold searchAtSequenceLocked
  split
  · exact ⟨[], rfl⟩
  · obtain ⟨candidates, hc⟩ := HNSWGraph.searchGraph_ok dist hok.graph query topK efSearch
      fun nodeId => index.isVisibleAt nodeId (index.graph.keyOf nodeId) readSequence
    rw [hc]
    exact ⟨_, rfl⟩

theorem searchAtSequence_eq {options : HNSWGraphOptions} {index : HNSWIndex} (hok : Ok index)
    (hoptions : index.options = options) (hquery : options.validateVector query = .ok) (topK : Nat)
    (hef : 1 ≤ efSearch) (readSequence : Nat) :
    index.searchAtSequence dist query topK efSearch readSequence =
      if topK = 0 then .ok []
      else index.searchAtSequenceLocked dist query topK efSearch readSequence := by
  have ho : options.validateOptions = .ok := hoptions ▸ hok.graph.options
  simp only [searchAtSequence, hoptions, ho, hquery]
  rw [if_neg (by omega)]

/-- Nodes and versions that are not tombstones belong together one to one. -/
def OneToOne (index : HNSWIndex) : Prop :=
  (∀ k s i, index.versionsByKey.version k s = some ⟨i, false⟩ → i < index.graph.size) ∧
  ∀ i, i < index.graph.size →
    ∃! ks : Bytes × Nat, index.versionsByKey.version ks.1 ks.2 = some ⟨i, false⟩

theorem Ok.oneToOne {index : HNSWIndex} (hok : Ok index) : OneToOne index := by
  refine ⟨fun k s i h => (hok.version k s i h).1, ?_⟩
  intro i hi
  obtain ⟨s, hs, huniq⟩ := hok.node i hi
  refine ⟨(index.graph.keyOf i, s), hs, ?_⟩
  rintro ⟨k', s'⟩ h'
  have hkey : index.graph.keyOf i = k' := (hok.version k' s' i h').2
  subst hkey
  rw [huniq s' h']

/-- A search of an index after any calls: it succeeds for every valid query, and its
results are sound. -/
theorem searchAtSequence_calls (options : HNSWGraphOptions) (cs : List Call)
    (hcs : ∀ c ∈ cs, c.Possible) (query : FloatVector) (topK efSearch readSequence : Nat)
    (hquery : options.validateVector query = .ok) (hef : 1 ≤ efSearch) :
    (options.validateOptions = .ok → ∃ results : List (VectorResult D),
      (calls dist (new options) cs).searchAtSequence dist query topK efSearch readSequence =
        .ok results) ∧
    (∀ results : List (VectorResult D),
      (calls dist (new options) cs).searchAtSequence dist query topK efSearch readSequence =
        .ok results →
      Sound dist (calls dist (new options) cs) query topK readSequence results) ∧
    OneToOne (calls dist (new options) cs) := by
  obtain ⟨hoptions, hcases⟩ := calls_new dist options cs hcs
  rcases hcases with ⟨ho, hok⟩ | ⟨ho, hnew⟩
  · generalize calls dist (new options) cs = index at hok hoptions
    have hsearch := searchAtSequence_eq dist hok hoptions hquery topK hef readSequence
    refine ⟨fun _ => ?_, ?_, hok.oneToOne⟩
    · rw [hsearch]
      split
      · exact ⟨[], rfl⟩
      · exact searchAtSequenceLocked_succeeds dist hok query topK efSearch readSequence
    · intro results hresults
      rw [hsearch] at hresults
      split at hresults
      · cases hresults
        exact sound_nil dist index query topK readSequence
      · exact searchAtSequenceLocked_sound dist hok hresults
  · rw [hnew]
    refine ⟨fun h => absurd h ho, ?_, ?_⟩
    · intro results hresults
      have hinvalid : (new options).options.validateOptions ≠ .ok := ho
      unfold searchAtSequence at hresults
      split at hresults
      · rename_i hvalid
        exact absurd hvalid hinvalid
      · cases hresults
    · refine ⟨?_, ?_⟩
      · intro k s i h
        cases h
      · intro i hi
        exact absurd hi (Nat.not_lt_zero i)

omit [LinearOrder D] dist in
/-- A key with two versions, read between them; another is deleted. -/
theorem searchAtSequence_calls_between :
    let index := calls exactL2 (new ⟨1, 2, 1, .kL2⟩) [.insertVersion (ascii "a") 1 [1#32] (ascii "m") 0,
      .insertVersion (ascii "a") 3 [2#32] (ascii "n") 1, .insert (ascii "b") [3#32] [] 0,
      .markDeleted (ascii "b") 2]
    index.searchAtSequence exactL2 [1#32] 5 1 2 = .ok [⟨ascii "a", 0, ascii "m"⟩] ∧
      Sound exactL2 index [1#32] 5 2 [⟨ascii "a", 0, ascii "m"⟩] := by
  intro index
  have hsearch : index.searchAtSequence exactL2 [1#32] 5 1 2 = .ok [⟨ascii "a", 0, ascii "m"⟩] := by
    decide +kernel
  exact ⟨hsearch, (searchAtSequence_calls exactL2 ⟨1, 2, 1, .kL2⟩ _
    (by simp [Call.Possible, kMaximumRandomLevel]) [1#32] 5 1 2 (by decide) (by decide)).2.1 _ hsearch⟩

/-! ## Complete searches -/

structure Insertion where
  key : Bytes
  vector : FloatVector
  metadata : Bytes
  level : Nat
  deriving DecidableEq, Repr

def insertAll (index : HNSWIndex) (insertions : List Insertion) : HNSWIndex :=
  insertions.foldl (fun index a => (index.insert dist a.key a.vector a.metadata a.level).1) index

def Succeed : HNSWIndex → List Insertion → Prop
  | _, [] => True
  | index, a :: insertions =>
    (index.insert dist a.key a.vector a.metadata a.level).2 = .ok ∧
      Succeed (index.insert dist a.key a.vector a.metadata a.level).1 insertions

/-- An index that holds exactly these insertions, node by node. -/
structure Holds (options : HNSWGraphOptions) (inserted : List Insertion) (index : HNSWIndex) :
    Prop where
  ok : Ok index
  options : index.options = options
  size : index.graph.size = inserted.length
  node : ∀ i a, inserted[i]? = some a → index.graph.keyOf i = a.key ∧
    index.versionsByKey.find a.key = some [(0, ⟨i, false⟩)]

theorem holds_new {options : HNSWGraphOptions} (h : options.validateOptions = .ok) :
    Holds options [] (new options) where
  ok := ok_new h
  options := rfl
  size := rfl
  node i a ha := by cases ha

variable {a : Insertion} {inserted : List Insertion}

theorem insert_success {index : HNSWIndex}
    (h : (index.insert dist a.key a.vector a.metadata a.level).2 = .ok) :
    a.key ≠ [] ∧ index.options.validateVector a.vector = .ok ∧
      index.versionsByKey.find a.key = none := by
  unfold insert at h
  split at h
  · rename_i hcheck
    obtain ⟨hk, hv⟩ := checkInsert_ok hcheck
    refine ⟨hk, hv, ?_⟩
    by_contra hfind
    have hsome : (index.versionsByKey.find a.key).isSome = true :=
      Option.isSome_iff_ne_none.mpr hfind
    rw [insertVersionLocked, if_pos (by simp [hsome])] at h
    cases h
  · rename_i hne
    exact absurd h hne

theorem Holds.insert {options : HNSWGraphOptions} {index : HNSWIndex}
    (hh : Holds options inserted index) (hlevel : a.level ≤ kMaximumRandomLevel)
    (h : (index.insert dist a.key a.vector a.metadata a.level).2 = .ok) :
    Holds options (inserted ++ [a]) (index.insert dist a.key a.vector a.metadata a.level).1 := by
  obtain ⟨hk, hv, hfind⟩ := insert_success dist h
  have hkept := insert_kept dist hh.ok a.key a.vector a.metadata hlevel
  have hcheck : index.checkInsert a.key a.vector = .ok := by
    simp only [checkInsert]
    rw [show index.options.validateOptions = .ok from hh.ok.graph.options]
    dsimp only
    rw [if_neg hk, hv]
  have hversion : index.versionsByKey.version a.key 0 = none := by
    rw [version, hfind]
    rfl
  obtain ⟨g, _, hadded, heq⟩ := insertVersionLocked_new dist hh.ok a.metadata hlevel hk hv
    (Or.inr hfind) hversion
  have hresult : index.insert dist a.key a.vector a.metadata a.level =
      (⟨g, index.versionsByKey.emplace a.key 0 ⟨index.graph.size, false⟩⟩, .ok) := by
    rw [HNSWIndex.insert, hcheck]
    exact heq
  refine ⟨hkept.ok, hkept.options.trans hh.options, ?_, ?_⟩
  · rw [hresult, List.length_append, ← hh.size]
    exact hadded.size
  · intro i b hb
    rw [hresult]
    show g.keyOf i = b.key ∧ VersionTable.find (index.versionsByKey.emplace a.key 0
      ⟨index.graph.size, false⟩) b.key = some [(0, ⟨i, false⟩)]
    rw [find_emplace, hfind]
    rcases Nat.lt_or_ge i inserted.length with hlt | hge
    · rw [List.getElem?_append_left hlt] at hb
      obtain ⟨hkey, hold⟩ := hh.node i b hb
      have hne : b.key ≠ a.key := by
        intro heq
        rw [heq, hfind] at hold
        cases hold
      rw [if_neg hne]
      exact ⟨((hadded.old i (hh.size ▸ hlt)).2.1).trans hkey, hold⟩
    · rw [List.getElem?_append_right hge] at hb
      obtain ⟨hi, rfl⟩ : i - inserted.length = 0 ∧ a = b := by
        cases hi : i - inserted.length with
        | zero => rw [hi] at hb; exact ⟨rfl, Option.some.inj hb⟩
        | succ j => rw [hi] at hb; cases hb
      have hsize : i = index.graph.size := by
        rw [hh.size]
        omega
      rw [hsize, if_pos rfl]
      exact ⟨hadded.keyOf_new, rfl⟩

theorem holds_insertAll {options : HNSWGraphOptions} {index : HNSWIndex}
    (hh : Holds options inserted index) (insertions : List Insertion)
    (hlevels : ∀ a ∈ insertions, a.level ≤ kMaximumRandomLevel)
    (h : Succeed dist index insertions) :
    Holds options (inserted ++ insertions) (insertAll dist index insertions) := by
  induction insertions generalizing index inserted with
  | nil =>
    rw [List.append_nil]
    exact hh
  | cons a insertions ih =>
    have hstep := hh.insert dist (hlevels a List.mem_cons_self) h.1
    have hrest := ih hstep (fun b hb => hlevels b (List.mem_cons_of_mem _ hb)) h.2
    rw [List.append_assoc] at hrest
    exact hrest

theorem Holds.visible {options : HNSWGraphOptions} {index : HNSWIndex}
    (hh : Holds options inserted index) (ha : inserted[i]? = some a) (readSequence : Nat) :
    index.isVisibleAt i a.key readSequence = true := by
  obtain ⟨_, hfind⟩ := hh.node i a ha
  have hversion : ∀ s, index.versionsByKey.version a.key s =
      if 0 = s then some ⟨i, false⟩ else none := by
    intro s
    rw [version, hfind]
    rfl
  refine (isVisibleAt_iff hh.ok).mpr ⟨0, ?_, Nat.zero_le _, ?_⟩
  · rw [hversion, if_pos rfl]
  · intro s v hs _
    rw [hversion] at hs
    split at hs
    · omega
    · cases hs

theorem Holds.mem_results_iff {options : HNSWGraphOptions} {index : HNSWIndex}
    (hh : Holds options inserted index) (htop : inserted.length ≤ topK) {readSequence : Nat}
    {results : List (VectorResult D)}
    (h : index.searchAtSequenceLocked dist query topK efSearch readSequence = .ok results)
    (ha : inserted[i]? = some a) :
    a.key ∈ results.map (·.key) ↔ index.graph.Findable dist query i := by
  have hpos : 0 < index.graph.size := by
    rw [hh.size]
    exact Nat.lt_of_le_of_lt (Nat.zero_le i) (List.getElem?_eq_some_iff.mp ha).1
  have hkey : index.graph.keyOf i = a.key := (hh.node i a ha).1
  have hvisible := hh.visible ha readSequence
  rw [searchAtSequenceLocked, if_neg (by omega)] at h
  split at h
  · cases h
  · rename_i candidates hsearch
    cases h
    have hmem := HNSWGraph.mem_searchGraph_iff dist hh.ok.graph (List.length_pos_iff.mp hpos) query
      (hh.size ▸ htop) _ hsearch i
    rw [hkey, hvisible, and_iff_right rfl] at hmem
    have hperm := (List.perm_insertionSort resultLe (candidates.map index.resultOf)).map (·.key)
    rw [hperm.mem_iff, List.map_map, ← hmem, List.mem_map, List.mem_map]
    constructor
    · rintro ⟨c, hc, hck⟩
      have hvis := (HNSWGraph.searchGraph_sound dist hsearch).1 c hc |>.2
      have hck' : index.graph.keyOf c.id = a.key := hck
      rw [hck'] at hvis
      exact ⟨c, hc, visible_unique hh.ok hvis hvisible⟩
    · rintro ⟨c, hc, hci⟩
      exact ⟨c, hc, (congrArg index.graph.keyOf hci).trans hkey⟩

/-- A search as wide as the index returns every key exactly when links lead to every
node. -/
theorem search_returns_all_iff {options : HNSWGraphOptions} (ho : options.validateOptions = .ok)
    (insertions : List Insertion) (hlevels : ∀ a ∈ insertions, a.level ≤ kMaximumRandomLevel)
    (hsucceed : Succeed dist (new options) insertions) (query : FloatVector)
    (hquery : options.validateVector query = .ok) (topK efSearch : Nat)
    (htop : insertions.length ≤ topK) (hef : insertions.length ≤ efSearch) :
    (∃ results, (insertAll dist (new options) insertions).search dist query topK efSearch =
        .ok results ∧ ∀ a ∈ insertions, a.key ∈ results.map (·.key)) ↔
      1 ≤ efSearch ∧ ∀ id, id < insertions.length →
        (insertAll dist (new options) insertions).graph.Findable dist query id := by
  have hh : Holds options insertions (insertAll dist (new options) insertions) :=
    holds_insertAll dist (holds_new ho) insertions hlevels hsucceed
  generalize insertAll dist (new options) insertions = index at hh
  by_cases hpos : 1 ≤ efSearch
  · rw [search, searchAtSequence_eq dist hh.ok hh.options hquery topK hpos]
    by_cases hzero : topK = 0
    · -- nothing was inserted
      have hnil : insertions = [] := List.eq_nil_of_length_eq_zero (by omega)
      subst hnil
      rw [if_pos hzero]
      exact ⟨fun _ => ⟨hpos, by simp⟩, fun _ => ⟨[], rfl, by simp⟩⟩
    · rw [if_neg hzero]
      constructor
      · rintro ⟨results, hresults, hall⟩
        refine ⟨hpos, ?_⟩
        intro id hid
        have ha : insertions[id]? = some insertions[id] := List.getElem?_eq_getElem hid
        exact (hh.mem_results_iff dist htop hresults ha).mp (hall _ (List.getElem_mem hid))
      · rintro ⟨_, hfind⟩
        obtain ⟨results, hresults⟩ : ∃ results : List (VectorResult D),
            index.searchAtSequenceLocked dist query topK efSearch maxUInt64 = .ok results :=
          searchAtSequenceLocked_succeeds dist hh.ok query topK efSearch maxUInt64
        refine ⟨results, hresults, ?_⟩
        intro a ha
        obtain ⟨i, hi⟩ := List.mem_iff_getElem?.mp ha
        exact (hh.mem_results_iff dist htop hresults hi).mpr
          (hfind i (List.getElem?_eq_some_iff.mp hi).1)
  · have hbeam : efSearch = 0 := by omega
    constructor
    · rintro ⟨results, hresults, _⟩
      have hoptions : index.options.validateOptions = .ok := hh.ok.graph.options
      have hvector : index.options.validateVector query = .ok := by
        rw [hh.options]
        exact hquery
      simp [search, searchAtSequence, hoptions, hvector, hbeam] at hresults
    · rintro ⟨h, _⟩
      exact absurd h hpos

end Distance

theorem search_returns_all_three :
    ∃ results, (insertAll exactL2 (new ⟨1, 2, 200, .kL2⟩)
        [⟨ascii "a", [1#32], [], 0⟩, ⟨ascii "b", [2#32], [], 1⟩, ⟨ascii "c", [3#32], [], 0⟩]).search
          exactL2 [2#32] 3 3 = .ok results ∧
      ∀ a ∈ [(⟨ascii "a", [1#32], [], 0⟩ : Insertion), ⟨ascii "b", [2#32], [], 1⟩,
        ⟨ascii "c", [3#32], [], 0⟩], a.key ∈ results.map (·.key) := by
  refine (search_returns_all_iff exactL2 (by decide) _ (by decide) ?_ [2#32] (by decide) 3 3
    (by decide) (by decide)).mpr ⟨by decide, ?_⟩
  · exact ⟨by decide +kernel, by decide +kernel, by decide +kernel, trivial⟩
  · -- the second node is the entry, and linked with both others
    intro id hid
    refine ⟨1, by decide +kernel, 1, List.mem_cons_self, ?_⟩
    have hid' : id < 3 := hid
    match id with
    | 0 => exact Relation.ReflTransGen.single (by decide +kernel)
    | 1 => exact Relation.ReflTransGen.refl
    | 2 => exact Relation.ReflTransGen.single (by decide +kernel)

def sixEqual : List Insertion :=
  [ascii "a", ascii "b", ascii "c", ascii "d", ascii "e", ascii "f"].map fun key =>
    ⟨key, [0x3f800000#32], [], 0⟩

/-- Each is linked with the first two; these keep links to the four nodes of smallest id,
and no link leads to the last. -/
theorem search_misses_sixth :
    Succeed exactL2 (new ⟨1, 2, 200, .kL2⟩) sixEqual ∧
    (insertAll exactL2 (new ⟨1, 2, 200, .kL2⟩) sixEqual).search exactL2 [0x3f800000#32] 6 6 =
      .ok [⟨ascii "a", 0, []⟩, ⟨ascii "b", 0, []⟩, ⟨ascii "c", 0, []⟩, ⟨ascii "d", 0, []⟩,
        ⟨ascii "e", 0, []⟩] :=
  ⟨⟨by decide +kernel, by decide +kernel, by decide +kernel, by decide +kernel,
    by decide +kernel, by decide +kernel, trivial⟩, by decide +kernel⟩

end HNSWIndex

end KvMem
