import KvMem.Storage.Manifest
import KvMem.Storage.MergingIterator

/-! # Compaction

A compaction takes all tables of level 0 with the level-1 tables that overlap
their hull, or, when level 0 is empty, all of level 1 with the overlapping part
of level 2. The inputs are merged key by key, and of every key only the versions
a reader can still ask for are kept.
-/

namespace KvMem.Compaction

open Versions

/-! ## Choice of inputs -/

def rangesOverlap (lhs rhs : SSTableMeta) : Bool :=
  if lhs.smallestKey = [] ∨ lhs.largestKey = [] ∨ rhs.smallestKey = [] ∨ rhs.largestKey = [] then
    true
  else lhs.smallestKey ≤ rhs.largestKey ∧ rhs.smallestKey ≤ lhs.largestKey

/-- `add_overlapping`: tables already selected are not taken twice. -/
def addOverlapping (metas : List SSTableMeta) (level : Nat) (range : SSTableMeta)
    (inputs : List SSTableMeta) : List SSTableMeta :=
  metas.foldl (fun inputs m =>
    if m.level = level ∧ rangesOverlap m range = true ∧
        Manifest.hasNumber inputs m.fileNumber = false then
      inputs ++ [m]
    else inputs) inputs

def extendRange (range m : SSTableMeta) : SSTableMeta :=
  { range with
    smallestKey :=
      if range.smallestKey = [] ∨ (m.smallestKey ≠ [] ∧ m.smallestKey < range.smallestKey) then
        m.smallestKey
      else range.smallestKey
    largestKey :=
      if range.largestKey = [] ∨ (m.largestKey ≠ [] ∧ range.largestKey < m.largestKey) then
        m.largestKey
      else range.largestKey }

def combinedRange (first : SSTableMeta) (inputs : List SSTableMeta) : SSTableMeta :=
  inputs.foldl extendRange first

def ofLevel (metas : List SSTableMeta) (level : Nat) : List SSTableMeta :=
  metas.filter fun m => m.level = level

/-- The tables of one level with the overlapping part of the next. -/
def selectLevel (metas : List SSTableMeta) (level : Nat) : List SSTableMeta :=
  match ofLevel metas level with
  | [] => []
  | first :: rest =>
    addOverlapping metas (level + 1) (combinedRange first (first :: rest)) (first :: rest)

def selectInputs (metas : List SSTableMeta) : List SSTableMeta × Nat :=
  if ofLevel metas 0 ≠ [] then (selectLevel metas 0, 1) else (selectLevel metas 1, 2)

/-! ## Merge and retention -/

section Merge

variable (read : TableFile.Reader)

/-- The versions of `key` a source steps over. -/
def passed (key : Bytes) : Nat → InternalIterator → List VersionedEntry
  | 0, _ => []
  | fuel + 1, c =>
    match c.current? with
    | none => []
    | some e => if e.key = key then e :: passed key fuel (c.next read) else []

def gatherKey (key : Bytes) : Nat → MergingIterator → List VersionedEntry × MergingIterator
  | 0, m => ([], m)
  | fuel + 1, m =>
    match MergingIterator.heapTop m.children m.heap, m.status with
    | some i, .ok =>
      if (MergingIterator.entryAt m.children i).key = key then
        let versions :=
          match m.children[i]? with
          | none => []
          | some c => passed read key (c.capacity + 1) c
        let rest := gatherKey key fuel
          (MergingIterator.advanceChildPastKey read { m with heap := m.heap.erase i } i key)
        (versions ++ rest.1, rest.2)
      else ([], m)
    | _, _ => ([], m)

def sortVersions (versions : List VersionedEntry) : List VersionedEntry :=
  versions.insertionSort fun a b => b.sequence ≤ a.sequence

/-- Keep everything after the oldest snapshot and the first version at or before it. -/
def retainLoop (minSnapshot : Nat) : Bool → List VersionedEntry → List VersionedEntry
  | _, [] => []
  | keptBoundary, v :: vs =>
    if v.sequence > minSnapshot then v :: retainLoop minSnapshot keptBoundary vs
    else if keptBoundary then retainLoop minSnapshot keptBoundary vs
    else v :: retainLoop minSnapshot true vs

/-- What is kept of one key; `minSnapshot = 0` stands for no snapshot. -/
def retain (minSnapshot targetLevel : Nat) (versions : List VersionedEntry) :
    List VersionedEntry :=
  if minSnapshot = 0 then
    versions.head?.toList.filter fun v => !v.deleted || decide (targetLevel < 2)
  else retainLoop minSnapshot false versions

def mergeLoop (minSnapshot targetLevel : Nat) :
    Nat → MergingIterator → Except Status (List VersionedEntry)
  | 0, _ => .ok []
  | fuel + 1, m =>
    match MergingIterator.heapTop m.children m.heap with
    | none => .ok []
    | some i =>
      let key := (MergingIterator.entryAt m.children i).key
      let (versions, m) := gatherKey read key (m.children.length + 1) m
      if m.status ≠ .ok then .error m.status
      else
        match mergeLoop minSnapshot targetLevel fuel m with
        | .error e => .error e
        | .ok output => .ok (retain minSnapshot targetLevel (sortVersions versions) ++ output)

def openInputs : List TableFile → Except Status (List InternalIterator)
  | [] => .ok []
  | t :: ts =>
    let iter := (InternalIterator.sstable (SSTableIterator.new t maxUInt64)).seekToFirst read
    if iter.status ≠ .ok then .error iter.status
    else
      match openInputs ts with
      | .error e => .error e
      | .ok iters => .ok (if iter.valid then iter :: iters else iters)

/-- Key ascending, sequence descending, as the last sort of the merge compares. -/
def SortLe (a b : VersionedEntry) : Prop :=
  a.key < b.key ∨ (a.key = b.key ∧ b.sequence ≤ a.sequence)

instance : DecidableRel SortLe := fun a b => by
  unfold SortLe
  infer_instance

def mergeTables (tables : List TableFile) (minSnapshot targetLevel : Nat) :
    Except Status (List VersionedEntry) :=
  match openInputs read tables with
  | .error e => .error e
  | .ok inputs =>
    let heap : MergingIterator := { children := inputs, heap := List.range inputs.length }
    match mergeLoop read minSnapshot targetLevel
        ((inputs.map InternalIterator.capacity).sum + 1) heap with
    | .error e => .error e
    | .ok output => .ok (output.insertionSort SortLe)

end Merge

/-! ## What the choice of inputs guarantees -/

/-- A table without entries is described by an empty range. -/
def Blank (m : SSTableMeta) : Prop := m.smallestKey = [] ∧ m.largestKey = []

/-- Ranges of one level that do not meet. -/
def Apart (a b : SSTableMeta) : Prop := a.largestKey < b.smallestKey ∨ b.largestKey < a.smallestKey

def Ranged (m : SSTableMeta) : Prop :=
  Blank m ∨ (m.smallestKey ≠ [] ∧ m.largestKey ≠ [] ∧ m.smallestKey ≤ m.largestKey)

structure LevelsOk (metas : List SSTableMeta) : Prop where
  level_le : ∀ m ∈ metas, m.level ≤ 2
  ranged : ∀ m ∈ metas, Ranged m
  apart : ∀ a ∈ metas, ∀ b ∈ metas, a.level = b.level → a.level ≠ 0 →
    a.fileNumber ≠ b.fileNumber → ¬ Blank a → ¬ Blank b → Apart a b

variable {level minSnapshot targetLevel : Nat} {metas : List SSTableMeta} {m b : SSTableMeta}
  {I : Set VersionedEntry} {vs es : List VersionedEntry}

theorem mem_addOverlapping {range : SSTableMeta} {inputs : List SSTableMeta}
    (hord : Manifest.Ordered metas) (hin : ∀ m ∈ inputs, m ∈ metas) (m : SSTableMeta) :
    m ∈ addOverlapping metas level range inputs ↔
      m ∈ inputs ∨ (m ∈ metas ∧ m.level = level ∧ rangesOverlap m range = true) := by
  -- the fold runs over a suffix of `metas` while all selected tables come from `metas`
  have key : ∀ (suffix inputs : List SSTableMeta), (∀ x ∈ suffix, x ∈ metas) →
      (∀ x ∈ inputs, x ∈ metas) →
      (m ∈ addOverlapping suffix level range inputs ↔
        m ∈ inputs ∨ (m ∈ suffix ∧ m.level = level ∧ rangesOverlap m range = true)) := by
    intro suffix
    induction suffix with
    | nil =>
      intro inputs _ _
      simp [addOverlapping]
    | cons x xs ih =>
      intro inputs hsuf hinp
      have hx : x ∈ metas := hsuf x List.mem_cons_self
      have hxs : ∀ y ∈ xs, y ∈ metas := fun y hy => hsuf y (List.mem_cons_of_mem x hy)
      rw [addOverlapping, List.foldl_cons]
      by_cases hc : x.level = level ∧ rangesOverlap x range = true ∧
          Manifest.hasNumber inputs x.fileNumber = false
      · rw [if_pos hc]
        have hinp' : ∀ y ∈ inputs ++ [x], y ∈ metas := by
          intro y hy
          rcases List.mem_append.mp hy with hy | hy
          · exact hinp y hy
          · rw [List.mem_singleton.mp hy]
            exact hx
        have hstep := ih (inputs ++ [x]) hxs hinp'
        rw [addOverlapping] at hstep
        rw [hstep, List.mem_append, List.mem_singleton, List.mem_cons]
        constructor
        · rintro ((h | rfl) | h)
          · exact Or.inl h
          · exact Or.inr ⟨Or.inl rfl, hc.1, hc.2.1⟩
          · exact Or.inr ⟨Or.inr h.1, h.2⟩
        · rintro (h | ⟨rfl | h, h'⟩)
          · exact Or.inl (Or.inl h)
          · exact Or.inl (Or.inr rfl)
          · exact Or.inr ⟨h, h'⟩
      · rw [if_neg hc]
        have hstep := ih inputs hxs hinp
        rw [addOverlapping] at hstep
        rw [hstep, List.mem_cons]
        constructor
        · rintro (h | h)
          · exact Or.inl h
          · exact Or.inr ⟨Or.inr h.1, h.2⟩
        · rintro (h | ⟨rfl | h, h'⟩)
          · exact Or.inl h
          · -- skipped although it overlaps: its number is selected, so it is selected itself
            left
            have hnum : Manifest.hasNumber inputs m.fileNumber = true := by
              by_contra hno
              exact hc ⟨h'.1, h'.2, by simpa using hno⟩
            obtain ⟨y, hy, he⟩ := Manifest.hasNumber_iff.mp hnum
            exact Manifest.eq_of_number hord (hinp y hy) hx he ▸ hy
          · exact Or.inr ⟨h, h'⟩
  exact key metas inputs (fun _ h => h) hin

/-- `range` covers the tables of `ms`, and is blank only if all of them are. -/
structure Covers (range : SSTableMeta) (ms : List SSTableMeta) : Prop where
  ranged : Ranged range
  blank : Blank range → ∀ m ∈ ms, Blank m
  within : ∀ m ∈ ms, ¬ Blank m →
    range.smallestKey ≤ m.smallestKey ∧ m.largestKey ≤ range.largestKey

theorem extendRange_covers {range : SSTableMeta} {ms : List SSTableMeta} (h : Covers range ms)
    (hm : Ranged m) : Covers (extendRange range m) (ms ++ [m]) := by
  rcases hm with hb | ⟨hms, hml, hmle⟩
  · -- a blank table leaves the range as it is
    have hsame : extendRange range m = range := by
      obtain ⟨h1, h2⟩ := hb
      have e1 : (if range.smallestKey = [] ∨ (m.smallestKey ≠ [] ∧ m.smallestKey < range.smallestKey)
          then m.smallestKey else range.smallestKey) = range.smallestKey := by
        by_cases hr : range.smallestKey = []
        · simp [hr, h1]
        · simp [hr, h1]
      have e2 : (if range.largestKey = [] ∨ (m.largestKey ≠ [] ∧ range.largestKey < m.largestKey)
          then m.largestKey else range.largestKey) = range.largestKey := by
        by_cases hr : range.largestKey = []
        · simp [hr, h2]
        · simp [hr, h2]
      rw [extendRange, e1, e2]
    rw [hsame]
    refine ⟨h.ranged, fun hr x hx => ?_, fun x hx hx' => ?_⟩
    · rcases List.mem_append.mp hx with hx | hx
      · exact h.blank hr x hx
      · rw [List.mem_singleton.mp hx]
        exact hb
    · rcases List.mem_append.mp hx with hx | hx
      · exact h.within x hx hx'
      · rw [List.mem_singleton.mp hx] at hx'
        exact absurd hb hx'
  · rcases h.ranged with hr | ⟨hrs, hrl, hrle⟩
    · have hext : (extendRange range m).smallestKey = m.smallestKey ∧
          (extendRange range m).largestKey = m.largestKey := by
        simp [extendRange, hr.1, hr.2]
      refine ⟨Or.inr ⟨by rw [hext.1]; exact hms, by rw [hext.2]; exact hml,
        by rw [hext.1, hext.2]; exact hmle⟩, fun hb => ?_, fun x hx hx' => ?_⟩
      · rw [Blank, hext.1] at hb
        exact absurd hb.1 hms
      · rcases List.mem_append.mp hx with hx | hx
        · exact absurd (h.blank hr x hx) hx'
        · rw [List.mem_singleton.mp hx, hext.1, hext.2]
          exact ⟨le_refl _, le_refl _⟩
    · have hsm : (extendRange range m).smallestKey = min m.smallestKey range.smallestKey := by
        simp only [extendRange, hrs, false_or, hms, ne_eq, not_false_eq_true, true_and]
        split
        · rename_i hlt
          exact (min_eq_left (le_of_lt hlt)).symm
        · rename_i hge
          exact (min_eq_right (not_lt.mp hge)).symm
      have hla : (extendRange range m).largestKey = max m.largestKey range.largestKey := by
        simp only [extendRange, hrl, false_or, hml, ne_eq, not_false_eq_true, true_and]
        split
        · rename_i hlt
          exact (max_eq_left (le_of_lt hlt)).symm
        · rename_i hge
          exact (max_eq_right (not_lt.mp hge)).symm
      have hs_ne : (extendRange range m).smallestKey ≠ [] := by
        rw [hsm]
        rcases min_choice m.smallestKey range.smallestKey with e | e <;> rw [e] <;> assumption
      have hl_ne : (extendRange range m).largestKey ≠ [] := by
        rw [hla]
        rcases max_choice m.largestKey range.largestKey with e | e <;> rw [e] <;> assumption
      refine ⟨Or.inr ⟨hs_ne, hl_ne, ?_⟩, fun hb => absurd hb.1 hs_ne, fun x hx hx' => ?_⟩
      · rw [hsm, hla]
        exact (min_le_left _ _).trans (hmle.trans (le_max_left _ _))
      · rw [hsm, hla]
        rcases List.mem_append.mp hx with hx | hx
        · obtain ⟨h1, h2⟩ := h.within x hx hx'
          exact ⟨(min_le_right _ _).trans h1, h2.trans (le_max_right _ _)⟩
        · rw [List.mem_singleton.mp hx]
          exact ⟨min_le_left _ _, le_max_left _ _⟩

theorem combinedRange_covers {first : SSTableMeta} (ms : List SSTableMeta) (hf : Ranged first)
    (hms : ∀ m ∈ ms, Ranged m) : Covers (combinedRange first ms) ms := by
  have key : ∀ (suffix done : List SSTableMeta) (range : SSTableMeta), Covers range done →
      (∀ m ∈ suffix, Ranged m) → Covers (suffix.foldl extendRange range) (done ++ suffix) := by
    intro suffix
    induction suffix with
    | nil =>
      intro done range h _
      simpa using h
    | cons m ms ih =>
      intro done range h hr
      have hstep := ih (done ++ [m]) (extendRange range m)
        (extendRange_covers h (hr m List.mem_cons_self))
        fun x hx => hr x (List.mem_cons_of_mem m hx)
      simpa using hstep
  have hstart : Covers first [first] := by
    refine ⟨hf, fun hb m hm => ?_, fun m hm _ => ?_⟩
    · rw [List.mem_singleton.mp hm]
      exact hb
    · rw [List.mem_singleton.mp hm]
      exact ⟨le_refl _, le_refl _⟩
  have h := key ms [first] first hstart hms
  exact ⟨h.ranged, fun hb m hm => h.blank hb m (by simp [hm]),
    fun m hm => h.within m (by simp [hm])⟩

/-- What is selected: all of one level, and of the next level a part that keeps
every other table strictly on one side of it. -/
structure Selection (metas inputs : List SSTableMeta) (target : Nat) : Prop where
  target_eq : target = 1 ∨ target = 2
  subset : ∀ m ∈ inputs, m ∈ metas
  below : ∀ m ∈ metas, m.level < target → m ∈ inputs
  levels : ∀ m ∈ inputs, m.level + 1 = target ∨ m.level = target
  outside : ∀ b ∈ metas, b.level = target → b ∉ inputs → ¬ Blank b →
    (∀ m ∈ inputs, ¬ Blank m → b.largestKey < m.smallestKey) ∨
    (∀ m ∈ inputs, ¬ Blank m → m.largestKey < b.smallestKey)

theorem not_overlap {range : SSTableMeta} (h : rangesOverlap b range = false) :
    range.smallestKey ≠ [] ∧ range.largestKey ≠ [] ∧
      (b.largestKey < range.smallestKey ∨ range.largestKey < b.smallestKey) := by
  unfold rangesOverlap at h
  split at h
  · cases h
  · rename_i hne
    simp only [not_or] at hne
    refine ⟨hne.2.2.1, hne.2.2.2, ?_⟩
    by_contra hc
    simp only [not_or, not_lt] at hc
    simp [hc.1, hc.2] at h

theorem selectLevel_outside (hord : Manifest.Ordered metas) (hl : LevelsOk metas) (level : Nat)
    (hb : b ∈ metas) (hbl : b.level = level + 1) (hnot : b ∉ selectLevel metas level)
    (hnb : ¬ Blank b) (hne : ofLevel metas level ≠ []) :
    (∀ m ∈ selectLevel metas level, ¬ Blank m → b.largestKey < m.smallestKey) ∨
    (∀ m ∈ selectLevel metas level, ¬ Blank m → m.largestKey < b.smallestKey) := by
  obtain ⟨first, rest, hbase⟩ := List.exists_cons_of_ne_nil hne
  have hbase_mem : ∀ m ∈ first :: rest, m ∈ metas ∧ m.level = level := by
    intro m hm
    rw [← hbase, ofLevel, List.mem_filter] at hm
    exact ⟨hm.1, by simpa using hm.2⟩
  have hranged : ∀ m ∈ first :: rest, Ranged m := fun m hm => hl.ranged m (hbase_mem m hm).1
  have hcov := combinedRange_covers (first :: rest) (hranged first List.mem_cons_self) hranged
  have hsel : selectLevel metas level =
      addOverlapping metas (level + 1) (combinedRange first (first :: rest)) (first :: rest) := by
    rw [selectLevel, hbase]
  generalize combinedRange first (first :: rest) = range at hcov hsel
  have hmem : ∀ m, m ∈ selectLevel metas level ↔
      m ∈ first :: rest ∨ (m ∈ metas ∧ m.level = level + 1 ∧ rangesOverlap m range = true) := by
    intro m
    rw [hsel]
    exact mem_addOverlapping hord (fun x hx => (hbase_mem x hx).1) m
  have hno : rangesOverlap b range = false := by
    by_contra ho
    exact hnot ((hmem b).mpr (Or.inr ⟨hb, hbl, by simpa using ho⟩))
  obtain ⟨hrs, hrl, hside⟩ := not_overlap hno
  -- a selected table of the target level meets the range and does not meet `b`
  have hover : ∀ m ∈ metas, m.level = level + 1 → rangesOverlap m range = true → ¬ Blank m →
      Apart b m ∧ m.smallestKey ≤ range.largestKey ∧ range.smallestKey ≤ m.largestKey := by
    intro m hm hml ho hmb
    have hnum : b.fileNumber ≠ m.fileNumber := by
      intro he
      have := Manifest.eq_of_number hord hb hm he
      subst this
      rw [hno] at ho
      cases ho
    refine ⟨hl.apart b hb m hm (by omega) (by omega) hnum hnb hmb, ?_⟩
    rcases hl.ranged m hm with hbl' | ⟨hms, hml', _⟩
    · exact absurd hbl' hmb
    · simp only [rangesOverlap, hms, hml', hrs, hrl, or_self, if_false] at ho
      simpa using ho
  rcases hl.ranged b hb with hbb | ⟨_, _, hble⟩
  · exact absurd hbb hnb
  rcases hside with hside | hside
  · left
    intro m hm hmb
    rcases (hmem m).mp hm with hm | ⟨hmm, hml, ho⟩
    · exact hside.trans_le (hcov.within m hm hmb).1
    · obtain ⟨hap, _, hmr⟩ := hover m hmm hml ho hmb
      rcases hap with hap | hap
      · exact hap
      · -- `m` would end before `b` starts, but it reaches the range behind `b`
        exact absurd (hap.trans_le (hble.trans (le_of_lt (hside.trans_le hmr)))) (lt_irrefl _)
  · right
    intro m hm hmb
    rcases (hmem m).mp hm with hm | ⟨hmm, hml, ho⟩
    · exact (hcov.within m hm hmb).2.trans_lt hside
    · obtain ⟨hap, hmr, _⟩ := hover m hmm hml ho hmb
      rcases hap with hap | hap
      · exact absurd (hap.trans_le (hmr.trans (le_of_lt (hside.trans_le hble)))) (lt_irrefl _)
      · exact hap

theorem selectLevel_mem (hord : Manifest.Ordered metas) (level : Nat)
    (hm : m ∈ selectLevel metas level) : m ∈ metas ∧ (m.level = level ∨ m.level = level + 1) := by
  unfold selectLevel at hm
  split at hm
  · cases hm
  · rename_i first rest hbase
    have hbase_mem : ∀ x ∈ first :: rest, x ∈ metas ∧ x.level = level := by
      intro x hx
      rw [← hbase, ofLevel, List.mem_filter] at hx
      exact ⟨hx.1, by simpa using hx.2⟩
    rcases (mem_addOverlapping hord (fun x hx => (hbase_mem x hx).1) m).mp hm with h | h
    · exact ⟨(hbase_mem m h).1, Or.inl (hbase_mem m h).2⟩
    · exact ⟨h.1, Or.inr h.2.1⟩

theorem selectLevel_base (hord : Manifest.Ordered metas) (hm : m ∈ metas) (hl : m.level = level) :
    m ∈ selectLevel metas level := by
  have hmem : m ∈ ofLevel metas level := List.mem_filter.mpr ⟨hm, by simpa using hl⟩
  unfold selectLevel
  split
  · rename_i hnil
    rw [hnil] at hmem
    cases hmem
  · rename_i first rest hbase
    rw [hbase] at hmem
    have hsub : ∀ x ∈ first :: rest, x ∈ metas := by
      intro x hx
      rw [← hbase] at hx
      exact List.mem_of_mem_filter hx
    exact (mem_addOverlapping hord hsub m).mpr (Or.inl hmem)

theorem selectInputs_spec (hord : Manifest.Ordered metas) (hl : LevelsOk metas)
    (hne : (selectInputs metas).1 ≠ []) :
    Selection metas (selectInputs metas).1 (selectInputs metas).2 := by
  unfold selectInputs at hne ⊢
  by_cases h0 : ofLevel metas 0 ≠ []
  · rw [if_pos h0] at hne ⊢
    refine ⟨Or.inl rfl, fun m hm => (selectLevel_mem hord 0 hm).1, fun m hm hlt => ?_,
      fun m hm => ?_, fun b hb hbl hnot hnb => ?_⟩
    · exact selectLevel_base hord hm (Nat.lt_one_iff.mp hlt)
    · rcases (selectLevel_mem hord 0 hm).2 with h | h
      · exact Or.inl (by rw [h])
      · exact Or.inr h
    · exact selectLevel_outside hord hl 0 hb hbl hnot hnb h0
  · rw [if_neg h0] at hne ⊢
    have h1 : ofLevel metas 1 ≠ [] := by
      intro hnil
      apply hne
      simp only [selectLevel, hnil]
    have hempty : ∀ m ∈ metas, m.level ≠ 0 := by
      intro m hm hz
      apply h0
      exact List.ne_nil_of_mem (List.mem_filter.mpr ⟨hm, by simpa using hz⟩)
    refine ⟨Or.inr rfl, fun m hm => (selectLevel_mem hord 1 hm).1, fun m hm hlt => ?_,
      fun m hm => ?_, fun b hb hbl hnot hnb => ?_⟩
    · have hz := hempty m hm
      exact selectLevel_base hord hm (by change m.level < 2 at hlt; omega)
    · rcases (selectLevel_mem hord 1 hm).2 with h | h
      · exact Or.inl (by rw [h])
      · exact Or.inr h
    · exact selectLevel_outside hord hl 1 hb hbl hnot hnb h1

/-! ## What the merge keeps -/

def Kept (I : Set VersionedEntry) (minSnapshot targetLevel : Nat) (e : VersionedEntry) : Prop :=
  if minSnapshot = 0 then
    (∀ y ∈ I, y.key = e.key → y.sequence ≤ e.sequence) ∧ (e.deleted = false ∨ targetLevel < 2)
  else
    minSnapshot < e.sequence ∨
      ∀ y ∈ I, y.key = e.key → y.sequence ≤ minSnapshot → y.sequence ≤ e.sequence

theorem kept_congr {J : Set VersionedEntry} {e : VersionedEntry}
    (h : ∀ y, y.key = e.key → (y ∈ I ↔ y ∈ J)) :
    Kept I minSnapshot targetLevel e ↔ Kept J minSnapshot targetLevel e := by
  have hall : ∀ P : VersionedEntry → Prop,
      (∀ y ∈ I, y.key = e.key → P y) ↔ ∀ y ∈ J, y.key = e.key → P y := by
    intro P
    constructor
    · exact fun hI y hy hk => hI y ((h y hk).mpr hy) hk
    · exact fun hJ y hy hk => hJ y ((h y hk).mp hy) hk
  unfold Kept
  split
  · rw [hall fun y => y.sequence ≤ e.sequence]
  · rw [hall fun y => y.sequence ≤ minSnapshot → y.sequence ≤ e.sequence]

theorem retainLoop_eq (hs : vs.Pairwise fun a b => b.sequence ≤ a.sequence) (kept : Bool) :
    retainLoop minSnapshot kept vs =
      (vs.filter fun v => minSnapshot < v.sequence) ++
        if kept then [] else (vs.find? fun v => v.sequence ≤ minSnapshot).toList := by
  induction vs generalizing kept with
  | nil => cases kept <;> rfl
  | cons v vs ih =>
    obtain ⟨hv, hvs⟩ := List.pairwise_cons.mp hs
    by_cases hgt : v.sequence > minSnapshot
    · have hnot : ¬ v.sequence ≤ minSnapshot := by omega
      rw [retainLoop, if_pos hgt, ih hvs, List.filter_cons_of_pos (by simpa using hgt),
        List.find?_cons, decide_eq_false hnot]
      rfl
    · have hle : v.sequence ≤ minSnapshot := by omega
      -- everything behind is at or before the snapshot as well
      have hnone : (vs.filter fun x => decide (minSnapshot < x.sequence)) = [] := by
        rw [List.filter_eq_nil_iff]
        intro x hx
        have := hv x hx
        simp only [decide_eq_true_eq]
        omega
      rw [retainLoop, if_neg hgt, List.filter_cons_of_neg (by simpa using hle), hnone,
        List.find?_cons, decide_eq_true hle]
      cases kept with
      | true =>
        rw [if_pos rfl, ih hvs, hnone]
        rfl
      | false =>
        rw [if_neg (by simp), ih hvs, hnone]
        rfl

theorem retain_sublist (minSnapshot targetLevel : Nat) (vs : List VersionedEntry) :
    (retain minSnapshot targetLevel vs).Sublist vs := by
  unfold retain
  split
  · cases vs with
    | nil => exact List.Sublist.refl _
    | cons v vs =>
      exact List.filter_sublist.trans ((List.nil_sublist vs).cons_cons v)
  · generalize false = kept
    induction vs generalizing kept with
    | nil => exact List.Sublist.refl _
    | cons v vs ih =>
      rw [retainLoop]
      split
      · exact (ih kept).cons_cons v
      · split
        · exact (ih kept).cons v
        · exact (ih true).cons_cons v

theorem mem_retain {key : Bytes} (hs : vs.Pairwise fun a b => b.sequence ≤ a.sequence)
    (hk : ∀ v ∈ vs, v.key = key) (hf : Functional (setOf vs)) (e : VersionedEntry) :
    e ∈ retain minSnapshot targetLevel vs ↔
      e ∈ vs ∧ Kept (setOf vs) minSnapshot targetLevel e := by
  unfold retain Kept
  by_cases h0 : minSnapshot = 0
  · simp only [h0, if_true]
    cases vs with
    | nil => simp
    | cons v vs =>
      obtain ⟨hv, _⟩ := List.pairwise_cons.mp hs
      have hnew : ∀ y ∈ setOf (v :: vs), y.sequence ≤ v.sequence := by
        intro y hy
        rcases List.mem_cons.mp hy with rfl | hy'
        · exact Nat.le_refl _
        · exact hv y hy'
      simp only [List.head?_cons, Option.toList_some, List.mem_filter, List.mem_singleton,
        Bool.or_eq_true, Bool.not_eq_true', decide_eq_true_eq]
      constructor
      · rintro ⟨rfl, h⟩
        exact ⟨List.mem_cons_self, fun y hy _ => hnew y hy, h⟩
      · rintro ⟨hmem, hmax, h⟩
        have hvm : v ∈ setOf (v :: vs) := List.mem_cons_self
        have hkey : v.key = e.key := (hk v hvm).trans (hk e hmem).symm
        have hseq := Nat.le_antisymm (hnew e hmem) (hmax v hvm hkey)
        exact ⟨hf e hmem v hvm hkey.symm hseq, h⟩
  · simp only [h0, if_false]
    rw [retainLoop_eq hs, if_neg (by simp), List.mem_append, List.mem_filter, decide_eq_true_eq,
      Option.mem_toList]
    constructor
    · rintro (⟨hm, hlt⟩ | hfind)
      · exact ⟨hm, Or.inl hlt⟩
      · refine ⟨List.mem_of_find?_eq_some hfind, Or.inr ?_⟩
        intro y hy _ hle
        -- the boundary is the first version at or before the snapshot
        obtain ⟨_, as, bs, rfl, has⟩ := List.find?_eq_some_iff_append.mp hfind
        rcases List.mem_append.mp hy with hy | hy
        · have hno := has y hy
          simp only [Bool.not_eq_true', decide_eq_false_iff_not] at hno
          exact absurd hle hno
        · rcases List.mem_cons.mp hy with rfl | hy
          · exact Nat.le_refl _
          · exact (List.pairwise_cons.mp (List.pairwise_append.mp hs).2.1).1 y hy
    · rintro ⟨hm, hlt | hmax⟩
      · exact Or.inl ⟨hm, hlt⟩
      · by_cases hlt : minSnapshot < e.sequence
        · exact Or.inl ⟨hm, hlt⟩
        · right
          cases hfind : vs.find? (fun v => decide (v.sequence ≤ minSnapshot)) with
          | none =>
            have hno := List.find?_eq_none.mp hfind e hm
            simp only [decide_eq_true_eq] at hno
            omega
          | some v =>
            obtain ⟨hle, as, bs, hsplit, _⟩ := List.find?_eq_some_iff_append.mp hfind
            have hle : v.sequence ≤ minSnapshot := by simpa using hle
            have hvm : v ∈ vs := List.mem_of_find?_eq_some hfind
            have hkey : v.key = e.key := (hk v hvm).trans (hk e hm).symm
            have hve := hmax v hvm hkey hle
            have hev : e.sequence ≤ v.sequence := by
              rw [hsplit] at hm hs
              rcases List.mem_append.mp hm with hm' | hm'
              · have hno : ¬ e.sequence ≤ minSnapshot := by
                  rename_i has
                  simpa using has e hm'
                omega
              · rcases List.mem_cons.mp hm' with rfl | hm''
                · exact Nat.le_refl _
                · exact (List.pairwise_cons.mp (List.pairwise_append.mp hs).2.1).1 e hm''
            rw [hf v hvm e hm hkey (Nat.le_antisymm hve hev)]

/-! ## The merge loop -/

section Loop

variable {m : MergingIterator} {r : Nat} {alls rests : List (List VersionedEntry)}

theorem passed_at {c : InternalIterator} {all rest : List VersionedEntry} (key : Bytes)
    (fuel : Nat) (h : c.At r all rest) (hfuel : rest.length < fuel) :
    passed TableFile.Reader.plain key fuel c = rest.takeWhile fun e => e.key = key := by
  induction fuel generalizing c rest with
  | zero => omega
  | succ fuel ih =>
    rw [passed, h.2.1]
    cases rest with
    | nil => rfl
    | cons e es =>
      simp only [List.head?_cons, List.takeWhile_cons, decide_eq_true_eq]
      split
      · have hnext := InternalIterator.next_at h (by simp)
        rw [ih hnext (by simpa using hfuel)]
        rfl
      · rfl

variable {i : Nat}

theorem flatten_set (hi : i < rests.length) (rest : List VersionedEntry) :
    (rests.set i rest).flatten =
      (rests.take i).flatten ++ (rest ++ (rests.drop (i + 1)).flatten) := by
  rw [List.set_eq_take_append_cons_drop, if_pos hi, List.flatten_append, List.flatten_cons]

theorem filter_key_perm (key : Bytes) (hi : i < rests.length) :
    (rests.flatten.filter fun e => decide (e.key = key)).Perm
      ((rests.getD i []).takeWhile (fun e => decide (e.key = key)) ++
        (rests.set i (MergingIterator.past key (rests.getD i []))).flatten.filter
          fun e => decide (e.key = key)) := by
  have hself : rests.set i (rests.getD i []) = rests := by
    rw [List.getD_eq_getElem?_getD, List.getElem?_eq_getElem hi]
    exact List.set_getElem_self hi
  have htake : ((rests.getD i []).takeWhile fun e => decide (e.key = key)).filter
      (fun e => decide (e.key = key)) = (rests.getD i []).takeWhile fun e => decide (e.key = key) :=
    List.filter_eq_self.mpr fun e he => by simpa using List.mem_takeWhile_imp he
  have hsplit := List.takeWhile_append_dropWhile (p := fun e : VersionedEntry => decide (e.key = key))
    (l := rests.getD i [])
  have hflat : rests.flatten = (rests.take i).flatten ++
      ((rests.getD i []).takeWhile (fun e => decide (e.key = key)) ++
        (MergingIterator.past key (rests.getD i []) ++ (rests.drop (i + 1)).flatten)) := by
    conv_lhs => rw [← hself, flatten_set hi, ← hsplit]
    rw [List.append_assoc]
    rfl
  rw [hflat, flatten_set hi]
  simp only [List.filter_append, htake]
  exact List.perm_append_comm_assoc _ _ _

/-- Gathering a smallest key collects all its versions and leaves the later keys. -/
theorem gatherKey_spec (key : Bytes) (fuel : Nat) (h : m.Standing r alls rests)
    (hmin : ∀ x ∈ rests.flatten, key ≤ x.key)
    (hfuel : (MergingIterator.onKey key rests m.heap).length < fuel) :
    (gatherKey TableFile.Reader.plain key fuel m).2.Standing r alls
        (rests.map (MergingIterator.past key)) ∧
      (gatherKey TableFile.Reader.plain key fuel m).1.Perm
        (rests.flatten.filter fun e => decide (e.key = key)) := by
  induction fuel generalizing m rests with
  | zero => omega
  | succ fuel ih =>
    -- no source stands on the key any more
    have hdone : (∀ i, (rests.getD i []).head?.map (·.key) ≠ some key) →
        m.Standing r alls (rests.map (MergingIterator.past key)) ∧
          ([] : List VersionedEntry).Perm
            (rests.flatten.filter fun e => decide (e.key = key)) := by
      intro hno
      have hnil : (rests.flatten.filter fun e => decide (e.key = key)) = [] := by
        rw [List.filter_eq_nil_iff]
        intro e he hk
        obtain ⟨i, hi⟩ := MergingIterator.exists_getD_of_mem he
        have hmini : ∀ x ∈ rests.getD i [], key ≤ x.key :=
          fun x hx => hmin x (MergingIterator.mem_flatten_of_getD hx).2
        have hpast := MergingIterator.past_eq_filter (h.sorted i) hmini
        rw [MergingIterator.past_of_head (hno i)] at hpast
        rw [hpast, List.mem_filter] at hi
        have hlt : key < e.key := by simpa using hi.2
        rw [of_decide_eq_true hk] at hlt
        exact absurd hlt (lt_irrefl _)
      rw [hnil]
      exact ⟨h.passed hno, List.Perm.nil⟩
    by_cases hheap : m.heap = []
    · simp only [gatherKey, hheap, MergingIterator.heapTop]
      apply hdone
      intro i hi
      have hnil : ¬ i ∈ m.heap := by simp [hheap]
      rw [h.heap i, not_not] at hnil
      rw [hnil] at hi
      cases hi
    · obtain ⟨i, htop, him, hmini⟩ := MergingIterator.heapTop_spec m.children hheap
      obtain ⟨f, fs, hfs, hentry, _, hle⟩ := h.top him hmini
      have hfmem : f ∈ rests.getD i [] := by
        rw [hfs]
        exact List.mem_cons_self
      obtain ⟨hilt, hfflat⟩ := MergingIterator.mem_flatten_of_getD hfmem
      obtain ⟨c, hc⟩ := h.child hilt
      have hat := h.at_ i c hc
      have hpassed := passed_at key (c.capacity + 1) hat (Nat.lt_succ_of_le hat.capacity)
      simp only [gatherKey, htop, h.status, hentry, hc, hpassed]
      by_cases hk : f.key = key
      · rw [if_pos hk]
        have hst := h.advanceChild him key
        rw [h.status] at hst
        have hmap := MergingIterator.map_past_set key hilt
        have hlt := MergingIterator.onKey_lt h him hilt hfs hk hst
        obtain ⟨hst', hperm⟩ := ih hst
          (fun x hx => hmin x (MergingIterator.mem_flatten_set hilt hx)) (by omega)
        rw [hmap] at hst'
        exact ⟨hst', (hperm.append_left _).trans (filter_key_perm key hilt).symm⟩
      · rw [if_neg hk]
        exact hdone (MergingIterator.not_on_key hle hmin hfflat hk)

theorem sortVersions_perm (vs : List VersionedEntry) : (sortVersions vs).Perm vs :=
  List.perm_insertionSort _ vs

theorem sortVersions_sorted (vs : List VersionedEntry) :
    (sortVersions vs).Pairwise fun a b => b.sequence ≤ a.sequence := by
  have htotal : Std.Total fun a b : VersionedEntry => b.sequence ≤ a.sequence :=
    ⟨fun a b => Nat.le_total _ _⟩
  have htrans : IsTrans VersionedEntry fun a b => b.sequence ≤ a.sequence :=
    ⟨fun a b c hab hbc => Nat.le_trans hbc hab⟩
  exact List.pairwise_insertionSort _ vs

theorem sortVersions_congr {key : Bytes} {vs ws : List VersionedEntry} (h : vs.Perm ws)
    (hk : ∀ v ∈ vs, v.key = key) (hf : Functional (setOf vs)) :
    sortVersions vs = sortVersions ws := by
  have hperm : (sortVersions vs).Perm (sortVersions ws) :=
    (sortVersions_perm vs).trans (h.trans (sortVersions_perm ws).symm)
  refine hperm.eq_of_pairwise ?_ (sortVersions_sorted vs) (sortVersions_sorted ws)
  intro a b ha hb hab hba
  have ha' := (sortVersions_perm vs).mem_iff.mp ha
  have hb' := h.mem_iff.mpr ((sortVersions_perm ws).mem_iff.mp hb)
  exact hf a ha' b hb' ((hk a ha').trans (hk b hb').symm) (Nat.le_antisymm hba hab)

def keptOf (minSnapshot targetLevel : Nat) (es : List VersionedEntry) (key : Bytes) :
    List VersionedEntry :=
  retain minSnapshot targetLevel (sortVersions (es.filter fun e => e.key = key))

theorem key_of_mem_keptOf {minSnapshot targetLevel : Nat} {es : List VersionedEntry} {key : Bytes}
    {e : VersionedEntry} (he : e ∈ keptOf minSnapshot targetLevel es key) : e.key = key := by
  have hmem := (sortVersions_perm _).mem_iff.mp ((retain_sublist _ _ _).subset he)
  simpa using (List.mem_filter.mp hmem).2

theorem keptOf_eq_nil (minSnapshot targetLevel : Nat) {es : List VersionedEntry} {key : Bytes}
    (h : ∀ e ∈ es, e.key ≠ key) : keptOf minSnapshot targetLevel es key = [] := by
  have hnil : (es.filter fun e => decide (e.key = key)) = [] :=
    List.filter_eq_nil_iff.mpr fun e he => by simpa using h e he
  rw [keptOf, hnil]
  exact List.eq_nil_of_sublist_nil (retain_sublist _ _ _)

/-- The merge keeps of every key what is to be kept of the versions ahead. The
induction takes off one key, the smallest, in every round. -/
theorem mergeLoop_spec (minSnapshot targetLevel fuel : Nat) (h : m.Standing r alls rests)
    (hf : Functional (setOf rests.flatten)) (hfuel : rests.flatten.length < fuel) :
    ∃ output, mergeLoop TableFile.Reader.plain minSnapshot targetLevel fuel m = .ok output ∧
      ∀ key, (output.filter fun e => decide (e.key = key)) =
        keptOf minSnapshot targetLevel rests.flatten key := by
  induction fuel generalizing m rests with
  | zero => omega
  | succ fuel ih =>
    by_cases hheap : m.heap = []
    · refine ⟨[], by simp [mergeLoop, hheap, MergingIterator.heapTop], fun key => ?_⟩
      symm
      apply keptOf_eq_nil
      intro e he
      obtain ⟨i, hi⟩ := MergingIterator.exists_getD_of_mem he
      have him := (h.heap i).mpr (List.ne_nil_of_mem hi)
      rw [hheap] at him
      cases him
    · obtain ⟨i, htop, him, hmini⟩ := MergingIterator.heapTop_spec m.children hheap
      obtain ⟨f, fs, hfs, hentry, hnew, hle⟩ := h.top him hmini
      obtain ⟨hst, hperm⟩ := gatherKey_spec f.key (m.children.length + 1) h hle
        (Nat.lt_succ_of_le (MergingIterator.onKey_length_le f.key h))
      have hflat := MergingIterator.flatten_past h hle
      generalize hg : gatherKey TableFile.Reader.plain f.key (m.children.length + 1) m = g
        at hst hperm
      have hfrest : Functional (setOf (rests.map (MergingIterator.past f.key)).flatten) := by
        rw [hflat]
        exact hf.mono fun x hx => List.mem_of_mem_filter hx
      have hlen : ((rests.map (MergingIterator.past f.key)).flatten).length < fuel := by
        have hlt : ((rests.flatten.filter fun x => decide (f.key < x.key)).length) <
            rests.flatten.length :=
          List.length_filter_lt_length_iff_exists.mpr ⟨f, hnew.mem, by simp⟩
        rw [hflat]
        omega
      obtain ⟨output, hrun, hout⟩ := ih hst hfrest hlen
      have hkeys : ∀ v ∈ g.1, v ∈ rests.flatten ∧ v.key = f.key := by
        intro v hv
        simpa using List.mem_filter.mp (hperm.mem_iff.mp hv)
      have hkept : retain minSnapshot targetLevel (sortVersions g.1) =
          keptOf minSnapshot targetLevel rests.flatten f.key := by
        rw [keptOf, sortVersions_congr hperm (fun v hv => (hkeys v hv).2)
          (hf.mono fun v hv => (hkeys v hv).1)]
      refine ⟨retain minSnapshot targetLevel (sortVersions g.1) ++ output, ?_, ?_⟩
      · simp only [mergeLoop, htop, hentry, hg, hst.status, ne_eq, not_true_eq_false, if_false,
          hrun]
      · intro key
        rw [List.filter_append, hout, hkept, hflat]
        by_cases hk : key = f.key
        · -- the gathered key: nothing of it is left in the later rounds
          subst hk
          have hlater : ∀ e ∈ rests.flatten.filter fun x => decide (f.key < x.key),
              e.key ≠ f.key := by
            intro e he
            have hlt : f.key < e.key := by simpa using (List.mem_filter.mp he).2
            exact ne_of_gt hlt
          have hself : ((keptOf minSnapshot targetLevel rests.flatten f.key).filter
              fun e => decide (e.key = f.key)) =
              keptOf minSnapshot targetLevel rests.flatten f.key :=
            List.filter_eq_self.mpr fun e he => by simpa using key_of_mem_keptOf he
          rw [hself, keptOf_eq_nil minSnapshot targetLevel hlater, List.append_nil]
        · have hnone : ((keptOf minSnapshot targetLevel rests.flatten f.key).filter
              fun e => decide (e.key = key)) = [] := by
            rw [List.filter_eq_nil_iff]
            intro e he
            rw [key_of_mem_keptOf he]
            simpa using fun heq => hk (Eq.symm heq)
          rw [hnone, List.nil_append, keptOf, keptOf, List.filter_filter]
          congr 2
          apply List.filter_congr
          intro e he
          by_cases hek : e.key = key
          · have hlt : f.key < key := lt_of_le_of_ne (hek ▸ hle e he) fun heq => hk heq.symm
            simp [hek, hlt]
          · simp [hek]

end Loop

theorem openInputs_spec (tables : List TableFile) (h : ∀ t ∈ tables, t.Wf) :
    ∃ iters, openInputs TableFile.Reader.plain tables = .ok iters ∧
      List.Forall₂ (fun c all => InternalIterator.At c maxUInt64 all all ∧ all ≠ []) iters
        ((tables.map TableFile.entries).filter fun es => es ≠ []) := by
  induction tables with
  | nil => exact ⟨[], rfl, List.Forall₂.nil⟩
  | cons t ts ih =>
    obtain ⟨iters, hrun, hall⟩ := ih fun u hu => h u (List.mem_cons_of_mem t hu)
    have ht := h t List.mem_cons_self
    have hfilter : (t.entries.filter fun e => decide (e.sequence ≤ maxUInt64)) = t.entries := by
      rw [List.filter_eq_self]
      intro e he
      simpa using ht.sequences e he
    have hat := InternalIterator.seekToFirst_at (InternalIterator.ready_sstable ht maxUInt64)
    rw [hfilter] at hat
    generalize hc : InternalIterator.seekToFirst TableFile.Reader.plain
      (InternalIterator.sstable (SSTableIterator.new t maxUInt64)) = c at hat
    have hvalid : c.valid = true ↔ t.entries ≠ [] := by
      rw [InternalIterator.valid, hat.2.1]
      cases t.entries <;> simp
    refine ⟨if c.valid then c :: iters else iters, ?_, ?_⟩
    · simp only [openInputs, hc, hat.status, ne_eq, not_true_eq_false, if_false, hrun]
    · by_cases hv : c.valid = true
      · have hne := hvalid.mp hv
        rw [if_pos hv, List.map_cons, List.filter_cons, if_pos (by simpa using hne)]
        exact List.Forall₂.cons ⟨hat, hne⟩ hall
      · have hnil : t.entries = [] := by
          by_contra hne
          exact hv (hvalid.mpr hne)
        rw [if_neg hv, List.map_cons, List.filter_cons, if_neg (by simp [hnil])]
        exact hall

theorem flatten_filter_ne_nil (xss : List (List VersionedEntry)) :
    (xss.filter fun xs => decide (xs ≠ [])).flatten = xss.flatten := by
  induction xss with
  | nil => rfl
  | cons xs xss ih =>
    rw [List.filter_cons]
    split
    · rw [List.flatten_cons, List.flatten_cons, ih]
    · rename_i hnil
      have hnil : xs = [] := by simpa using hnil
      rw [ih, hnil]
      rfl

theorem forall₂_getD {R : InternalIterator → List VersionedEntry → Prop}
    {iters : List InternalIterator} {alls : List (List VersionedEntry)}
    (h : List.Forall₂ R iters alls) {i : Nat} {c : InternalIterator} (hc : iters[i]? = some c) :
    R c (alls.getD i []) := by
  obtain ⟨hlen, hget⟩ := List.forall₂_iff_get.mp h
  obtain ⟨hi, rfl⟩ := List.getElem?_eq_some_iff.mp hc
  have hi' : i < alls.length := by omega
  rw [List.getD_eq_getElem?_getD, List.getElem?_eq_getElem hi']
  exact hget i hi hi'

theorem SortLe.total (a b : VersionedEntry) : SortLe a b ∨ SortLe b a := by
  rcases lt_trichotomy a.key b.key with h | h | h
  · exact Or.inl (Or.inl h)
  · rcases Nat.le_total a.sequence b.sequence with hs | hs
    · exact Or.inr (Or.inr ⟨h.symm, hs⟩)
    · exact Or.inl (Or.inr ⟨h, hs⟩)
  · exact Or.inr (Or.inl h)

theorem SortLe.trans {a b c : VersionedEntry} (hab : SortLe a b) (hbc : SortLe b c) :
    SortLe a c := by
  rcases hab with hab | ⟨hab, hsab⟩
  · rcases hbc with hbc | ⟨hbc, _⟩
    · exact Or.inl (lt_trans hab hbc)
    · exact Or.inl (hbc ▸ hab)
  · rcases hbc with hbc | ⟨hbc, hsbc⟩
    · exact Or.inl (hab ▸ hbc)
    · exact Or.inr ⟨hab.trans hbc, Nat.le_trans hsbc hsab⟩

theorem insertionSort_sortedRun (hf : Functional (setOf es)) :
    SortedRun (es.insertionSort SortLe) := by
  have htotal : Std.Total SortLe := ⟨SortLe.total⟩
  have htrans : IsTrans VersionedEntry SortLe := ⟨fun _ _ _ => SortLe.trans⟩
  have hs : (es.insertionSort SortLe).Pairwise SortLe := List.pairwise_insertionSort SortLe es
  refine hs.imp_of_mem ?_
  intro a b ha hb hab
  rw [(List.perm_insertionSort SortLe es).mem_iff] at ha hb
  rcases hab with h | ⟨hk, hle⟩
  · exact Or.inl (Or.inl h)
  · rcases Nat.lt_or_eq_of_le hle with hlt | heq
    · exact Or.inl (Or.inr ⟨hk, hlt⟩)
    · exact Or.inr (hf a ha b hb hk heq.symm)

/-- The output of a compaction of well-formed tables: a run that holds of every key
what is to be kept of its versions. -/
theorem mergeTables_filter (tables : List TableFile) (minSnapshot targetLevel : Nat)
    (h : ∀ t ∈ tables, t.Wf) (hf : Functional (setOf (tables.flatMap TableFile.entries))) :
    ∃ output, mergeTables TableFile.Reader.plain tables minSnapshot targetLevel = .ok output ∧
      SortedRun output ∧
      ∀ key, (output.filter fun e => decide (e.key = key)) =
        keptOf minSnapshot targetLevel (tables.flatMap TableFile.entries) key := by
  obtain ⟨iters, hopen, hall⟩ := openInputs_spec tables h
  have hflat : ((tables.map TableFile.entries).filter fun es => decide (es ≠ [])).flatten =
      tables.flatMap TableFile.entries := by
    rw [flatten_filter_ne_nil, List.flatMap_def]
  generalize halls : ((tables.map TableFile.entries).filter fun es => decide (es ≠ [])) = alls
    at hall hflat
  have hmem : ∀ i, alls.getD i [] = [] ∨ ∃ t ∈ tables, alls.getD i [] = t.entries := by
    intro i
    rw [List.getD_eq_getElem?_getD]
    cases hi : alls[i]? with
    | none => exact Or.inl rfl
    | some es =>
      have hes := List.mem_of_getElem? hi
      rw [← halls, List.mem_filter, List.mem_map] at hes
      obtain ⟨⟨t, ht, rfl⟩, _⟩ := hes
      exact Or.inr ⟨t, ht, rfl⟩
  have hst : MergingIterator.Standing { children := iters, heap := List.range iters.length }
      maxUInt64 alls alls := by
    refine ⟨rfl, hall.length_eq.symm, hall.length_eq.symm, ?_, List.nodup_range, ?_, ?_, ?_⟩
    · exact fun i c hc => (forall₂_getD hall hc).1
    · intro i
      rw [List.mem_range]
      constructor
      · intro hi
        exact (forall₂_getD hall (List.getElem?_eq_getElem hi)).2
      · intro hne
        obtain ⟨x, hx⟩ := List.exists_mem_of_ne_nil _ hne
        rw [hall.length_eq]
        exact (MergingIterator.mem_flatten_of_getD hx).1
    · intro i
      rcases hmem i with he | ⟨t, ht, he⟩
      · rw [he]
        exact List.Pairwise.nil
      · rw [he]
        exact (h t ht).sorted
    · intro i e he'
      rcases hmem i with he | ⟨t, ht, he⟩
      · rw [he] at he'
        cases he'
      · rw [he] at he'
        exact (h t ht).sequences e he'
  rw [← hflat] at hf
  obtain ⟨output, hrun, hout⟩ := mergeLoop_spec minSnapshot targetLevel
    ((iters.map InternalIterator.capacity).sum + 1) hst hf
    (Nat.lt_succ_of_le (MergingIterator.flatten_length_le hst))
  have hmem_flat : ∀ e ∈ output, e ∈ alls.flatten := by
    intro e he
    have hek : e ∈ keptOf minSnapshot targetLevel alls.flatten e.key := by
      rw [← hout]
      exact List.mem_filter.mpr ⟨he, by simp⟩
    exact List.mem_of_mem_filter
      ((sortVersions_perm _).mem_iff.mp ((retain_sublist _ _ _).subset hek))
  have hrunOut := insertionSort_sortedRun (hf.mono hmem_flat)
  refine ⟨output.insertionSort SortLe, ?_, hrunOut, ?_⟩
  · simp only [mergeTables, hopen, hrun]
  · intro key
    rw [← hflat, ← hout]
    -- both sides hold the same versions, each side newest first
    have hperm := (List.perm_insertionSort SortLe output).filter fun e => decide (e.key = key)
    refine hperm.eq_of_pairwise ?_ ((hrunOut.filter _).imp_of_mem ?_) (?_ : List.Pairwise
      (fun a b => b.sequence ≤ a.sequence) _)
    · intro a b ha hb hab hba
      obtain ⟨hao, hak⟩ := List.mem_filter.mp (hperm.mem_iff.mp ha)
      obtain ⟨hbo, hbk⟩ := List.mem_filter.mp hb
      exact hf a (hmem_flat a hao) b (hmem_flat b hbo)
        ((of_decide_eq_true hak).trans (of_decide_eq_true hbk).symm) (Nat.le_antisymm hba hab)
    · intro a b ha hb hab
      refine hab.sequence_le ?_
      exact (of_decide_eq_true (List.mem_filter.mp ha).2).trans
        (of_decide_eq_true (List.mem_filter.mp hb).2).symm
    · rw [hout]
      exact (sortVersions_sorted _).sublist (retain_sublist _ _ _)

theorem mem_keptOf (hf : Functional (setOf es)) (e : VersionedEntry) :
    e ∈ keptOf minSnapshot targetLevel es e.key ↔
      e ∈ es ∧ Kept (setOf es) minSnapshot targetLevel e := by
  have hsorted : ∀ v, v ∈ sortVersions (es.filter fun v => decide (v.key = e.key)) ↔
      v ∈ es ∧ v.key = e.key := by
    intro v
    rw [(sortVersions_perm _).mem_iff, List.mem_filter, decide_eq_true_eq]
  rw [keptOf, mem_retain (sortVersions_sorted _) (fun v hv => ((hsorted v).mp hv).2)
    (hf.mono fun v hv => ((hsorted v).mp hv).1), hsorted]
  have hcongr : Kept (setOf (sortVersions (es.filter fun v => decide (v.key = e.key)))) minSnapshot
      targetLevel e ↔ Kept (setOf es) minSnapshot targetLevel e := by
    refine kept_congr fun y hy => ?_
    rw [mem_setOf, hsorted, mem_setOf]
    simp [hy]
  rw [hcongr]
  simp

theorem mergeTables_spec (tables : List TableFile) (minSnapshot targetLevel : Nat)
    (h : ∀ t ∈ tables, t.Wf) (hf : Functional (setOf (tables.flatMap TableFile.entries))) :
    ∃ output, mergeTables TableFile.Reader.plain tables minSnapshot targetLevel = .ok output ∧
      SortedRun output ∧
      ∀ e, e ∈ output ↔ e ∈ tables.flatMap TableFile.entries ∧
        Kept (setOf (tables.flatMap TableFile.entries)) minSnapshot targetLevel e := by
  obtain ⟨output, hrun, hsorted, hout⟩ := mergeTables_filter tables minSnapshot targetLevel h hf
  refine ⟨output, hrun, hsorted, fun e => ?_⟩
  rw [← mem_keptOf hf, ← hout, List.mem_filter]
  simp

/-! ## The output of any inputs

Nothing is known here about the order of the inputs: the output still holds only
versions of theirs.
-/

def Draws (E : Set VersionedEntry) : InternalIterator → Prop
  | .memtable it => ∀ e ∈ it.entries, e ∈ E
  | .sstable it => (∀ e ∈ it.table.entries, e ∈ E) ∧ ∀ e ∈ it.blockEntries, e ∈ E

section Draws

variable {E : Set VersionedEntry}

variable {e : VersionedEntry} {it : SSTableIterator} {c : InternalIterator}

theorem mem_entries_of_plain {t : TableFile} {i : Nat} {es : List VersionedEntry}
    (h : TableFile.Reader.plain t i = .ok es) (he : e ∈ es) : e ∈ t.entries := by
  simp only [TableFile.Reader.plain, Except.ok.injEq] at h
  subst h
  rw [List.getD_eq_getElem?_getD] at he
  cases hb : t.blocks[i]? with
  | none => simp [hb] at he
  | some b =>
    rw [hb] at he
    exact List.mem_flatten.mpr ⟨b, List.mem_of_getElem? hb, he⟩

theorem draws_ensureBlockLoaded (fuel : Nat) (h : Draws E (.sstable it)) :
    Draws E (.sstable (it.ensureBlockLoaded TableFile.Reader.plain fuel).2) := by
  induction fuel generalizing it with
  | zero => exact h
  | succ fuel ih =>
    rw [SSTableIterator.ensureBlockLoaded]
    split
    · exact h
    · split
      · exact h
      · split
        · exact ⟨h.1, fun e he => absurd he List.not_mem_nil⟩
        · rename_i es hes
          split
          · exact ih ⟨h.1, fun e he => absurd he List.not_mem_nil⟩
          · exact ⟨h.1, fun e he => h.1 e (mem_entries_of_plain hes he)⟩

theorem draws_advanceRaw (h : Draws E (.sstable it)) : Draws E (.sstable it.advanceRaw) := by
  rw [SSTableIterator.advanceRaw]
  split
  · exact h
  · split
    · exact ⟨h.1, fun e he => absurd he List.not_mem_nil⟩
    · exact h

theorem draws_skipUntilVisible (target : Bytes) (fuel : Nat) (h : Draws E (.sstable it)) :
    Draws E (.sstable (it.skipUntilVisible TableFile.Reader.plain target fuel)) := by
  induction fuel generalizing it with
  | zero => exact h
  | succ fuel ih =>
    have hload := draws_ensureBlockLoaded (it.table.index.length + 1) h
    rw [SSTableIterator.skipUntilVisible]
    generalize it.ensureBlockLoaded TableFile.Reader.plain (it.table.index.length + 1) = out
      at hload
    obtain ⟨found, it'⟩ := out
    cases found with
    | false => exact hload
    | true =>
      simp only
      split
      · exact hload
      · split
        · exact ih (draws_advanceRaw hload)
        · split
          · exact ih (draws_advanceRaw hload)
          · exact hload

theorem draws_next (h : Draws E c) : Draws E (c.next TableFile.Reader.plain) := by
  cases c with
  | memtable it =>
    show Draws E (.memtable it.next)
    rw [MemTableIterator.next]
    split
    · exact h
    · exact h
  | sstable it =>
    show Draws E (.sstable (it.next TableFile.Reader.plain))
    rw [SSTableIterator.next]
    split
    · exact draws_skipUntilVisible [] _ (draws_advanceRaw h)
    · exact h

theorem draws_seekToFirst (t : TableFile) (r : Nat) (h : ∀ e ∈ t.entries, e ∈ E) :
    Draws E ((InternalIterator.sstable (SSTableIterator.new t r)).seekToFirst
      TableFile.Reader.plain) :=
  draws_skipUntilVisible [] _ ⟨h, fun _ he => absurd he List.not_mem_nil⟩

theorem mem_of_draws (h : Draws E c) (he : c.current? = some e) : e ∈ E := by
  cases c with
  | memtable it =>
    simp only [InternalIterator.current?, MemTableIterator.current?] at he
    split at he
    · exact h e (List.mem_of_getElem? he)
    · cases he
  | sstable it =>
    simp only [InternalIterator.current?, SSTableIterator.current?] at he
    split at he
    · exact h.2 e (List.mem_of_getElem? he)
    · cases he

theorem mem_of_passed {key : Bytes} (fuel : Nat) (h : Draws E c)
    (he : e ∈ passed TableFile.Reader.plain key fuel c) : e ∈ E := by
  induction fuel generalizing c with
  | zero => exact absurd he List.not_mem_nil
  | succ fuel ih =>
    rw [passed] at he
    split at he
    · exact absurd he List.not_mem_nil
    · rename_i x hx
      split at he
      · rcases List.mem_cons.mp he with rfl | he
        · exact mem_of_draws h hx
        · exact ih (draws_next h) he
      · exact absurd he List.not_mem_nil

theorem draws_advancePast (key : Bytes) (fuel : Nat) (h : Draws E c) :
    Draws E (MergingIterator.advancePast TableFile.Reader.plain key fuel c) := by
  induction fuel generalizing c with
  | zero => exact h
  | succ fuel ih =>
    rw [MergingIterator.advancePast]
    split
    · exact ih (draws_next h)
    · exact h

theorem draws_advanceChild {m : MergingIterator} (h : ∀ c ∈ m.children, Draws E c) (i : Nat)
    (key : Bytes) :
    ∀ c ∈ (MergingIterator.advanceChildPastKey TableFile.Reader.plain m i key).children,
      Draws E c := by
  rw [MergingIterator.advanceChildPastKey]
  split
  · exact h
  · rename_i c hc
    have hset : ∀ x ∈ m.children.set i
        (MergingIterator.advancePast TableFile.Reader.plain key (c.capacity + 1) c), Draws E x := by
      intro x hx
      rcases List.mem_or_eq_of_mem_set hx with hx | rfl
      · exact h x hx
      · exact draws_advancePast key _ (h c (List.mem_of_getElem? hc))
    simp only
    split
    · exact hset
    · split
      · exact hset
      · exact hset

theorem gatherKey_draws (key : Bytes) (fuel : Nat) {m : MergingIterator}
    (h : ∀ c ∈ m.children, Draws E c) :
    (∀ e ∈ (gatherKey TableFile.Reader.plain key fuel m).1, e ∈ E) ∧
      ∀ c ∈ (gatherKey TableFile.Reader.plain key fuel m).2.children, Draws E c := by
  induction fuel generalizing m with
  | zero => exact ⟨fun e he => absurd he List.not_mem_nil, h⟩
  | succ fuel ih =>
    rw [gatherKey]
    split
    · rename_i i _ _
      split
      · have hm : ∀ c ∈ (MergingIterator.advanceChildPastKey TableFile.Reader.plain
            { m with heap := m.heap.erase i } i key).children, Draws E c :=
          draws_advanceChild (m := { m with heap := m.heap.erase i }) h i key
        obtain ⟨h1, h2⟩ := ih hm
        refine ⟨?_, h2⟩
        intro e he
        rcases List.mem_append.mp he with he | he
        · cases hc : m.children[i]? with
          | none =>
            rw [hc] at he
            exact absurd he List.not_mem_nil
          | some c =>
            rw [hc] at he
            exact mem_of_passed _ (h c (List.mem_of_getElem? hc)) he
        · exact h1 e he
      · exact ⟨fun e he => absurd he List.not_mem_nil, h⟩
    · exact ⟨fun e he => absurd he List.not_mem_nil, h⟩

theorem mergeLoop_draws (minSnapshot targetLevel fuel : Nat) {m : MergingIterator}
    (h : ∀ c ∈ m.children, Draws E c) {output : List VersionedEntry}
    (ho : mergeLoop TableFile.Reader.plain minSnapshot targetLevel fuel m = .ok output) :
    ∀ e ∈ output, e ∈ E := by
  induction fuel generalizing m output with
  | zero =>
    cases ho
    exact fun e he => absurd he List.not_mem_nil
  | succ fuel ih =>
    rw [mergeLoop] at ho
    split at ho
    · cases ho
      exact fun e he => absurd he List.not_mem_nil
    · rename_i i _
      have hg := gatherKey_draws (MergingIterator.entryAt m.children i).key
        (m.children.length + 1) h
      simp only at ho
      split at ho
      · cases ho
      · split at ho
        · cases ho
        · rename_i rest hrest
          cases ho
          intro e he
          rcases List.mem_append.mp he with he | he
          · exact hg.1 e ((sortVersions_perm _).mem_iff.mp ((retain_sublist _ _ _).subset he))
          · exact ih hg.2 hrest e he

theorem openInputs_draws (tables : List TableFile) {iters : List InternalIterator}
    (ho : openInputs TableFile.Reader.plain tables = .ok iters)
    (h : ∀ t ∈ tables, ∀ e ∈ t.entries, e ∈ E) : ∀ c ∈ iters, Draws E c := by
  induction tables generalizing iters with
  | nil =>
    cases ho
    exact fun c hc => absurd hc List.not_mem_nil
  | cons t ts ih =>
    rw [openInputs] at ho
    split at ho
    · cases ho
    · split at ho
      · cases ho
      · rename_i rest hrest
        cases ho
        have htail := ih hrest fun t' ht' => h t' (List.mem_cons_of_mem t ht')
        intro c hc
        split at hc
        · rcases List.mem_cons.mp hc with rfl | hc
          · exact draws_seekToFirst t maxUInt64 (h t List.mem_cons_self)
          · exact htail c hc
        · exact htail c hc

end Draws

theorem mergeTables_subset {tables : List TableFile} {output : List VersionedEntry}
    (ho : mergeTables TableFile.Reader.plain tables minSnapshot targetLevel = .ok output) :
    ∀ e ∈ output, ∃ t ∈ tables, e ∈ t.entries := by
  rw [mergeTables] at ho
  split at ho
  · cases ho
  · rename_i inputs hin
    simp only at ho
    split at ho
    · cases ho
    · rename_i out hout
      cases ho
      have hdraws := openInputs_draws (E := {e | ∃ t ∈ tables, e ∈ t.entries}) tables hin
        fun t ht e he => ⟨t, ht, he⟩
      intro e he
      exact mergeLoop_draws minSnapshot targetLevel _ hdraws hout e
        ((List.perm_insertionSort SortLe out).mem_iff.mp he)

/-- The reads a compaction with this oldest snapshot must not change: all from the
snapshot on, or, without one, those that see every input version. -/
def retainedFrom (minSnapshot lastSequence : Nat) : Nat :=
  if minSnapshot = 0 then lastSequence else minSnapshot

/-- The kept versions answer for the inputs. A deletion is dropped only into level
2, and then nothing older may be left beside the inputs without it. -/
theorem kept_retains {R O : Set VersionedEntry} {last : Nat} (hf : Functional I)
    (hO : ∀ e, e ∈ O ↔ e ∈ I ∧ Kept I minSnapshot targetLevel e)
    (hlast : ∀ e ∈ I, e.sequence ≤ last)
    (hR : ¬ targetLevel < 2 → ∀ x ∈ I, ∀ y ∈ R, y.key = x.key → y.sequence < x.sequence → x ∈ R) :
    Retains R I O (retainedFrom minSnapshot last) := by
  refine ⟨fun e he => ((hO e).mp he).1, ?_⟩
  intro k r x hr hx
  unfold retainedFrom at hr
  by_cases h0 : minSnapshot = 0
  · rw [if_pos h0] at hr
    have hmax : ∀ y ∈ I, y.key = x.key → y.sequence ≤ x.sequence := by
      intro y hy hk
      exact hx.newest y hy (hk.trans hx.key_eq) ((hlast y hy).trans hr)
    by_cases hkeep : x.deleted = false ∨ targetLevel < 2
    · left
      rw [hO]
      refine ⟨hx.mem, ?_⟩
      rw [Kept, if_pos h0]
      exact ⟨hmax, hkeep⟩
    · right
      simp only [not_or, Bool.not_eq_false] at hkeep
      refine ⟨?_, ?_, ?_⟩
      · show (if x.deleted then none else some x.value) = none
        rw [if_pos hkeep.1]
      · intro y hy hk
        obtain ⟨hyI, hkept⟩ := (hO y).mp hy
        rw [Kept, if_pos h0] at hkept
        have hkey : y.key = x.key := hk.trans hx.key_eq.symm
        have hseq : y.sequence = x.sequence :=
          Nat.le_antisymm (hmax y hyI hkey) (hkept.1 x hx.mem hkey.symm)
        have hyx : y = x := hf y hyI x hx.mem hkey hseq
        rw [hyx, hkeep.1] at hkept
        exact hkept.2.elim (fun h => by cases h) hkeep.2
      · intro y hy hk hlt
        exact hR hkeep.2 x hx.mem y hy (hk.trans hx.key_eq.symm) hlt
  · rw [if_neg h0] at hr
    left
    rw [hO]
    refine ⟨hx.mem, ?_⟩
    rw [Kept, if_neg h0]
    right
    intro y hy hk hle
    exact hx.newest y hy (hk.trans hx.key_eq) (hle.trans hr)

/-! ## What a compaction leaves of every key -/

theorem find?_sortVersions (hf : Functional (setOf es)) (key : Bytes) (r : Nat) :
    (sortVersions (es.filter fun e => e.key = key)).find? (fun v => v.sequence ≤ r) =
      newest? es key r := by
  have hmem : ∀ v, v ∈ sortVersions (es.filter fun e => decide (e.key = key)) ↔
      v ∈ es ∧ v.key = key := by
    intro v
    rw [(sortVersions_perm _).mem_iff, List.mem_filter, decide_eq_true_eq]
  cases hfind : (sortVersions (es.filter fun e => decide (e.key = key))).find?
      fun v => decide (v.sequence ≤ r) with
  | none =>
    symm
    apply newest?_eq_none
    intro x hx hk
    have hno := List.find?_eq_none.mp hfind x ((hmem x).mpr ⟨hx, hk⟩)
    exact Nat.lt_of_not_le fun hle => hno (decide_eq_true hle)
  | some x =>
    symm
    obtain ⟨hle, as, bs, hsplit, has⟩ := List.find?_eq_some_iff_append.mp hfind
    have hsorted := sortVersions_sorted (es.filter fun e => decide (e.key = key))
    have hx := (hmem x).mp (List.mem_of_find?_eq_some hfind)
    refine newest?_eq_some hf ⟨hx.1, hx.2, of_decide_eq_true hle, ?_⟩
    intro y hy hk hyr
    have hys := (hmem y).mpr ⟨hy, hk⟩
    rw [hsplit] at hys hsorted
    rcases List.mem_append.mp hys with hys | hys
    · have hno := has y hys
      simp only [Bool.not_eq_true', decide_eq_false_iff_not] at hno
      exact absurd hyr hno
    · rcases List.mem_cons.mp hys with rfl | hys
      · exact Nat.le_refl _
      · exact (List.pairwise_cons.mp (List.pairwise_append.mp hsorted).2.1).1 y hys

theorem keptOf_zero (hf : Functional (setOf es)) (hseq : ∀ e ∈ es, e.sequence ≤ maxUInt64)
    (targetLevel : Nat) (key : Bytes) :
    keptOf 0 targetLevel es key =
      (newest? es key maxUInt64).toList.filter fun v => !v.deleted || decide (targetLevel < 2) := by
  have hall : ∀ v ∈ sortVersions (es.filter fun e => decide (e.key = key)),
      v.sequence ≤ maxUInt64 := by
    intro v hv
    exact hseq v (List.mem_of_mem_filter ((sortVersions_perm _).mem_iff.mp hv))
  have hhead : (sortVersions (es.filter fun e => decide (e.key = key))).head? =
      (sortVersions (es.filter fun e => decide (e.key = key))).find?
        fun v => decide (v.sequence ≤ maxUInt64) := by
    cases hs : sortVersions (es.filter fun e => decide (e.key = key)) with
    | nil => rfl
    | cons v vs =>
      rw [hs] at hall
      simp [hall v List.mem_cons_self]
  rw [keptOf, retain, if_pos rfl, hhead, find?_sortVersions hf]

theorem keptOf_pos (hf : Functional (setOf es)) (hpos : 0 < minSnapshot) (targetLevel : Nat)
    (key : Bytes) :
    keptOf minSnapshot targetLevel es key =
      ((sortVersions (es.filter fun e => e.key = key)).filter fun v => minSnapshot < v.sequence) ++
        (newest? es key minSnapshot).toList := by
  rw [keptOf, retain, if_neg (by omega), retainLoop_eq (sortVersions_sorted _), if_neg (by simp),
    find?_sortVersions hf]

/-- The output of a compaction is sorted and holds exactly the needed versions. Without
a snapshot this is the newest version of each key, or nothing when that is a tombstone
on its way to the last level. With a snapshot it is every version after the snapshot, as
often as the inputs repeat it, and one record of the newest version that is not. No read
from the snapshot on can tell the output from the inputs. -/
theorem mergeTables_keeps (tables : List TableFile) (minSnapshot targetLevel : Nat)
    (h : ∀ t ∈ tables, t.Wf) (hf : Functional (setOf (tables.flatMap TableFile.entries))) :
    ∃ output, mergeTables TableFile.Reader.plain tables minSnapshot targetLevel = .ok output ∧
      output.Pairwise (fun a b => a.key < b.key ∨ (a.key = b.key ∧ b.sequence ≤ a.sequence)) ∧
      (minSnapshot = 0 → ∀ key, (output.filter fun e => e.key = key) =
        (newest? (tables.flatMap TableFile.entries) key maxUInt64).toList.filter
          fun v => !v.deleted || decide (targetLevel < 2)) ∧
      (0 < minSnapshot →
        (∀ e : VersionedEntry, minSnapshot < e.sequence →
          output.count e = (tables.flatMap TableFile.entries).count e) ∧
        ∀ key, (output.filter fun e => e.key = key ∧ e.sequence ≤ minSnapshot) =
          (newest? (tables.flatMap TableFile.entries) key minSnapshot).toList) ∧
      ∀ key r, (if minSnapshot = 0 then ∀ e ∈ tables.flatMap TableFile.entries, e.sequence ≤ r
          else minSnapshot ≤ r) →
        visible output key r = visible (tables.flatMap TableFile.entries) key r := by
  obtain ⟨output, hrun, hsorted, hout⟩ := mergeTables_filter tables minSnapshot targetLevel h hf
  have hseq : ∀ e ∈ tables.flatMap TableFile.entries, e.sequence ≤ maxUInt64 := by
    intro e he
    obtain ⟨t, ht, het⟩ := List.mem_flatMap.mp he
    exact (h t ht).sequences e het
  generalize tables.flatMap TableFile.entries = es at hf hout hseq
  refine ⟨output, hrun, ?_, ?_, ?_, ?_⟩
  · refine hsorted.imp ?_
    rintro a b ((hlt | ⟨hk, hlt⟩) | rfl)
    · exact Or.inl hlt
    · exact Or.inr ⟨hk, Nat.le_of_lt hlt⟩
    · exact Or.inr ⟨rfl, Nat.le_refl _⟩
  · rintro rfl key
    rw [hout, keptOf_zero hf hseq]
  · intro hpos
    have hout' := fun key => (hout key).trans (keptOf_pos hf hpos targetLevel key)
    constructor
    · intro e he
      have hnot : e ∉ (newest? es e.key minSnapshot).toList := by
        intro hm
        rw [Option.mem_toList] at hm
        rcases newest?_spec es e.key minSnapshot with ⟨x, hx, hn⟩ | ⟨hnone, _⟩
        · rw [hx] at hm
          cases hm
          exact absurd hn.seq_le (Nat.not_le.mpr he)
        · rw [hnone] at hm
          cases hm
      calc output.count e
          = (output.filter fun x => decide (x.key = e.key)).count e :=
            (List.count_filter (p := fun x : VersionedEntry => decide (x.key = e.key)) (by simp)).symm
        _ = ((sortVersions (es.filter fun x => decide (x.key = e.key))).filter
              fun v => decide (minSnapshot < v.sequence)).count e := by
            rw [hout', List.count_append, List.count_eq_zero_of_not_mem hnot, Nat.add_zero]
        _ = (sortVersions (es.filter fun x => decide (x.key = e.key))).count e :=
            List.count_filter (p := fun v : VersionedEntry => decide (minSnapshot < v.sequence)) (by simpa using he)
        _ = (es.filter fun x => decide (x.key = e.key)).count e :=
            (sortVersions_perm _).count_eq e
        _ = es.count e := List.count_filter (p := fun x : VersionedEntry => decide (x.key = e.key)) (by simp)
    · intro key
      have hsplit : (output.filter fun e => decide (e.key = key ∧ e.sequence ≤ minSnapshot)) =
          (output.filter fun e => decide (e.key = key)).filter
            fun e => decide (e.sequence ≤ minSnapshot) := by
        rw [List.filter_filter]
        apply List.filter_congr
        intro e _
        rw [Bool.decide_and, Bool.and_comm]
      rw [hsplit, hout', List.filter_append]
      have hnone : ((sortVersions (es.filter fun e => decide (e.key = key))).filter
          fun v => decide (minSnapshot < v.sequence)).filter
            (fun e => decide (e.sequence ≤ minSnapshot)) = [] := by
        rw [List.filter_eq_nil_iff]
        intro e he
        have hlt := (List.mem_filter.mp he).2
        simp only [decide_eq_true_eq] at hlt ⊢
        omega
      rw [hnone, List.nil_append, List.filter_eq_self]
      intro e he
      rw [Option.mem_toList] at he
      rcases newest?_spec es key minSnapshot with ⟨x, hx, hn⟩ | ⟨hno, _⟩
      · rw [hx] at he
        cases he
        exact decide_eq_true hn.seq_le
      · rw [hno] at he
        cases he
  · intro key r hr
    have hmem : ∀ e, e ∈ setOf output ↔ e ∈ setOf es ∧ Kept (setOf es) minSnapshot targetLevel e := by
      intro e
      rw [mem_setOf, mem_setOf, ← mem_keptOf hf, ← hout, List.mem_filter]
      simp
    have hempty : setOf es = ∅ ∪ setOf es := (Set.empty_union _).symm
    by_cases h0 : minSnapshot = 0
    · rw [if_pos h0] at hr
      have hret := kept_retains (R := ∅) hf hmem hr fun _ _ _ _ hy => absurd hy (Set.notMem_empty _)
      have hsame := hret.sameView (k := key) (r := r) (by rwa [← hempty])
        (fun k r => by rw [← hempty]; exact exists_newest_or es k r)
        (by rw [retainedFrom, if_pos h0])
      rw [Set.empty_union, Set.empty_union] at hsame
      exact visible_congr hsorted.functional hf hsame.symm
    · rw [if_neg h0] at hr
      have hret := kept_retains (R := ∅) hf hmem hseq fun _ _ _ _ hy => absurd hy (Set.notMem_empty _)
      have hsame := hret.sameView (k := key) (r := r) (by rwa [← hempty])
        (fun k r => by rw [← hempty]; exact exists_newest_or es k r)
        (by rwa [retainedFrom, if_neg h0])
      rw [Set.empty_union, Set.empty_union] at hsame
      exact visible_congr hsorted.functional hf hsame.symm

def olderVersions : List VersionedEntry :=
  [⟨ascii "a", 3, ascii "y", false⟩, ⟨ascii "a", 1, ascii "x", false⟩, ⟨ascii "b", 2, [], true⟩]

def newerVersions : List VersionedEntry :=
  [⟨ascii "a", 5, [], true⟩, ⟨ascii "a", 3, ascii "y", false⟩]

/-- With a snapshot at 3, the tombstone at 5 is kept with one record of the version at 3. -/
theorem mergeTables_keeps_boundary :
    ∃ output, mergeTables TableFile.Reader.plain
        [SSTable.tableOf newerVersions 64 10, SSTable.tableOf olderVersions 64 10] 3 2 =
          .ok output ∧
      output.count ⟨ascii "a", 5, [], true⟩ = 1 ∧
      (output.filter fun e => e.key = ascii "a" ∧ e.sequence ≤ 3) =
        [⟨ascii "a", 3, ascii "y", false⟩] ∧
      visible output (ascii "a") 4 = some (ascii "y") := by
  have hwf : ∀ t ∈ [SSTable.tableOf newerVersions 64 10, SSTable.tableOf olderVersions 64 10],
      t.Wf := by
    intro t ht
    rcases List.mem_cons.mp ht with rfl | ht
    · have hrun : StrictRun newerVersions := by
        unfold StrictRun
        decide
      exact SSTable.tableOf_wf 64 hrun.sorted (by decide) (by decide) (by decide)
    · have hrun : StrictRun olderVersions := by
        unfold StrictRun
        decide
      rw [List.mem_singleton.mp ht]
      exact SSTable.tableOf_wf 64 hrun.sorted (by decide) (by decide) (by decide)
  have hall : [SSTable.tableOf newerVersions 64 10, SSTable.tableOf olderVersions 64 10].flatMap
      TableFile.entries = newerVersions ++ olderVersions := by
    simp only [List.flatMap_cons, List.flatMap_nil, SSTable.tableOf_entries, List.append_nil]
  have hfun : Functional (setOf (newerVersions ++ olderVersions)) := by
    have hcheck : ∀ x ∈ newerVersions ++ olderVersions, ∀ y ∈ newerVersions ++ olderVersions,
        x.key = y.key → x.sequence = y.sequence → x = y := by decide
    exact hcheck
  obtain ⟨output, hrun, _, _, hpos, hview⟩ := mergeTables_keeps _ 3 2 hwf (by rwa [hall])
  rw [hall] at hpos hview
  refine ⟨output, hrun, ?_, ?_, ?_⟩
  · rw [(hpos (by decide)).1 _ (by decide)]
    decide
  · rw [(hpos (by decide)).2]
    decide
  · rw [hview _ _ (by decide)]
    decide

end KvMem.Compaction
