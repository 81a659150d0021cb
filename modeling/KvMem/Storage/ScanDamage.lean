import KvMem.Storage.MergingIterator

/-! # Scans over damaged tables

Any set of data blocks may fail to read or decode. A scan over such tables runs like
the scan over the undamaged ones until a block that it has to load fails; from then on
it is invalid and keeps the error. Every function of the iterators does what it does on
undamaged tables, or ends with an error in its status.
-/

namespace KvMem

open Versions

/-- Some blocks fail to read or decode; the others read as written. -/
def TableFile.Reader.Damaged (read : TableFile.Reader) : Prop :=
  ∀ t i, read t i = TableFile.Reader.plain t i ∨ ∃ e, e ≠ Status.ok ∧ read t i = .error e

/-- The blocks of a table read as written, unless `Q`; then any of them may fail. -/
def TableFile.Reader.FailsIf (Q : Prop) (read : TableFile.Reader) (t : TableFile) : Prop :=
  ∀ i, read t i = TableFile.Reader.plain t i ∨ (Q ∧ ∃ e, e ≠ Status.ok ∧ read t i = .error e)

theorem TableFile.Reader.Damaged.failsIf {read : TableFile.Reader} (h : read.Damaged)
    (t : TableFile) : read.FailsIf True t := fun i => (h t i).imp_right fun he => ⟨trivial, he⟩

/-! ## One table -/

namespace SSTableIterator

variable {Q : Prop} {read : TableFile.Reader} {first : Nat}

/-- Block `i` has been loaded since the iterator was placed at block `first`. -/
def HasLoaded (it : SSTableIterator) (first i : Nat) : Prop :=
  first ≤ i ∧ (i < it.blockIndex ∨ (i = it.blockIndex ∧ it.loadedBlock = true))

structure Intact (Q : Prop) (read : TableFile.Reader) (first : Nat) (it : SSTableIterator) :
    Prop where
  fails : read.FailsIf Q it.table
  loaded : ∀ i, it.HasLoaded first i → ∃ es, read it.table i = .ok es

variable {it : SSTableIterator}

theorem intact_restartAt (hread : read.FailsIf Q it.table) (first : Nat) :
    Intact Q read first (it.restartAt first) := by
  refine ⟨hread, ?_⟩
  rintro i ⟨hle, hlt | ⟨_, hloaded⟩⟩
  · exact absurd hle (Nat.not_le.mpr hlt)
  · cases hloaded

theorem ensureBlockLoaded_damaged (fuel : Nat) (h : it.Intact Q read first) :
    (ensureBlockLoaded read fuel it = ensureBlockLoaded TableFile.Reader.plain fuel it ∧
        (ensureBlockLoaded TableFile.Reader.plain fuel it).2.Intact Q read first) ∨
      (Q ∧ (ensureBlockLoaded read fuel it).1 = false ∧
        (ensureBlockLoaded read fuel it).2.status ≠ .ok) := by
  induction fuel generalizing it with
  | zero => exact Or.inl ⟨rfl, h⟩
  | succ fuel ih =>
    rw [ensureBlockLoaded, ensureBlockLoaded]
    split
    · exact Or.inl ⟨rfl, h⟩
    · rename_i hl
      split
      · exact Or.inl ⟨rfl, h⟩
      · rcases h.fails it.blockIndex with hok | ⟨hq, e, he, herr⟩
        · rw [hok]
          -- the block at the position joins the loaded ones
          have hgrow : ∀ i, first ≤ i → i < it.blockIndex + 1 →
              ∃ es, read it.table i = .ok es := by
            intro i hi hlt
            rcases Nat.lt_succ_iff_lt_or_eq.mp hlt with hlt | rfl
            · exact h.loaded i ⟨hi, Or.inl hlt⟩
            · exact ⟨_, hok⟩
          dsimp only [TableFile.Reader.plain]
          split
          · refine ih ⟨h.fails, ?_⟩
            rintro i ⟨hi, hlt | ⟨_, hloaded⟩⟩
            · exact hgrow i hi hlt
            · exact absurd hloaded hl
          · refine Or.inl ⟨rfl, h.fails, ?_⟩
            rintro i ⟨hi, hlt | ⟨rfl, _⟩⟩
            · exact hgrow i hi (Nat.lt_succ_of_lt hlt)
            · exact ⟨_, hok⟩
        · rw [herr]
          exact Or.inr ⟨hq, rfl, he⟩

theorem Intact.advanceRaw (h : it.Intact Q read first) : it.advanceRaw.Intact Q read first := by
  unfold SSTableIterator.advanceRaw
  split
  · exact h
  · rename_i hl
    have hl : it.loadedBlock = true := by simpa using hl
    split
    · refine ⟨h.fails, ?_⟩
      rintro i ⟨hi, hlt | ⟨_, hloaded⟩⟩
      · rcases Nat.lt_succ_iff_lt_or_eq.mp hlt with hlt | rfl
        · exact h.loaded i ⟨hi, Or.inl hlt⟩
        · exact h.loaded it.blockIndex ⟨hi, Or.inr ⟨rfl, hl⟩⟩
      · cases hloaded
    · exact ⟨h.fails, h.loaded⟩

theorem skipUntilVisible_damaged (target : Bytes) (fuel : Nat) (h : it.Intact Q read first) :
    (skipUntilVisible read target fuel it =
          skipUntilVisible TableFile.Reader.plain target fuel it ∧
        (skipUntilVisible TableFile.Reader.plain target fuel it).Intact Q read first) ∨
      (Q ∧ (skipUntilVisible read target fuel it).status ≠ .ok) := by
  induction fuel generalizing it with
  | zero => exact Or.inl ⟨rfl, h⟩
  | succ fuel ih =>
    rw [skipUntilVisible, skipUntilVisible]
    rcases ensureBlockLoaded_damaged (it.table.index.length + 1) h with
      ⟨heq, hin⟩ | ⟨hq, hfalse, herr⟩
    · rw [heq]
      generalize ensureBlockLoaded TableFile.Reader.plain (it.table.index.length + 1) it = out
        at hin
      obtain ⟨found, it'⟩ := out
      cases found with
      | false => exact Or.inl ⟨rfl, hin⟩
      | true =>
        dsimp only
        split
        · exact Or.inl ⟨rfl, hin⟩
        · split
          · exact ih hin.advanceRaw
          · split
            · exact ih hin.advanceRaw
            · exact Or.inl ⟨rfl, hin⟩
    · generalize ensureBlockLoaded read (it.table.index.length + 1) it = out at hfalse herr
      obtain ⟨found, it'⟩ := out
      dsimp only at hfalse
      subst hfalse
      exact Or.inr ⟨hq, herr⟩

end SSTableIterator

/-! ## One source -/

inductive ScanStart where
  | first
  | target (key : Bytes)

def ScanStart.block (start : ScanStart) (it : SSTableIterator) : Nat :=
  match start with
  | .first => 0
  | .target key => TableFile.lowerBound it.table.index (encodeInternalKey key it.readSequence)

def ScanStart.rest (start : ScanStart) (view : List (Bytes × Bytes)) : List (Bytes × Bytes) :=
  match start with
  | .first => view
  | .target key => view.dropWhile fun p => p.1 < key

namespace InternalIterator

variable {Q : Prop} {read : TableFile.Reader} {start : ScanStart}

def position (read : TableFile.Reader) (start : ScanStart) (c : InternalIterator) :
    InternalIterator :=
  match start with
  | .first => c.seekToFirst read
  | .target key => c.seek read key

def Intact (Q : Prop) (read : TableFile.Reader) (start : ScanStart) : InternalIterator → Prop
  | .memtable _ => True
  | .sstable it => it.Intact Q read (start.block it)

def FailsIf (Q : Prop) (read : TableFile.Reader) : InternalIterator → Prop
  | .memtable _ => True
  | .sstable it => read.FailsIf Q it.table

def source : InternalIterator → (List VersionedEntry × Status) ⊕ (TableFile × Nat)
  | .memtable it => .inl (it.entries, it.status)
  | .sstable it => .inr (it.table, it.readSequence)

theorem block_congr (start : ScanStart) {it it' : SSTableIterator} (h : it.Same it') :
    start.block it' = start.block it := by
  cases start with
  | first => rfl
  | target key =>
    unfold ScanStart.block
    rw [h.1, h.2]

variable {c : InternalIterator}

theorem position_damaged (start : ScanStart) (h : c.FailsIf Q read) :
    (c.position read start = c.position TableFile.Reader.plain start ∧
        (c.position TableFile.Reader.plain start).Intact Q read start) ∨
      (Q ∧ (c.position read start).status ≠ .ok) := by
  cases c with
  | memtable it => cases start <;> exact Or.inl ⟨rfl, trivial⟩
  | sstable it =>
    cases start with
    | first =>
      rcases SSTableIterator.skipUntilVisible_damaged [] it.fuel
        (SSTableIterator.intact_restartAt h 0) with ⟨heq, hin⟩ | herr
      · exact Or.inl ⟨congrArg sstable heq, hin⟩
      · exact Or.inr herr
    | target key =>
      generalize hb : TableFile.lowerBound it.table.index
        (encodeInternalKey key it.readSequence) = b
      have hblock : (ScanStart.target key).block
          (it.seek TableFile.Reader.plain key) = b := by
        rw [SSTableIterator.seek,
          block_congr (.target key) (SSTableIterator.same_skipUntilVisible _ key it.fuel _)]
        exact hb
      rcases SSTableIterator.skipUntilVisible_damaged key it.fuel
        (SSTableIterator.intact_restartAt h b) with ⟨heq, hin⟩ | herr
      · rw [← hb] at heq
        refine Or.inl ⟨congrArg sstable heq, ?_⟩
        show SSTableIterator.Intact Q read _ _
        rw [hblock, SSTableIterator.seek, hb]
        exact hin
      · rw [← hb] at herr
        exact Or.inr herr

theorem next_damaged (h : c.Intact Q read start) :
    (c.next read = c.next TableFile.Reader.plain ∧
        (c.next TableFile.Reader.plain).Intact Q read start) ∨
      (Q ∧ (c.next read).status ≠ .ok) := by
  cases c with
  | memtable it => exact Or.inl ⟨rfl, trivial⟩
  | sstable it =>
    have hin : it.Intact Q read (start.block it) := h
    show (sstable (it.next read) = sstable (it.next TableFile.Reader.plain) ∧
      (it.next TableFile.Reader.plain).Intact Q read
        (start.block (it.next TableFile.Reader.plain))) ∨ (Q ∧ (it.next read).status ≠ .ok)
    unfold SSTableIterator.next
    split
    · have hraw := SSTableIterator.same_advanceRaw it
      have hskip := SSTableIterator.same_skipUntilVisible TableFile.Reader.plain [] it.fuel
        it.advanceRaw
      rw [block_congr start hskip, block_congr start hraw]
      rcases SSTableIterator.skipUntilVisible_damaged [] it.fuel hin.advanceRaw with
        ⟨heq, hin'⟩ | herr
      · exact Or.inl ⟨congrArg sstable heq, hin'⟩
      · exact Or.inr herr
    · exact Or.inl ⟨rfl, hin⟩

theorem source_position (read : TableFile.Reader) (start : ScanStart) (c : InternalIterator) :
    (c.position read start).source = c.source := by
  cases c with
  | memtable it => cases start <;> rfl
  | sstable it =>
    have hsource : ∀ {it' : SSTableIterator}, it.Same it' →
        (sstable it').source = (sstable it).source := by
      intro it' h
      rw [source, source, h.1, h.2]
    cases start with
    | first => exact hsource (SSTableIterator.same_skipUntilVisible read [] it.fuel _)
    | target key => exact hsource (SSTableIterator.same_skipUntilVisible read key it.fuel _)

theorem source_next (read : TableFile.Reader) (c : InternalIterator) :
    (c.next read).source = c.source := by
  cases c with
  | memtable it =>
    show (memtable it.next).source = _
    unfold MemTableIterator.next
    split <;> rfl
  | sstable it =>
    show (sstable (it.next read)).source = _
    unfold SSTableIterator.next
    split
    · have hraw := SSTableIterator.same_advanceRaw it
      have hskip := SSTableIterator.same_skipUntilVisible read [] it.fuel it.advanceRaw
      rw [source, source, hskip.1, hskip.2, hraw.1, hraw.2]
    · rfl

theorem position_congr (read : TableFile.Reader) (start : ScanStart) {c' : InternalIterator}
    (h : c.source = c'.source) : c.position read start = c'.position read start := by
  cases c with
  | memtable it =>
    cases c' with
    | memtable it' =>
      obtain ⟨entries, index, status⟩ := it
      obtain ⟨entries', index', status'⟩ := it'
      cases h
      cases start <;> rfl
    | sstable it' => cases h
  | sstable it =>
    cases c' with
    | memtable it' => cases h
    | sstable it' =>
      obtain ⟨table, readSequence, _, _, _, _, _⟩ := it
      obtain ⟨table', readSequence', _, _, _, _, _⟩ := it'
      cases h
      cases start <;> rfl

theorem valid_of_failed (h : c.status ≠ .ok) : c.valid = false := by
  cases c with
  | memtable it =>
    have hs : it.status ≠ .ok := h
    simp [valid, current?, MemTableIterator.current?, hs]
  | sstable it =>
    have hs : it.status ≠ .ok := h
    simp [valid, current?, SSTableIterator.current?, hs]

end InternalIterator

/-! ## The merge -/

namespace MergingIterator

variable {Q : Prop} {read : TableFile.Reader} {start : ScanStart} {m : MergingIterator}

def position (read : TableFile.Reader) (start : ScanStart) (m : MergingIterator) :
    MergingIterator :=
  match start with
  | .first => m.seekToFirst read
  | .target key => m.seek read key

theorem position_eq (read : TableFile.Reader) (start : ScanStart) (m : MergingIterator) :
    m.position read start = advanceToNextVisible read
      (rebuildHeap { m with children := m.children.map (InternalIterator.position read start) }) := by
  cases start <;> rfl

def Intact (Q : Prop) (read : TableFile.Reader) (start : ScanStart) (m : MergingIterator) : Prop :=
  ∀ c ∈ m.children, c.Intact Q read start

variable {c : InternalIterator} {u : MergingIterator} {r j n : Nat} {tables : List TableFile}

theorem advancePast_of_failed (read : TableFile.Reader) (key : Bytes) (fuel : Nat)
    (h : c.status ≠ .ok) : advancePast read key fuel c = c := by
  cases fuel with
  | zero => rfl
  | succ fuel =>
    rw [advancePast, if_neg]
    rintro ⟨hv, _⟩
    rw [InternalIterator.valid_of_failed h] at hv
    cases hv

theorem advancePast_damaged (key : Bytes) (fuel : Nat) (h : c.Intact Q read start) :
    (advancePast read key fuel c = advancePast TableFile.Reader.plain key fuel c ∧
        (advancePast TableFile.Reader.plain key fuel c).Intact Q read start) ∨
      (Q ∧ (advancePast read key fuel c).status ≠ .ok) := by
  induction fuel generalizing c with
  | zero => exact Or.inl ⟨rfl, h⟩
  | succ fuel ih =>
    rw [advancePast, advancePast]
    split
    · rcases InternalIterator.next_damaged h with ⟨heq, hin⟩ | ⟨hq, herr⟩
      · rw [heq]
        exact ih hin
      · rw [advancePast_of_failed read key fuel herr]
        exact Or.inr ⟨hq, herr⟩
    · exact Or.inl ⟨rfl, h⟩

theorem advanceChildPastKey_damaged (i : Nat) (key : Bytes) (h : m.Intact Q read start) :
    (advanceChildPastKey read m i key = advanceChildPastKey TableFile.Reader.plain m i key ∧
        (advanceChildPastKey TableFile.Reader.plain m i key).Intact Q read start) ∨
      (Q ∧ (advanceChildPastKey read m i key).status ≠ .ok) := by
  unfold advanceChildPastKey
  split
  · exact Or.inl ⟨rfl, h⟩
  · rename_i c hc
    have hchild := h c (List.mem_of_getElem? hc)
    rcases advancePast_damaged key (c.capacity + 1) hchild with ⟨heq, hin⟩ | ⟨hq, herr⟩
    · rw [heq]
      refine Or.inl ⟨rfl, ?_⟩
      generalize advancePast TableFile.Reader.plain key (c.capacity + 1) c = c' at hin
      have hset : ∀ x ∈ m.children.set i c', x.Intact Q read start := by
        intro x hx
        rcases List.mem_or_eq_of_mem_set hx with hx | rfl
        · exact h x hx
        · exact hin
      dsimp only
      split
      · exact hset
      · split
        · exact hset
        · exact hset
    · refine Or.inr ⟨hq, ?_⟩
      dsimp only
      rw [if_pos herr]
      exact herr

theorem advanceChildPastKey_failed (read : TableFile.Reader) (i : Nat) (key : Bytes)
    (h : m.status ≠ .ok) : (advanceChildPastKey read m i key).status ≠ .ok := by
  unfold advanceChildPastKey
  split
  · exact h
  · dsimp only
    split
    · rename_i herr
      exact herr
    · split
      · exact h
      · exact h

theorem passKey_failed (read : TableFile.Reader) (key : Bytes) (fuel : Nat)
    (h : m.status ≠ .ok) : (passKey read key fuel m).status ≠ .ok := by
  induction fuel generalizing m with
  | zero => exact h
  | succ fuel ih =>
    rw [passKey]
    split
    · exact h
    · split
      · exact ih (advanceChildPastKey_failed (m := { m with heap := m.heap.erase _ }) read _ key h)
      · exact h

theorem passKey_damaged (key : Bytes) (fuel : Nat) (h : m.Intact Q read start) :
    (passKey read key fuel m = passKey TableFile.Reader.plain key fuel m ∧
        (passKey TableFile.Reader.plain key fuel m).Intact Q read start) ∨
      (Q ∧ (passKey read key fuel m).status ≠ .ok) := by
  induction fuel generalizing m with
  | zero => exact Or.inl ⟨rfl, h⟩
  | succ fuel ih =>
    rw [passKey, passKey]
    split
    · exact Or.inl ⟨rfl, h⟩
    · rename_i i _
      split
      · have herased : Intact Q read start { m with heap := m.heap.erase i } := h
        rcases advanceChildPastKey_damaged i key herased with ⟨heq, hin⟩ | ⟨hq, herr⟩
        · rw [heq]
          exact ih hin
        · exact Or.inr ⟨hq, passKey_failed read key fuel herr⟩
      · exact Or.inl ⟨rfl, h⟩

theorem advanceLoop_failed (read : TableFile.Reader) (fuel : Nat) (h : m.status ≠ .ok) :
    advanceLoop read fuel m = m := by
  cases fuel with
  | zero => rfl
  | succ fuel => rw [advanceLoop, if_pos h]

theorem advanceLoop_damaged (fuel : Nat) (h : m.Intact Q read start) :
    (advanceLoop read fuel m = advanceLoop TableFile.Reader.plain fuel m ∧
        (advanceLoop TableFile.Reader.plain fuel m).Intact Q read start) ∨
      (Q ∧ (advanceLoop read fuel m).status ≠ .ok) := by
  induction fuel generalizing m with
  | zero => exact Or.inl ⟨rfl, h⟩
  | succ fuel ih =>
    rw [advanceLoop, advanceLoop]
    split
    · exact Or.inl ⟨rfl, h⟩
    · split
      · exact Or.inl ⟨rfl, h⟩
      · rename_i i _
        rcases passKey_damaged (entryAt m.children i).key (m.children.length + 1) h with
          ⟨heq, hin⟩ | ⟨hq, herr⟩
        · dsimp only
          rw [heq]
          split
          · exact ih hin
          · exact Or.inl ⟨rfl, hin⟩
        · -- the key is passed, and the error found on the way is kept
          refine Or.inr ⟨hq, ?_⟩
          dsimp only
          split
          · rw [advanceLoop_failed read fuel herr]
            exact herr
          · exact herr

theorem next_damaged (h : m.Intact Q read start) :
    (m.next read = m.next TableFile.Reader.plain ∧
        (m.next TableFile.Reader.plain).Intact Q read start) ∨
      (Q ∧ (m.next read).status ≠ .ok) := by
  unfold next
  split
  · exact advanceLoop_damaged _ (m := { m with found := false }) h
  · exact Or.inl ⟨rfl, h⟩

theorem next_failed (read : TableFile.Reader) (h : m.status ≠ .ok) : m.next read = m := by
  rw [next, if_neg]
  simp [valid, h]

theorem rebuildLoop_failed (cs : List InternalIterator) (i : Nat) (heap : List Nat) (hc : c ∈ cs)
    (h : c.status ≠ .ok) : (rebuildLoop cs i heap).2 ≠ .ok := by
  induction cs generalizing i heap with
  | nil => cases hc
  | cons d ds ih =>
    rw [rebuildLoop]
    split
    · rename_i hd
      exact hd
    · rename_i hd
      rcases List.mem_cons.mp hc with rfl | hc
      · exact absurd h hd
      · exact ih _ _ hc

/-- A positioned source either stands where it would on undamaged tables, or the scan
begins with an error. -/
theorem position_damaged (start : ScanStart) (h : ∀ c ∈ m.children, c.FailsIf Q read) :
    (m.position read start = m.position TableFile.Reader.plain start ∧
        (m.position TableFile.Reader.plain start).Intact Q read start) ∨
      (Q ∧ (m.position read start).status ≠ .ok) := by
  rw [position_eq, position_eq]
  by_cases hall : ∃ c ∈ m.children, Q ∧ (c.position read start).status ≠ .ok
  · obtain ⟨c, hc, hq, herr⟩ := hall
    have hst := rebuildLoop_failed (m.children.map (InternalIterator.position read start)) 0 []
      (List.mem_map_of_mem hc) herr
    have hrebuilt : (rebuildHeap { m with
        children := m.children.map (InternalIterator.position read start) }).status ≠ .ok := hst
    refine Or.inr ⟨hq, ?_⟩
    rw [advanceToNextVisible, advanceLoop_failed]
    · exact hrebuilt
    · exact hrebuilt
  · have hsame : ∀ c ∈ m.children,
        c.position read start = c.position TableFile.Reader.plain start ∧
          (c.position TableFile.Reader.plain start).Intact Q read start := by
      intro c hc
      rcases InternalIterator.position_damaged start (h c hc) with hsame | hfailed
      · exact hsame
      · exact absurd ⟨c, hc, hfailed⟩ hall
    have hmap : m.children.map (InternalIterator.position read start) =
        m.children.map (InternalIterator.position TableFile.Reader.plain start) :=
      List.map_congr_left fun c hc => (hsame c hc).1
    rw [hmap]
    refine advanceLoop_damaged _ ?_
    intro c hc
    obtain ⟨d, hd, rfl⟩ := List.mem_map.mp hc
    exact (hsame d hd).2

/-! ### Sources -/

theorem map_source_set {cs : List InternalIterator} {i : Nat} {c' : InternalIterator}
    (hc : cs[i]? = some c) (h : c'.source = c.source) :
    (cs.set i c').map InternalIterator.source = cs.map InternalIterator.source := by
  obtain ⟨hi, rfl⟩ := List.getElem?_eq_some_iff.mp hc
  rw [List.map_set, h, ← List.getElem_map InternalIterator.source (h := by simpa using hi)]
  exact List.set_getElem_self _

theorem advancePast_source (read : TableFile.Reader) (key : Bytes) (fuel : Nat)
    (c : InternalIterator) : (advancePast read key fuel c).source = c.source := by
  induction fuel generalizing c with
  | zero => rfl
  | succ fuel ih =>
    rw [advancePast]
    split
    · rw [ih, InternalIterator.source_next]
    · rfl

def sources (m : MergingIterator) : List ((List VersionedEntry × Status) ⊕ (TableFile × Nat)) :=
  m.children.map InternalIterator.source

theorem failsIf_of_sources (hs : m.sources = u.sources) (h : ∀ c ∈ u.children, c.FailsIf Q read) :
    ∀ c ∈ m.children, c.FailsIf Q read := by
  intro c hc
  have hmem : c.source ∈ u.sources := hs ▸ List.mem_map_of_mem hc
  obtain ⟨d, hd, heq⟩ := List.mem_map.mp hmem
  have hfails := h d hd
  cases c with
  | memtable it => trivial
  | sstable it =>
    cases d with
    | memtable it' => cases heq
    | sstable it' =>
      obtain ⟨htable, _⟩ := Prod.mk.inj (Sum.inr.inj heq)
      show read.FailsIf Q it.table
      exact htable ▸ hfails

theorem advanceChildPastKey_sources (read : TableFile.Reader) (m : MergingIterator) (i : Nat)
    (key : Bytes) : (advanceChildPastKey read m i key).sources = m.sources := by
  unfold advanceChildPastKey
  split
  · rfl
  · rename_i c hc
    have hset := map_source_set hc (advancePast_source read key (c.capacity + 1) c)
    dsimp only
    split
    · exact hset
    · split
      · exact hset
      · exact hset

theorem passKey_sources (read : TableFile.Reader) (key : Bytes) (fuel : Nat)
    (m : MergingIterator) : (passKey read key fuel m).sources = m.sources := by
  induction fuel generalizing m with
  | zero => rfl
  | succ fuel ih =>
    rw [passKey]
    split
    · rfl
    · split
      · rw [ih, advanceChildPastKey_sources]
        rfl
      · rfl

theorem advanceLoop_sources (read : TableFile.Reader) (fuel : Nat) (m : MergingIterator) :
    (advanceLoop read fuel m).sources = m.sources := by
  induction fuel generalizing m with
  | zero => rfl
  | succ fuel ih =>
    rw [advanceLoop]
    split
    · rfl
    · split
      · rfl
      · rename_i i _
        have hpass := passKey_sources read (entryAt m.children i).key (m.children.length + 1) m
        dsimp only
        split
        · rw [ih, hpass]
        · exact hpass

theorem position_sources (read : TableFile.Reader) (start : ScanStart) (m : MergingIterator) :
    (m.position read start).sources = m.sources := by
  rw [position_eq, advanceToNextVisible, advanceLoop_sources]
  show (m.children.map (InternalIterator.position read start)).map InternalIterator.source = _
  rw [List.map_map]
  exact List.map_congr_left fun c _ => InternalIterator.source_position read start c

theorem next_sources (read : TableFile.Reader) (m : MergingIterator) :
    (m.next read).sources = m.sources := by
  unfold next
  split
  · exact advanceLoop_sources read _ _
  · rfl

/-! ### The entry last shown

An iterator that shows nothing may still carry the entry it showed before. -/

/-- The same iterator, apart from an entry that is not shown. -/
def Alike (m u : MergingIterator) : Prop :=
  m = { u with current := m.current } ∧ (u.found = true → m = u)

theorem advanceChildPastKey_current (read : TableFile.Reader) (m : MergingIterator)
    (e : VersionedEntry) (i : Nat) (key : Bytes) :
    advanceChildPastKey read { m with current := e } i key =
      { advanceChildPastKey read m i key with current := e } := by
  unfold advanceChildPastKey
  dsimp only
  split
  · rfl
  · split
    · rfl
    · split
      · rfl
      · rfl

theorem passKey_current (read : TableFile.Reader) (key : Bytes) (fuel : Nat) (m : MergingIterator)
    (e : VersionedEntry) :
    passKey read key fuel { m with current := e } =
      { passKey read key fuel m with current := e } := by
  induction fuel generalizing m with
  | zero => rfl
  | succ fuel ih =>
    rw [passKey, passKey]
    dsimp only
    split
    · rfl
    · rename_i i _
      split
      · have hchild := advanceChildPastKey_current read { m with heap := m.heap.erase i } e i key
        dsimp only at hchild
        rw [hchild, ih]
      · rfl

theorem advanceLoop_current (read : TableFile.Reader) (fuel : Nat) (h : m.found = false)
    (e : VersionedEntry) :
    Alike (advanceLoop read fuel { m with current := e }) (advanceLoop read fuel m) := by
  have hstop : Alike { m with current := e } m := ⟨rfl, fun hf => by simp [h] at hf⟩
  induction fuel generalizing m with
  | zero => exact hstop
  | succ fuel ih =>
    rw [advanceLoop, advanceLoop]
    dsimp only
    split
    · exact hstop
    · split
      · exact hstop
      · rename_i i _
        rw [passKey_current]
        split
        · have hfound : (passKey read (entryAt m.children i).key (m.children.length + 1) m).found =
              false := by
            rw [passKey_found]
            exact h
          exact ih hfound ⟨rfl, fun hf => by simp [hfound] at hf⟩
        · exact ⟨rfl, fun _ => rfl⟩

theorem position_alike (read : TableFile.Reader) (start : ScanStart) (h : m.sources = u.sources) :
    Alike (m.position read start) (u.position read start) := by
  have hmap : m.children.map (InternalIterator.position read start) =
      u.children.map (InternalIterator.position read start) := by
    apply List.ext_getElem?
    intro i
    have hi := congrArg (·[i]?) h
    simp only [sources, List.getElem?_map] at hi ⊢
    cases hm : m.children[i]? with
    | none =>
      rw [hm] at hi
      rw [Option.map_eq_none_iff.mp hi.symm]
    | some c =>
      rw [hm] at hi
      obtain ⟨d, hd, hs⟩ := Option.map_eq_some_iff.mp hi.symm
      rw [hd, Option.map_some, Option.map_some,
        InternalIterator.position_congr read start hs.symm]
  rw [position_eq, position_eq, hmap]
  exact advanceLoop_current read _ (m := { rebuildHeap { u with
    children := u.children.map (InternalIterator.position read start) } with found := false })
    rfl m.current

/-! ### A scan follows the undamaged one -/

/-- The scan stands where the undamaged one stands, or has failed. -/
def Follows (Q : Prop) (read : TableFile.Reader) (start : ScanStart) (m u : MergingIterator) : Prop :=
  (Alike m u ∧ u.Intact Q read start) ∨ (Q ∧ m.status ≠ .ok)

theorem follows_position (start : ScanStart) (hread : ∀ c ∈ m.children, c.FailsIf Q read)
    (h : m.sources = u.sources) :
    Follows Q read start (m.position read start) (u.position TableFile.Reader.plain start) := by
  rcases position_damaged start hread with ⟨heq, hin⟩ | herr
  · have halike := position_alike TableFile.Reader.plain start h
    rw [heq]
    refine Or.inl ⟨halike, ?_⟩
    have hchildren := congrArg MergingIterator.children halike.1
    intro c hc
    refine hin c ?_
    rw [hchildren]
    exact hc
  · exact Or.inr herr

theorem Follows.next (h : Follows Q read start m u) :
    Follows Q read start (m.next read) (u.next TableFile.Reader.plain) := by
  rcases h with ⟨⟨heq, hfound⟩, hin⟩ | ⟨hq, herr⟩
  · by_cases hf : u.found = true
    · rw [hfound hf]
      rcases next_damaged hin with ⟨heq', hin'⟩ | herr
      · exact Or.inl ⟨⟨by rw [heq'], fun _ => heq'⟩, hin'⟩
      · exact Or.inr herr
    · have hm : m.found = u.found := by rw [heq]
      have hf : u.found = false := by simpa using hf
      have hnm : m.next read = m := by
        rw [MergingIterator.next, if_neg]
        simp [valid, hm, hf]
      have hnu : u.next TableFile.Reader.plain = u := by
        rw [MergingIterator.next, if_neg]
        simp [valid, hf]
      rw [hnm, hnu]
      exact Or.inl ⟨⟨heq, hfound⟩, hin⟩
  · rw [next_failed read herr]
    exact Or.inr ⟨hq, herr⟩

theorem Alike.observe (h : Alike m u) :
    m.status = u.status ∧ m.valid = u.valid ∧ m.key = u.key ∧ m.value = u.value := by
  obtain ⟨heq, hfound⟩ := h
  by_cases hf : u.found = true
  · rw [hfound hf]
    exact ⟨rfl, rfl, rfl, rfl⟩
  · have hf : u.found = false := by simpa using hf
    have hs : m.status = u.status := by rw [heq]
    have hm : m.found = false := by rw [heq, hf]
    have hvm : m.valid = false := by simp [valid, hm]
    have hvu : u.valid = false := by simp [valid, hf]
    exact ⟨hs, hvm.trans hvu.symm, by simp [key, hvm, hvu], by simp [value, hvm, hvu]⟩

/-! ## Whole scans -/

def merged (r : Nat) (tables : List TableFile) (mems : List (List VersionedEntry)) :
    MergingIterator :=
  { children := tables.map (fun t => InternalIterator.sstable (SSTableIterator.new t r)) ++
      mems.map fun es => InternalIterator.memtable (MemTableIterator.new es r .ok) }

/-- The iterator after any calls, a seek and `n` times `Next`. -/
def scan (read : TableFile.Reader) (m : MergingIterator) (calls : List Call) (start : ScanStart) :
    Nat → MergingIterator
  | 0 => (calls.foldl (callOn read) m).position read start
  | n + 1 => (scan read m calls start n).next read

theorem callOn_sources (read : TableFile.Reader) (m : MergingIterator) (c : Call) :
    (m.callOn read c).sources = m.sources := by
  cases c with
  | seekToFirst => exact position_sources read .first m
  | seek target => exact position_sources read (.target target) m
  | next => exact next_sources read m

theorem calls_sources (read : TableFile.Reader) (calls : List Call) (m : MergingIterator) :
    (calls.foldl (callOn read) m).sources = m.sources := by
  induction calls generalizing m with
  | nil => rfl
  | cons c cs ih => rw [List.foldl_cons, ih, callOn_sources]

theorem merged_failsIf (mems : List (List VersionedEntry)) (h : ∀ t ∈ tables, read.FailsIf Q t) :
    ∀ c ∈ (merged r tables mems).children, c.FailsIf Q read := by
  intro c hc
  rcases List.mem_append.mp hc with hc | hc
  · obtain ⟨t, ht, rfl⟩ := List.mem_map.mp hc
    exact h t ht
  · obtain ⟨es, _, rfl⟩ := List.mem_map.mp hc
    trivial

theorem scan_follows (hread : ∀ c ∈ m.children, c.FailsIf Q read) (calls : List Call)
    (start : ScanStart) (n : Nat) :
    Follows Q read start (scan read m calls start n) (scan TableFile.Reader.plain m [] start n) := by
  have hsources := calls_sources read calls m
  induction n with
  | zero => exact follows_position start (failsIf_of_sources hsources hread) hsources
  | succ n ih => exact ih.next

theorem scanView_filter_seen {es : List VersionedEntry} (hf : Functional (setOf es)) (r : Nat) :
    scanView (es.filter fun e => e.sequence ≤ r) r = scanView es r := by
  apply view_ext (scanView_sorted _ _) (scanView_sorted _ _)
  intro k v
  have hsame : visible (es.filter fun e => decide (e.sequence ≤ r)) k r = visible es k r := by
    refine visible_congr (hf.mono fun x hx => List.mem_of_mem_filter hx) hf
      (sameView_of_congr fun x hx => ?_)
    rw [mem_setOf, mem_setOf, List.mem_filter]
    exact ⟨fun h => h.1, fun h => ⟨h, decide_eq_true hx⟩⟩
  rw [mem_scanView, mem_scanView, hsame]

section Undamaged

variable {tables : List TableFile} {mems : List (List VersionedEntry)} {r : Nat}

def visibleRuns (r : Nat) (tables : List TableFile) (mems : List (List VersionedEntry)) :
    List (List VersionedEntry) :=
  (tables.map TableFile.entries ++ mems).map fun es => es.filter fun e => e.sequence ≤ r

theorem flatten_visibleRuns :
    (visibleRuns r tables mems).flatten =
      (tables.flatMap TableFile.entries ++ mems.flatten).filter fun e => e.sequence ≤ r := by
  rw [visibleRuns, ← List.filter_flatten, List.flatten_append, List.flatMap_def]

theorem merged_sources (ht : ∀ t ∈ tables, t.Wf) :
    (merged r tables mems).Sources r (visibleRuns r tables mems) := by
  refine ⟨by simp [merged, visibleRuns], ?_⟩
  intro i c hc
  simp only [merged, List.getElem?_append, List.length_map, List.getElem?_map] at hc
  rw [List.getD_eq_getElem?_getD, visibleRuns, List.getElem?_map, List.getElem?_append,
    List.length_map]
  split at hc
  · rename_i hi
    rw [if_pos hi]
    rw [List.getElem?_eq_getElem hi] at hc
    cases hc
    rw [List.getElem?_map, List.getElem?_eq_getElem hi]
    exact InternalIterator.ready_sstable (ht _ (List.getElem_mem hi)) r
  · rename_i hi
    rw [if_neg hi]
    cases hm : mems[i - tables.length]? with
    | none =>
      rw [hm] at hc
      cases hc
    | some es =>
      rw [hm] at hc
      cases hc
      exact InternalIterator.ready_memtable es r

theorem visibleRuns_consistent (ht : ∀ t ∈ tables, t.Wf) (hm : ∀ es ∈ mems, SortedRun es)
    (hf : Functional (setOf (tables.flatMap TableFile.entries ++ mems.flatten))) :
    Consistent r (visibleRuns r tables mems) := by
  have hget : ∀ i, ∃ es, SortedRun es ∧
      (visibleRuns r tables mems).getD i [] = es.filter fun e => decide (e.sequence ≤ r) := by
    intro i
    rw [List.getD_eq_getElem?_getD, visibleRuns, List.getElem?_map]
    cases hi : (tables.map TableFile.entries ++ mems)[i]? with
    | none => exact ⟨[], List.Pairwise.nil, rfl⟩
    | some es =>
      refine ⟨es, ?_, rfl⟩
      rcases List.mem_append.mp (List.mem_of_getElem? hi) with h | h
      · obtain ⟨t, hmem, rfl⟩ := List.mem_map.mp h
        exact (ht t hmem).sorted
      · exact hm es h
  refine ⟨?_, ?_, ?_⟩
  · intro i
    obtain ⟨es, hs, he⟩ := hget i
    rw [he]
    exact hs.sublist List.filter_sublist
  · intro i e hmem
    obtain ⟨es, _, he⟩ := hget i
    rw [he] at hmem
    simpa using (List.mem_filter.mp hmem).2
  · rw [flatten_visibleRuns]
    exact hf.mono fun x hx => List.mem_of_mem_filter hx

theorem scan_shows (ht : ∀ t ∈ tables, t.Wf) (hm : ∀ es ∈ mems, SortedRun es)
    (hf : Functional (setOf (tables.flatMap TableFile.entries ++ mems.flatten)))
    (start : ScanStart) (hr : ∀ key, start = .target key → r ≤ maxUInt64) (n : Nat) :
    (scan TableFile.Reader.plain (merged r tables mems) [] start n).Shows r
      (visibleRuns r tables mems)
      ((start.rest (scanView (tables.flatMap TableFile.entries ++ mems.flatten) r)).drop n) := by
  have hsrc : (merged r tables mems).Sources r (visibleRuns r tables mems) := merged_sources ht
  have hcons := visibleRuns_consistent (r := r) ht hm hf
  have hview : scanView (visibleRuns r tables mems).flatten r =
      scanView (tables.flatMap TableFile.entries ++ mems.flatten) r := by
    rw [flatten_visibleRuns, scanView_filter_seen hf]
  induction n with
  | zero =>
    rw [← hview]
    cases start with
    | first => exact seekToFirst_shows hcons hsrc
    | target key => exact seek_shows hcons hsrc (hr key rfl) key
  | succ n ih =>
    rw [← List.tail_drop]
    exact next_shows ih

end Undamaged

def HasLoaded (start : ScanStart) (m : MergingIterator) (t : TableFile) (i : Nat) : Prop :=
  ∃ it : SSTableIterator, InternalIterator.sstable it ∈ m.children ∧ it.table = t ∧
    it.HasLoaded (start.block it) i

theorem scan_invalid (read : TableFile.Reader) (m : MergingIterator) (calls : List Call)
    (start : ScanStart) (h : (scan read m calls start n).valid = false) (hj : n ≤ j) :
    scan read m calls start j = scan read m calls start n := by
  induction j, hj using Nat.le_induction with
  | base => rfl
  | succ j _ ih =>
    rw [scan, ih, next, if_neg (by simp [h])]

theorem scan_failed (read : TableFile.Reader) (m : MergingIterator) (calls : List Call)
    (start : ScanStart) (h : (scan read m calls start n).status ≠ .ok) (hj : n ≤ j) :
    scan read m calls start j = scan read m calls start n :=
  scan_invalid read m calls start (by simp [valid, h]) hj

theorem scan_observe {mems : List (List VersionedEntry)} (ht : ∀ t ∈ tables, t.Wf)
    (hm : ∀ es ∈ mems, SortedRun es)
    (hf : Functional (setOf (tables.flatMap TableFile.entries ++ mems.flatten)))
    (hread : read.Damaged) (calls : List Call) (start : ScanStart)
    (hr : ∀ key, start = .target key → r ≤ maxUInt64)
    (hs : (scan read (merged r tables mems) calls start n).status = .ok) :
    ((scan read (merged r tables mems) calls start n).valid = true ↔
      n < (start.rest (scanView (tables.flatMap TableFile.entries ++ mems.flatten) r)).length) ∧
    ∀ k v, (start.rest (scanView (tables.flatMap TableFile.entries ++ mems.flatten) r))[n]? =
        some (k, v) →
      (scan read (merged r tables mems) calls start n).key = k ∧
      (scan read (merged r tables mems) calls start n).value = v := by
  rcases scan_follows (merged_failsIf mems fun t _ => hread.failsIf t) calls start n with ⟨halike, _⟩ | ⟨_, herr⟩
  · obtain ⟨_, hvalid, hkey, hvalue⟩ := halike.observe
    obtain ⟨_, huvalid, hushows⟩ := (scan_shows ht hm hf start hr n).observe
    rw [hvalid, hkey, hvalue, huvalid]
    refine ⟨by simp, fun k v hkv => hushows k v ?_⟩
    rw [List.head?_drop]
    exact hkv
  · exact absurd hs herr

/-- A scan never ends silently early, whichever blocks are damaged and whatever was
called before the seek. It ends with an OK status only when the whole rest of the view
has been shown. Once a block fails that the undamaged scan has loaded by then, it is
invalid with an error until the next seek. What it shows on the way is the view of the
undamaged tables, in order. -/
theorem scan_notSilent {tables : List TableFile} {mems : List (List VersionedEntry)} {r : Nat}
    (ht : ∀ t ∈ tables, t.Wf) (hm : ∀ es ∈ mems, SortedRun es)
    (hf : Functional (setOf (tables.flatMap TableFile.entries ++ mems.flatten)))
    (hr : r ≤ maxUInt64) (hread : read.Damaged) (calls : List Call) (start : ScanStart) (n : Nat) :
    ((scan read (merged r tables mems) calls start n).status = .ok →
      (scan read (merged r tables mems) calls start n).valid = false →
      ∀ k v, (k, v) ∈ start.rest (scanView (tables.flatMap TableFile.entries ++ mems.flatten) r) →
        ∃ j < n, (scan read (merged r tables mems) calls start j).valid = true ∧
          (scan read (merged r tables mems) calls start j).key = k ∧
          (scan read (merged r tables mems) calls start j).value = v) ∧
    ((∃ t i e, HasLoaded start (scan TableFile.Reader.plain (merged r tables mems) [] start n) t i ∧
        read t i = .error e) →
      (scan read (merged r tables mems) calls start n).status ≠ .ok) ∧
    ((scan read (merged r tables mems) calls start n).status ≠ .ok → ∀ j, n ≤ j →
      (scan read (merged r tables mems) calls start j).valid = false ∧
      (scan read (merged r tables mems) calls start j).status =
        (scan read (merged r tables mems) calls start n).status) ∧
    ((scan read (merged r tables mems) calls start n).valid = true →
      (start.rest (scanView (tables.flatMap TableFile.entries ++ mems.flatten) r))[n]? =
        some ((scan read (merged r tables mems) calls start n).key,
          (scan read (merged r tables mems) calls start n).value)) := by
  have hfollows := scan_follows (merged_failsIf (r := r) mems fun t (_ : t ∈ tables) => hread.failsIf t)
    calls start
  have hok : ∀ j, (scan read (merged r tables mems) calls start j).status = .ok → _ ∧ _ :=
    fun j hs => scan_observe ht hm hf hread calls start (fun _ _ => hr) hs
  generalize start.rest (scanView (tables.flatMap TableFile.entries ++ mems.flatten) r) = view at hok ⊢
  have hinvalid : ∀ j, (scan read (merged r tables mems) calls start j).status ≠ .ok →
      (scan read (merged r tables mems) calls start j).valid = false := by
    intro j hj
    simp [valid, hj]
  refine ⟨?_, ?_, ?_, ?_⟩
  · intro hs hv k v hkv
    obtain ⟨j, hj, hget⟩ := List.mem_iff_getElem.mp hkv
    have hlen : view.length ≤ n := by
      by_contra hlt
      rw [(hok n hs).1.mpr (by omega)] at hv
      cases hv
    have hjn : j < n := by omega
    have hsj : (scan read (merged r tables mems) calls start j).status = .ok := by
      by_contra herr
      have hsame := scan_failed read (merged r tables mems) calls start herr (Nat.le_of_lt hjn)
      rw [hsame] at hs
      exact herr hs
    have hshown := (hok j hsj).2 k v (by rw [List.getElem?_eq_getElem hj, hget])
    exact ⟨j, hjn, (hok j hsj).1.mpr hj, hshown⟩
  · rintro ⟨t, i, e, ⟨it, hmem, rfl, hloaded⟩, herr⟩ hs
    rcases hfollows n with ⟨_, hin⟩ | ⟨_, hne⟩
    · obtain ⟨es, hes⟩ := (hin _ hmem).loaded i hloaded
      rw [herr] at hes
      cases hes
    · exact hne hs
  · intro hs j hj
    rw [scan_failed read (merged r tables mems) calls start hs hj]
    exact ⟨hinvalid n hs, rfl⟩
  · intro hv
    have hs : (scan read (merged r tables mems) calls start n).status = .ok := by
      by_contra hs
      rw [hinvalid n hs] at hv
      cases hv
    have hlt := (hok n hs).1.mp hv
    have hget := List.getElem?_eq_getElem hlt
    obtain ⟨hkey, hvalue⟩ := (hok n hs).2 _ _ hget
    rw [hget, hkey, hvalue]
    rfl

def twoBlocks : List VersionedEntry :=
  [⟨ascii "a", 1, ascii "x", false⟩, ⟨ascii "b", 2, ascii "y", false⟩]

def secondFails : TableFile.Reader := fun t i =>
  if i = 1 then .error (.corruption "SSTable data block checksum mismatch")
  else TableFile.Reader.plain t i

/-- The scan steps over the first key before it shows it, and meets the second block. -/
theorem scan_notSilent_secondBlock :
    (scan secondFails (merged 2 [SSTable.tableOf twoBlocks 1 10] []) [.next] .first 0).status =
      .corruption "SSTable data block checksum mismatch" ∧
    ∀ j, (scan secondFails (merged 2 [SSTable.tableOf twoBlocks 1 10] []) [.next] .first j).valid =
      false := by
  have hrun : StrictRun twoBlocks := by
    unfold StrictRun
    decide
  have hwf : ∀ t ∈ [SSTable.tableOf twoBlocks 1 10], t.Wf := by
    intro t ht
    rw [List.mem_singleton.mp ht]
    exact SSTable.tableOf_wf 1 hrun.sorted (by decide) (by decide) (by decide)
  have hread : secondFails.Damaged := by
    intro t i
    unfold secondFails
    split
    · exact Or.inr ⟨_, by simp, rfl⟩
    · exact Or.inl rfl
  have hfun : Functional (setOf ([SSTable.tableOf twoBlocks 1 10].flatMap TableFile.entries ++
      ([] : List (List VersionedEntry)).flatten)) := by
    simp only [List.flatMap_cons, List.flatMap_nil, SSTable.tableOf_entries, List.append_nil,
      List.flatten_nil]
    exact hrun.sorted.functional
  have hstatus : (scan secondFails (merged 2 [SSTable.tableOf twoBlocks 1 10] []) [.next] .first
      0).status = .corruption "SSTable data block checksum mismatch" := by decide +kernel
  refine ⟨hstatus, fun j => ?_⟩
  have hmems : ∀ es ∈ ([] : List (List VersionedEntry)), SortedRun es := fun es hes => by cases hes
  have hscan := scan_notSilent hwf hmems hfun (r := 2) (by decide) hread [.next] .first 0
  exact (hscan.2.2.1 (by rw [hstatus]; simp) j (Nat.zero_le j)).1

end MergingIterator

end KvMem
