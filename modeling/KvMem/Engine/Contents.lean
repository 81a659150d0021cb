import KvMem.Engine.History
import KvMem.Engine.Sections

/-! # What the containers hold

The memtables hold consecutive parts of the history, from some log on; the tables
together with them show the whole history to every read that is still possible. The
results of all sections keep this up.
-/

namespace KvMem

open Versions Compaction

/-! ## Parts of the history in memtables -/

/-- A memtable holds exactly the versions of a part of the history. -/
structure MemHolds (m : MemTable) (part : Log) : Prop where
  strict : StrictRun m
  mem : ∀ e, e ∈ m ↔ e ∈ part.versions

/-- The immutable memtables hold consecutive parts, from log `start` up to log `stop`. -/
inductive Queue (mems : List MemTable) (L : Log) : Nat → List ImmutableMemTable → Nat → Prop where
  | nil (stop : Nat) : Queue mems L stop [] stop
  | cons {imm : ImmutableMemTable} {rest : List ImmutableMemTable} {mid stop : Nat}
      (hle : imm.walFileNumber ≤ mid)
      (hmem : MemHolds (mems.getD imm.memtable []) (L.within imm.walFileNumber mid))
      (hrest : Queue mems L mid rest stop) : Queue mems L imm.walFileNumber (imm :: rest) stop

variable {mems mems' : List MemTable} {L L' : Log} {start stop : Nat}
  {queue : List ImmutableMemTable}

section

variable (h : Queue mems L start queue stop)

include h

theorem Queue.le : start ≤ stop := by
  induction h with
  | nil stop => exact Nat.le_refl _
  | cons hle _ _ ih => exact hle.trans ih

theorem Queue.holds :
    ∀ imm ∈ queue, ∃ a b, MemHolds (mems.getD imm.memtable []) (L.within a b) := by
  induction h with
  | nil stop => simp
  | @cons imm rest mid stop _ hmem _ ih =>
    intro other hother
    rcases List.mem_cons.mp hother with rfl | hrest
    · exact ⟨other.walFileNumber, mid, hmem⟩
    · exact ih other hrest

/-- Batches behind the queue and other memtables do not matter to it. -/
theorem Queue.congr (hmems : ∀ imm ∈ queue, mems'.getD imm.memtable [] = mems.getD imm.memtable [])
    (hlog : ∀ a b, b ≤ stop → L'.within a b = L.within a b) : Queue mems' L' start queue stop := by
  induction h with
  | nil stop => exact Queue.nil stop
  | @cons imm rest mid stop hle hmem hrest ih =>
    refine Queue.cons hle ?_ (ih (fun i hi => hmems i (List.mem_cons_of_mem imm hi)) hlog)
    rw [hmems imm List.mem_cons_self, hlog _ _ hrest.le]
    exact hmem

theorem Queue.snoc {imm : ImmutableMemTable} {next : Nat}
    (hwal : imm.walFileNumber = stop) (hle : stop ≤ next)
    (hmem : MemHolds (mems.getD imm.memtable []) (L.within stop next)) :
    Queue mems L start (queue ++ [imm]) next := by
  induction h with
  | nil stop =>
    subst hwal
    exact Queue.cons hle hmem (Queue.nil next)
  | cons hle' hmem' _ ih => exact Queue.cons hle' hmem' (ih hwal hle hmem)

end

variable {b n : Nat} {m : SSTableMeta} {t : OpenTable} {es : List VersionedEntry}

theorem within_eq_since (a : Nat) (h : ∀ p ∈ L, p.1 < b) : L.within a b = L.since a := by
  apply List.filter_congr
  intro p hp
  simp [h p hp]

theorem within_snoc {a : Nat} (r : WALBatchRecord) (h : b ≤ n) :
    Log.within (L ++ [(n, r)]) a b = L.within a b := by
  rw [Log.within, List.filter_append]
  have hnil : [(n, r)].filter (fun p : Nat × WALBatchRecord => decide (a ≤ p.1 ∧ p.1 < b)) = [] := by
    simp only [List.filter_eq_nil_iff, List.mem_singleton, forall_eq, decide_eq_true_eq, not_and,
      Nat.not_lt]
    exact fun _ => h
  rw [hnil, List.append_nil]
  rfl

theorem since_snoc (r : WALBatchRecord) (h : b ≤ n) :
    Log.since (L ++ [(n, r)]) b = L.since b ++ [(n, r)] := by
  rw [Log.since_append]
  congr 1
  simp [Log.since, h]

/-! ## Tables and their descriptions -/

/-- The recorded key range of a table is that of its entries. -/
structure Describes (m : SSTableMeta) (t : TableFile) : Prop where
  blank : Blank m ↔ t.entries = []
  range : ∀ e ∈ t.entries, m.smallestKey ≤ e.key ∧ e.key ≤ m.largestKey

/-- The open tables are those of the version, each with its description. -/
structure Aligned (metas : List SSTableMeta) (handles : List OpenTable) : Prop where
  numbers : (handles.map (·.fileNumber)).Perm (metas.map (·.fileNumber))
  described : ∀ m ∈ metas, ∀ h ∈ handles, h.fileNumber = m.fileNumber → Describes m h.table

/-- A table object in order. -/
structure HandleOk (h : OpenTable) : Prop where
  path : h.filePath = .sst h.fileNumber
  wf : h.table.Wf
  laid : h.table.Laid

variable {metas : List SSTableMeta} {handles : List OpenTable}

theorem Aligned.handle (h : Aligned metas handles) (hm : m ∈ metas) :
    ∃ t ∈ handles, t.fileNumber = m.fileNumber ∧ Describes m t.table := by
  have hmem : m.fileNumber ∈ handles.map (·.fileNumber) :=
    h.numbers.mem_iff.mpr (List.mem_map_of_mem hm)
  obtain ⟨t, ht, heq⟩ := List.mem_map.mp hmem
  exact ⟨t, ht, heq, h.described m hm t ht heq⟩

theorem Aligned.description (h : Aligned metas handles) (ht : t ∈ handles) :
    ∃ m ∈ metas, m.fileNumber = t.fileNumber ∧ Describes m t.table := by
  have hmem : t.fileNumber ∈ metas.map (·.fileNumber) :=
    h.numbers.mem_iff.mp (List.mem_map_of_mem ht)
  obtain ⟨m, hm, heq⟩ := List.mem_map.mp hmem
  exact ⟨m, hm, heq, h.described m hm t ht heq.symm⟩

theorem ordered_nodup (h : Manifest.Ordered metas) : (metas.map (·.fileNumber)).Nodup := by
  rw [List.Nodup, List.pairwise_map]
  exact h.imp fun hlt => Nat.ne_of_lt hlt

theorem Aligned.add (h : Aligned metas handles) (hnew : ∀ m' ∈ metas, m'.fileNumber ≠ m.fileNumber)
    (hnum : t.fileNumber = m.fileNumber) (hdesc : Describes m t.table) :
    Aligned (Manifest.sortByNumber (metas ++ [m])) (handles ++ [t]) := by
  have hperm := Manifest.sortByNumber_perm (metas ++ [m])
  refine ⟨?_, ?_⟩
  · have hmap := hperm.map (·.fileNumber)
    rw [List.map_append] at hmap ⊢
    refine (h.numbers.append ?_).trans hmap.symm
    simp [hnum]
  · intro m' hm' t' ht' heq
    rcases List.mem_append.mp (hperm.mem_iff.mp hm') with hm' | hm'
    · rcases List.mem_append.mp ht' with ht' | ht'
      · exact h.described m' hm' t' ht' heq
      · rw [List.mem_singleton.mp ht', hnum] at heq
        exact absurd heq.symm (hnew m' hm')
    · rw [List.mem_singleton.mp hm'] at heq ⊢
      rcases List.mem_append.mp ht' with ht' | ht'
      · obtain ⟨m'', hm'', heq', _⟩ := h.description ht'
        exact absurd (heq'.trans heq) (hnew m'' hm'')
      · rw [List.mem_singleton.mp ht']
        exact hdesc

theorem Aligned.filter (h : Aligned metas handles) (p : Nat → Bool) :
    Aligned (metas.filter fun m => p m.fileNumber) (handles.filter fun t => p t.fileNumber) := by
  refine ⟨?_, ?_⟩
  · have hfilter := h.numbers.filter p
    rwa [List.filter_map, List.filter_map] at hfilter
  · intro m hm t ht heq
    exact h.described m (List.mem_filter.mp hm).1 t (List.mem_filter.mp ht).1 heq

theorem ordered_add (h : Manifest.Ordered metas)
    (hnew : ∀ m' ∈ metas, m'.fileNumber ≠ m.fileNumber) :
    Manifest.Ordered (Manifest.sortByNumber (metas ++ [m])) := by
  apply Manifest.sortByNumber_ordered
  refine List.pairwise_append.mpr ⟨h.imp Nat.ne_of_lt, List.pairwise_singleton _ _, ?_⟩
  intro a ha b hb
  rw [List.mem_singleton.mp hb]
  exact hnew a ha

theorem mem_add {x : SSTableMeta} :
    x ∈ Manifest.sortByNumber (metas ++ [m]) ↔ x ∈ metas ∨ x = m := by
  rw [(Manifest.sortByNumber_perm _).mem_iff, List.mem_append, List.mem_singleton]

/-! ## Key ranges -/

theorem foldl_min_spec (es : List VersionedEntry) (k : Bytes) :
    (es.foldl (fun k x => min k x.key) k = k ∨
      ∃ e ∈ es, es.foldl (fun k x => min k x.key) k = e.key) ∧
    es.foldl (fun k x => min k x.key) k ≤ k ∧
    ∀ e ∈ es, es.foldl (fun k x => min k x.key) k ≤ e.key := by
  induction es generalizing k with
  | nil => exact ⟨Or.inl rfl, le_refl _, by simp⟩
  | cons x xs ih =>
    obtain ⟨hmem, hle, hall⟩ := ih (min k x.key)
    rw [List.foldl_cons]
    refine ⟨?_, hle.trans (min_le_left _ _), ?_⟩
    · rcases hmem with heq | ⟨e, he, heq⟩
      · rcases min_choice k x.key with hc | hc
        · exact Or.inl (heq.trans hc)
        · exact Or.inr ⟨x, List.mem_cons_self, heq.trans hc⟩
      · exact Or.inr ⟨e, List.mem_cons_of_mem x he, heq⟩
    · intro e he
      rcases List.mem_cons.mp he with rfl | he
      · exact hle.trans (min_le_right _ _)
      · exact hall e he

theorem foldl_max_spec (es : List VersionedEntry) (k : Bytes) :
    (es.foldl (fun k x => max k x.key) k = k ∨
      ∃ e ∈ es, es.foldl (fun k x => max k x.key) k = e.key) ∧
    k ≤ es.foldl (fun k x => max k x.key) k ∧
    ∀ e ∈ es, e.key ≤ es.foldl (fun k x => max k x.key) k := by
  induction es generalizing k with
  | nil => exact ⟨Or.inl rfl, le_refl _, by simp⟩
  | cons x xs ih =>
    obtain ⟨hmem, hle, hall⟩ := ih (max k x.key)
    rw [List.foldl_cons]
    refine ⟨?_, (le_max_left _ _).trans hle, ?_⟩
    · rcases hmem with heq | ⟨e, he, heq⟩
      · rcases max_choice k x.key with hc | hc
        · exact Or.inl (heq.trans hc)
        · exact Or.inr ⟨x, List.mem_cons_self, heq.trans hc⟩
      · exact Or.inr ⟨e, List.mem_cons_of_mem x he, heq⟩
    · intro e he
      rcases List.mem_cons.mp he with rfl | he
      · exact (le_max_right _ _).trans hle
      · exact hall e he

theorem keyRange_spec (hne : es ≠ []) :
    (∃ e ∈ es, (DB.keyRange es).1 = e.key) ∧ (∃ e ∈ es, (DB.keyRange es).2 = e.key) ∧
      ∀ e ∈ es, (DB.keyRange es).1 ≤ e.key ∧ e.key ≤ (DB.keyRange es).2 := by
  cases es with
  | nil => exact absurd rfl hne
  | cons x xs =>
    obtain ⟨hmin, hminle, hminall⟩ := foldl_min_spec xs x.key
    obtain ⟨hmax, hmaxle, hmaxall⟩ := foldl_max_spec xs x.key
    refine ⟨?_, ?_, ?_⟩
    · rcases hmin with heq | ⟨e, he, heq⟩
      · exact ⟨x, List.mem_cons_self, heq⟩
      · exact ⟨e, List.mem_cons_of_mem x he, heq⟩
    · rcases hmax with heq | ⟨e, he, heq⟩
      · exact ⟨x, List.mem_cons_self, heq⟩
      · exact ⟨e, List.mem_cons_of_mem x he, heq⟩
    · intro e he
      rcases List.mem_cons.mp he with rfl | he
      · exact ⟨hminle, hmaxle⟩
      · exact ⟨hminall e he, hmaxall e he⟩

structure Spans (smallest largest : Bytes) (es : List VersionedEntry) : Prop where
  empty : es = [] → smallest = [] ∧ largest = []
  least : es ≠ [] → ∃ e ∈ es, smallest = e.key
  greatest : es ≠ [] → ∃ e ∈ es, largest = e.key
  range : ∀ e ∈ es, smallest ≤ e.key ∧ e.key ≤ largest

theorem spans_keyRange (es : List VersionedEntry) :
    Spans (DB.keyRange es).1 (DB.keyRange es).2 es := by
  refine ⟨?_, fun hne => (keyRange_spec hne).1, fun hne => (keyRange_spec hne).2.1, ?_⟩
  · rintro rfl
    exact ⟨rfl, rfl⟩
  · intro e he
    exact (keyRange_spec (List.ne_nil_of_mem he)).2.2 e he

theorem spans_ends (h : SortedRun es) :
    Spans ((es.head?.map (·.key)).getD []) ((es.getLast?.map (·.key)).getD []) es := by
  cases es with
  | nil => exact ⟨fun _ => ⟨rfl, rfl⟩, fun hne => absurd rfl hne, fun hne => absurd rfl hne, by simp⟩
  | cons x xs =>
    have hlast : (x :: xs).getLast? = some ((x :: xs).getLast (List.cons_ne_nil x xs)) :=
      List.getLast?_eq_some_getLast _
    refine ⟨fun he => absurd he (List.cons_ne_nil x xs), ?_, ?_, ?_⟩
    · exact fun _ => ⟨x, List.mem_cons_self, rfl⟩
    · intro _
      refine ⟨_, List.getLast_mem (List.cons_ne_nil x xs), ?_⟩
      rw [hlast]
      rfl
    · intro e he
      refine ⟨?_, ?_⟩
      · show x.key ≤ e.key
        rcases List.mem_cons.mp he with rfl | he
        · exact le_refl _
        · exact ((List.pairwise_cons.mp h).1 e he).key_le
      · rw [hlast]
        show e.key ≤ ((x :: xs).getLast (List.cons_ne_nil x xs)).key
        rcases eq_or_ne e ((x :: xs).getLast (List.cons_ne_nil x xs)) with heq | hne
        · rw [← heq]
        · have hsplit := List.dropLast_append_getLast (List.cons_ne_nil x xs)
          rw [← hsplit] at h he
          rcases List.mem_append.mp he with he | he
          · exact ((List.pairwise_append.mp h).2.2 e he _ (List.mem_singleton_self _)).key_le
          · exact absurd (List.mem_singleton.mp he) hne

theorem Spans.describes {t : TableFile} (h : Spans m.smallestKey m.largestKey es)
    (ht : t.entries = es) (hkeys : ∀ e ∈ es, KeyOk e.key) : Describes m t ∧ Ranged m := by
  subst ht
  by_cases hne : t.entries = []
  · exact ⟨⟨iff_of_true (h.empty hne) hne, h.range⟩, Or.inl (h.empty hne)⟩
  · obtain ⟨a, ha, hsmall⟩ := h.least hne
    obtain ⟨b, hb, hlarge⟩ := h.greatest hne
    have ha' : m.smallestKey ≠ [] := hsmall ▸ (hkeys a ha).nonempty
    have hb' : m.largestKey ≠ [] := hlarge ▸ (hkeys b hb).nonempty
    refine ⟨⟨iff_of_false (fun hblank => ha' hblank.1) hne, h.range⟩, Or.inr ⟨ha', hb', ?_⟩⟩
    exact (h.range a ha).1.trans (h.range a ha).2

theorem Spans.wfMeta (h : Spans m.smallestKey m.largestKey es) (hkeys : ∀ e ∈ es, KeyOk e.key)
    (hpath : m.filePath = .sst m.fileNumber) (hpos : 1 ≤ m.fileNumber)
    (hle : m.fileNumber ≤ maxUInt64) (hlevel : m.level ≤ 2) (hsize : m.fileSize ≤ maxUInt64) :
    Manifest.WfMeta m := by
  have hclean : ∀ k : Bytes, (k = [] ∨ ∃ e ∈ es, k = e.key) → 10 ∉ k := by
    rintro k (rfl | ⟨e, he, rfl⟩)
    · simp
    · exact (hkeys e he).noNewline
  by_cases hne : es = []
  · obtain ⟨hs, hl⟩ := h.empty hne
    exact ⟨by omega, hle, hpath, hlevel, hsize, hclean _ (Or.inl hs), hclean _ (Or.inl hl),
      fun hs' => absurd hs hs'⟩
  · obtain ⟨a, ha, hsa⟩ := h.least hne
    refine ⟨by omega, hle, hpath, hlevel, hsize, hclean _ (Or.inr (h.least hne)),
      hclean _ (Or.inr (h.greatest hne)), fun _ _ => ?_⟩
    exact (h.range a ha).1.trans (h.range a ha).2

theorem fileSize_le (t : TableFile) : DB.fileSize t ≤ maxUInt64 :=
  Nat.le_of_lt_succ (Nat.mod_lt t.size (Nat.succ_pos maxUInt64))

/-! ## The database -/

def DB.tableEntries (db : DB) : List VersionedEntry := db.sstables.flatMap (·.table.entries)

/-- Active snapshots read from `m` on, or at the beginning, and are in order. -/
structure SnapshotsOk (db : DB) (m : Nat) : Prop where
  range : ∀ s ∈ db.snapshots, s.active = true →
    s.sequence ≤ db.lastSequence ∧ (s.sequence = 0 ∨ m ≤ s.sequence)
  order : db.snapshots.Pairwise fun a b => a.active = true → b.active = true →
    a.sequence ≤ b.sequence

/-- The memtables hold the history from log `start` on, the active one that from
`floor` on, and reads from `m` on see the whole history. -/
structure Contents (db : DB) (L : Log) (start floor m : Nat) : Prop where
  history : L.Ok
  last : ∀ p ∈ L, p.2.last ≤ db.lastSequence
  reached : L.Reaches db.lastSequence
  active : db.active + 1 = db.mems.length
  queued : ∀ imm ∈ db.immutables, imm.memtable < db.active
  mem : MemHolds db.activeMemtable (L.since floor)
  queue : Queue db.mems L start db.immutables floor
  handles : ∀ h ∈ db.sstables, HandleOk h
  aligned : Aligned db.edit.sstables db.sstables
  edit : Manifest.WfEdit db.edit
  levels : LevelsOk db.edit.sstables
  walStart : db.edit.walFileNumber ≤ start
  walOldest : db.edit.walFileNumber ≤ db.activeMemtableOldestWalFileNumber
  queueOldest : ∀ imm ∈ db.immutables,
    imm.walFileNumber ≤ db.activeMemtableOldestWalFileNumber
  oldest : db.activeMemtableOldestWalFileNumber ≤ floor
  floorNext : floor ≤ db.nextFileNumber
  view : Shows (setOf (db.tableEntries ++ (L.since start).versions)) (setOf L.versions) m
  reads : m ≤ db.lastSequence
  snapshots : SnapshotsOk db m

theorem activeMemtable_setMemtable {db : DB} (h : db.active + 1 = db.mems.length) (m : MemTable) :
    (db.setMemtable db.active m).activeMemtable = m := by
  show (db.mems.set db.active m).getD db.active [] = m
  rw [List.getD_eq_getElem?_getD, List.getElem?_set_self (by omega)]
  rfl

theorem getD_append_left {ms ns : List MemTable} {i : Nat} (h : i < ms.length) :
    (ms ++ ns).getD i [] = ms.getD i [] := by
  rw [List.getD_eq_getElem?_getD, List.getD_eq_getElem?_getD, List.getElem?_append_left h]

section Steps

variable {db : DB} {floor m : Nat}

variable {e : VersionedEntry} {db' : DB} {imm : ImmutableMemTable} {number : Nat}
  {ss : List Snapshot}

section

variable (h : Contents db L start floor m)

include h

theorem Contents.entries_mem (he : e ∈ db.tableEntries) : e ∈ L.versions :=
  h.view.subset (List.mem_append_left _ he)

theorem Contents.recordsFit {t : OpenTable} (ht : t ∈ db.sstables) :
    ∀ b ∈ t.table.blocks, SSTable.RecordsFit b := fun _ hb =>
  h.history.recordsFit fun _ he =>
    h.entries_mem (List.mem_flatMap.mpr ⟨t, ht, List.mem_flatten.mpr ⟨_, hb, he⟩⟩)

theorem Contents.sequence_le (he : e ∈ L.versions) : e.sequence ≤ db.lastSequence := by
  obtain ⟨p, hp, he⟩ := Log.mem_versions.mp he
  exact (Log.versions_range he).2.trans (h.last p hp)

theorem Contents.ordered : Manifest.Ordered db.edit.sstables := h.edit.ordered

theorem Contents.sorted : Manifest.Sorted db.edit.sstables :=
  Manifest.sortByNumber_of_ordered h.ordered

theorem Contents.start_le : start ≤ floor := h.queue.le

/-! ### Appending -/

theorem Contents.append {a : Nat} {r : WALBatchRecord}
    (hplace : ∀ p ∈ L, p.1 ≤ a) (hfloor : floor ≤ a) (hseq : r.sequence = db.lastSequence + 1)
    (hr : Wal.Appendable r) (hkeys : ∀ o ∈ r.batch, KeyOk o.key) :
    Contents ((db.setMemtable db.active
        (DB.applyBatch r.batch (db.lastSequence + 1) db.activeMemtable)).setLastSequence
          (db.lastSequence + r.batch.count)) (L ++ [(a, r)]) start floor m := by
  have hnewer : ∀ p ∈ L, p.2.last < r.sequence := by
    intro p hp
    have := h.last p hp
    omega
  have hrlast : r.last = db.lastSequence + r.batch.count := by
    unfold WALBatchRecord.last
    omega
  have hstart := h.start_le.trans hfloor
  have hversions : Log.versions [(a, r)] = r.versions := by
    simp [Log.versions]
  have hnewmem : ∀ x ∈ db.activeMemtable, x.sequence < db.lastSequence + 1 := by
    intro x hx
    have hx' := Log.since_versions_subset L floor ((h.mem.mem x).mp hx)
    have := h.sequence_le hx'
    omega
  have hrange := hr.range
  refine
    { history := h.history.snoc hplace hnewer hr hkeys
      last := ?_
      reached := Or.inr ⟨(a, r), List.mem_append_right L List.mem_cons_self, hrlast⟩
      active := ?_
      queued := h.queued
      mem := ?_
      queue := ?_
      handles := h.handles
      aligned := h.aligned
      edit := ?_
      levels := h.levels
      walStart := h.walStart
      walOldest := h.walOldest
      queueOldest := h.queueOldest
      oldest := h.oldest
      floorNext := h.floorNext
      view := ?_
      reads := ?_
      snapshots := ?_ }
  · intro p hp
    show p.2.last ≤ db.lastSequence + r.batch.count
    rcases List.mem_append.mp hp with hp | hp
    · have := h.last p hp
      omega
    · rw [List.mem_singleton.mp hp]
      exact Nat.le_of_eq hrlast
  · show db.active + 1 = (db.mems.set db.active _).length
    rw [List.length_set]
    exact h.active
  · show MemHolds (db.setMemtable db.active _).activeMemtable _
    rw [activeMemtable_setMemtable h.active, since_snoc r hfloor]
    refine ⟨applyBatch_strict h.mem.strict _ _, ?_⟩
    intro e
    rw [mem_applyBatch _ hnewmem, h.mem.mem, Log.versions_append, List.mem_append, hversions,
      WALBatchRecord.versions, hseq]
  · refine h.queue.congr ?_ fun x b hb => within_snoc r (hb.trans hfloor)
    intro imm himm
    show (db.mems.set db.active _).getD imm.memtable [] = _
    have hne : db.active ≠ imm.memtable := Nat.ne_of_gt (h.queued imm himm)
    rw [List.getD_eq_getElem?_getD, List.getD_eq_getElem?_getD, List.getElem?_set_ne hne]
  · have he := h.edit
    exact ⟨he.next_pos, he.next_le, he.wal_pos, he.wal_le, by
      show db.lastSequence + r.batch.count ≤ maxUInt64
      omega, he.ordered, he.files⟩
  · have hext := h.view.extend (N := setOf r.versions) (by
      intro x hx y hy
      have hxs := h.sequence_le hx
      have hys := (Log.versions_range hy).1
      show x.sequence < y.sequence
      omega)
    rw [since_snoc r hstart, Log.versions_append, Log.versions_append, hversions, ← List.append_assoc,
      setOf_append _ r.versions, setOf_append L.versions]
    exact hext
  · exact h.reads.trans (Nat.le_add_right _ _)
  · refine ⟨?_, h.snapshots.order⟩
    intro s hs hact
    obtain ⟨hle, hm⟩ := h.snapshots.range s hs hact
    exact ⟨hle.trans (Nat.le_add_right _ _), hm⟩

/-! ### Switching -/

/-- The state after a switch, and after `Close` has moved the active memtable. -/
theorem Contents.move {next : Nat} {e : VersionEdit}
    (hplace : ∀ p ∈ L, p.1 < next) (hfloor : floor ≤ next)
    (hwal : db.activeMemtableOldestWalFileNumber = floor)
    (himm : db'.immutables = db.immutables ++ [⟨db.active, db.activeMemtableOldestWalFileNumber⟩])
    (hmems : db'.mems = db.mems ++ [[]]) (hactive : db'.active = db.mems.length)
    (hsst : db'.sstables = db.sstables) (hsnap : db'.snapshots = db.snapshots)
    (hold : db.activeMemtableOldestWalFileNumber ≤ db'.activeMemtableOldestWalFileNumber)
    (hold' : db'.activeMemtableOldestWalFileNumber ≤ next) (he : db'.edit = e)
    (hwf : Manifest.WfEdit e) (hesst : e.sstables = db.edit.sstables)
    (hewal : e.walFileNumber = db.edit.walFileNumber) (heseq : e.lastSequence = db.lastSequence)
    (henext : next ≤ e.nextFileNumber) : Contents db' L start next m := by
  have hlast : db'.lastSequence = db.lastSequence := by
    rw [DB.lastSequence, he, heseq]
  have hentries : db'.tableEntries = db.tableEntries := by
    rw [DB.tableEntries, hsst]
    rfl
  have hold_lt : ∀ imm ∈ db.immutables, imm.memtable < db.mems.length := by
    intro imm himm'
    have := h.queued imm himm'
    have := h.active
    omega
  have hactive_lt : db.active < db.mems.length := by
    have := h.active
    omega
  refine
    { history := h.history
      last := fun p hp => by rw [hlast]; exact h.last p hp
      reached := by rw [hlast]; exact h.reached
      active := by rw [hactive, hmems, List.length_append]; rfl
      queued := ?_
      mem := ?_
      queue := ?_
      handles := by rw [hsst]; exact h.handles
      aligned := by rw [he, hesst, hsst]; exact h.aligned
      edit := by rw [he]; exact hwf
      levels := by rw [he, hesst]; exact h.levels
      walStart := by rw [he, hewal]; exact h.walStart
      walOldest := by rw [he, hewal]; exact h.walOldest.trans hold
      queueOldest := ?_
      oldest := hold'
      floorNext := by rw [DB.nextFileNumber, he]; exact henext
      view := by rw [hentries]; exact h.view
      reads := by rw [hlast]; exact h.reads
      snapshots := ?_ }
  · intro imm himm'
    rw [himm] at himm'
    rw [hactive]
    rcases List.mem_append.mp himm' with himm' | himm'
    · exact hold_lt imm himm'
    · rw [List.mem_singleton.mp himm']
      exact hactive_lt
  · have hnone : L.since next = [] := by
      rw [Log.since, List.filter_eq_nil_iff]
      intro p hp
      have := hplace p hp
      simp only [decide_eq_true_eq]
      omega
    have hempty : db'.activeMemtable = [] := by
      show db'.mems.getD db'.active [] = []
      rw [hmems, hactive, List.getD_eq_getElem?_getD, List.getElem?_append_right (Nat.le_refl _),
        Nat.sub_self]
      rfl
    rw [hempty, hnone]
    exact ⟨List.Pairwise.nil, fun e => Iff.rfl⟩
  · rw [himm]
    have hkeep : Queue db'.mems L start db.immutables floor :=
      h.queue.congr (fun imm himm' => by rw [hmems, getD_append_left (hold_lt imm himm')])
        fun _ _ _ => rfl
    refine hkeep.snoc hwal hfloor ?_
    rw [hmems, getD_append_left hactive_lt, within_eq_since floor hplace]
    exact h.mem
  · intro imm himm'
    rw [himm] at himm'
    rcases List.mem_append.mp himm' with himm' | himm'
    · exact (h.queueOldest imm himm').trans hold
    · rw [List.mem_singleton.mp himm']
      exact hold
  · refine ⟨?_, by rw [hsnap]; exact h.snapshots.order⟩
    intro s hs hact
    rw [hsnap] at hs
    rw [hlast]
    exact h.snapshots.range s hs hact

theorem Contents.switched (hplace : ∀ p ∈ L, p.1 < db.nextFileNumber)
    (hwal : db.activeMemtableOldestWalFileNumber = floor) (hmax : db.nextFileNumber ≠ maxUInt64) :
    Contents db.switched L start db.nextFileNumber m := by
  have he := h.edit
  have hle : db.nextFileNumber ≤ maxUInt64 := he.next_le
  exact h.move (e := { db.edit with nextFileNumber := db.nextFileNumber + 1 }) hplace h.floorNext
    hwal rfl rfl rfl rfl rfl (hwal.le.trans h.floorNext) (Nat.le_refl _) rfl
    ⟨Nat.succ_ne_zero _, by
      show db.nextFileNumber + 1 ≤ maxUInt64
      omega, he.wal_pos, he.wal_le, he.sequence_le, he.ordered, he.files⟩
    rfl rfl rfl (Nat.le_succ _)

end

/-! ### Publishing a flush -/

theorem levelsOk_add (h : LevelsOk metas) {x : SSTableMeta} (hlevel : x.level = 0) (hx : Ranged x) :
    LevelsOk (Manifest.sortByNumber (metas ++ [x])) := by
  refine ⟨?_, ?_, ?_⟩
  · intro y hy
    rcases mem_add.mp hy with hy | rfl
    · exact h.level_le y hy
    · omega
  · intro y hy
    rcases mem_add.mp hy with hy | rfl
    · exact h.ranged y hy
    · exact hx
  · intro a ha b hb hab hne
    rcases mem_add.mp ha with ha | rfl
    · rcases mem_add.mp hb with hb | rfl
      · exact h.apart a ha b hb hab hne
      · exact absurd (hab.trans hlevel) hne
    · exact absurd hlevel hne

theorem Queue.front {rest : List ImmutableMemTable} (h : Queue mems L start (imm :: rest) stop) :
    ∃ mid, start = imm.walFileNumber ∧ start ≤ mid ∧
      MemHolds (mems.getD imm.memtable []) (L.within start mid) ∧ Queue mems L mid rest stop := by
  cases h with
  | cons hle hmem hrest => exact ⟨_, rfl, hle, hmem, hrest⟩

theorem Queue.start_eq {rest : List ImmutableMemTable} (h : Queue mems L start (imm :: rest) stop) :
    start = imm.walFileNumber := by
  cases h with
  | cons _ _ _ => rfl

theorem Queue.nil_eq (h : Queue mems L start [] stop) : start = stop := by
  cases h with
  | nil => rfl

/-- What a build for the front memtable has to deliver. -/
structure FlushOk (db : DB) (imm : ImmutableMemTable) (number : Nat) (t : TableFile) : Prop where
  entries : t.entries = db.memtable imm.memtable
  wf : t.Wf
  laid : t.Laid
  new : ∀ m ∈ db.edit.sstables, m.fileNumber ≠ number
  pos : 1 ≤ number
  le : number ≤ maxUInt64

theorem Contents.flushed (h : Contents db L start floor m) {rest : List ImmutableMemTable}
    (hq : db.immutables = imm :: rest) {t : TableFile} (ht : FlushOk db imm number t) :
    ∃ start', start ≤ start' ∧
      (∀ e, e ∈ (L.since start).versions ↔
        e ∈ db.memtable imm.memtable ∨ e ∈ (L.since start').versions) ∧
      Contents (db.flushed imm number t) L start' floor m := by
  have hqueue := h.queue
  rw [hq] at hqueue
  obtain ⟨mid, hstart, hmid, hmem, hrest⟩ := hqueue.front
  have hmem' : MemHolds (db.memtable imm.memtable) (L.within start mid) := hmem
  have hmidFloor : mid ≤ floor := hrest.le
  have hkeys : ∀ e ∈ db.memtable imm.memtable, KeyOk e.key := by
    intro e he
    obtain ⟨p, hp, he'⟩ := Log.mem_versions.mp ((hmem'.mem e).mp he)
    exact h.history.keyOk (Log.mem_versions.mpr ⟨p, (Log.mem_within.mp hp).1, he'⟩)
  have hspans : Spans (DB.flushMeta number (db.memtable imm.memtable) t).smallestKey
      (DB.flushMeta number (db.memtable imm.memtable) t).largestKey (db.memtable imm.memtable) :=
    spans_ends hmem'.strict.sorted
  obtain ⟨hdesc, hranged⟩ := hspans.describes ht.entries hkeys
  have hlive : db.nextLiveWal ≤ mid ∧ db.edit.walFileNumber ≤ db.nextLiveWal ∧
      db.nextLiveWal ≤ db.activeMemtableOldestWalFileNumber := by
    unfold DB.nextLiveWal
    rw [hq]
    cases rest with
    | nil =>
      dsimp only
      have := hrest.nil_eq
      have := h.oldest
      exact ⟨by omega, h.walOldest, Nat.le_refl _⟩
    | cons next more =>
      dsimp only
      have hnext := hrest.start_eq
      have := h.walStart
      have hmem_next : next ∈ db.immutables := by
        rw [hq]
        exact List.mem_cons_of_mem imm List.mem_cons_self
      exact ⟨hnext.ge, by omega, h.queueOldest next hmem_next⟩
  have hnext_le := h.edit.next_le
  have hfloor := h.floorNext
  have hwf : Manifest.WfEdit (db.flushedEdit imm number t) := by
    have he := h.edit
    refine ⟨he.next_pos, he.next_le, ?_, ?_, he.sequence_le, ordered_add h.ordered ht.new, ?_⟩
    · have := he.wal_pos
      show db.nextLiveWal ≠ 0
      omega
    · show db.nextLiveWal ≤ maxUInt64
      have : db.nextFileNumber = db.edit.nextFileNumber := rfl
      omega
    · intro f hf
      rcases mem_add.mp hf with hf | rfl
      · exact he.files f hf
      · exact hspans.wfMeta hkeys rfl ht.pos ht.le (Nat.zero_le _) (fileSize_le t)
  have hmoved : ∀ e, e ∈ (L.since start).versions ↔
      e ∈ db.memtable imm.memtable ∨ e ∈ (L.since mid).versions := by
    intro e
    rw [hmem'.mem]
    exact Log.mem_versions_split L hmid e
  refine ⟨mid, hmid, hmoved, ?_⟩
  refine
    { history := h.history
      last := h.last
      reached := h.reached
      active := h.active
      queued := ?_
      mem := h.mem
      queue := ?_
      handles := ?_
      aligned := h.aligned.add ht.new rfl hdesc
      edit := hwf
      levels := levelsOk_add h.levels rfl hranged
      walStart := hlive.1
      walOldest := hlive.2.2
      queueOldest := ?_
      oldest := h.oldest
      floorNext := h.floorNext
      view := ?_
      reads := h.reads
      snapshots := ⟨h.snapshots.range, h.snapshots.order⟩ }
  · intro imm' himm'
    exact h.queued imm' (List.mem_of_mem_tail himm')
  · show Queue db.mems L mid db.immutables.tail floor
    rw [hq]
    exact hrest
  · intro handle hh
    rcases List.mem_append.mp hh with hh | hh
    · exact h.handles handle hh
    · rw [List.mem_singleton.mp hh]
      exact ⟨rfl, ht.wf, ht.laid⟩
  · intro imm' himm'
    exact h.queueOldest imm' (List.mem_of_mem_tail himm')
  · -- the versions only move from the memtable to the new table
    have hset : setOf ((db.flushed imm number t).tableEntries ++ (L.since mid).versions) =
        setOf (db.tableEntries ++ (L.since start).versions) := by
      ext e
      have hnew : (db.flushed imm number t).tableEntries = db.tableEntries ++ t.entries := by
        show (db.sstables ++ [db.handle number t]).flatMap _ = _
        rw [List.flatMap_append, List.flatMap_cons, List.flatMap_nil, List.append_nil]
        rfl
      rw [mem_setOf, mem_setOf, hnew, List.mem_append, List.mem_append, List.mem_append, ht.entries,
        hmoved, or_assoc]
    rw [hset]
    exact h.view

/-! ### Everything else -/

/-- The states agree on what is stored; numbers may have been handed out. -/
structure DB.Agrees (db db' : DB) : Prop where
  mems : db'.mems = db.mems
  active : db'.active = db.active
  immutables : db'.immutables = db.immutables
  sstables : db'.sstables = db.sstables
  snapshots : db'.snapshots = db.snapshots
  oldest : db'.activeMemtableOldestWalFileNumber = db.activeMemtableOldestWalFileNumber
  tables : db'.edit.sstables = db.edit.sstables
  wal : db'.edit.walFileNumber = db.edit.walFileNumber
  sequence : db'.lastSequence = db.lastSequence
  next : db.nextFileNumber ≤ db'.nextFileNumber

theorem Contents.agrees (h : Contents db L start floor m) (ha : db.Agrees db')
    (hwf : Manifest.WfEdit db'.edit) : Contents db' L start floor m := by
  have hactive : db'.activeMemtable = db.activeMemtable := by
    rw [DB.activeMemtable, DB.memtable, ha.mems, ha.active]
    rfl
  have hentries : db'.tableEntries = db.tableEntries := by
    rw [DB.tableEntries, ha.sstables]
    rfl
  exact
    { history := h.history
      last := ha.sequence ▸ h.last
      reached := ha.sequence ▸ h.reached
      active := by rw [ha.mems, ha.active]; exact h.active
      queued := by rw [ha.immutables, ha.active]; exact h.queued
      mem := by rw [hactive]; exact h.mem
      queue := by rw [ha.mems, ha.immutables]; exact h.queue
      handles := by rw [ha.sstables]; exact h.handles
      aligned := by rw [ha.tables, ha.sstables]; exact h.aligned
      edit := hwf
      levels := by rw [ha.tables]; exact h.levels
      walStart := by rw [ha.wal]; exact h.walStart
      walOldest := by rw [ha.wal, ha.oldest]; exact h.walOldest
      queueOldest := by rw [ha.immutables, ha.oldest]; exact h.queueOldest
      oldest := by rw [ha.oldest]; exact h.oldest
      floorNext := h.floorNext.trans ha.next
      view := by rw [hentries]; exact h.view
      reads := by rw [ha.sequence]; exact h.reads
      snapshots := ⟨by rw [ha.snapshots, ha.sequence]; exact h.snapshots.range,
        by rw [ha.snapshots]; exact h.snapshots.order⟩ }

theorem DB.Latched.agrees (h : DB.Latched db db') : db.Agrees db' := by
  obtain ⟨st, rfl, _⟩ := h
  exact ⟨rfl, rfl, rfl, rfl, rfl, rfl, rfl, rfl, rfl, Nat.le_refl _⟩

theorem DB.allocateFileNumber_ok {next : DB} (h : db.allocateFileNumber = .ok (number, next)) :
    number = db.nextFileNumber ∧ db.nextFileNumber ≠ maxUInt64 ∧
      next = db.setNextFileNumber (db.nextFileNumber + 1) := by
  unfold DB.allocateFileNumber at h
  split at h
  · cases h
  · rename_i hne
    simp only [Except.ok.injEq, Prod.mk.injEq] at h
    exact ⟨h.1.symm, hne, h.2.symm⟩

theorem Contents.allocated (h : Contents db L start floor m) {next : DB}
    (ha : db.allocateFileNumber = .ok (number, next)) : Contents next L start floor m := by
  obtain ⟨_, hne, rfl⟩ := DB.allocateFileNumber_ok ha
  have he := h.edit
  have hle : db.nextFileNumber ≤ maxUInt64 := he.next_le
  refine h.agrees ⟨rfl, rfl, rfl, rfl, rfl, rfl, rfl, rfl, rfl, Nat.le_succ _⟩ ?_
  exact ⟨Nat.succ_ne_zero _, by
    show db.nextFileNumber + 1 ≤ maxUInt64
    omega, he.wal_pos, he.wal_le, he.sequence_le, he.ordered, he.files⟩

theorem Contents.getSnapshot (h : Contents db L start floor m) :
    Contents db.getSnapshot L start floor m := by
  unfold DB.getSnapshot
  split
  · exact h
  · have hs := h.snapshots
    refine { h with snapshots := ⟨?_, ?_⟩ }
    · intro s hs' hact
      rcases List.mem_append.mp hs' with hs' | hs'
      · exact hs.range s hs' hact
      · rw [List.mem_singleton.mp hs']
        exact ⟨Nat.le_refl _, Or.inr h.reads⟩
    · refine List.pairwise_append.mpr ⟨hs.order, List.pairwise_singleton _ _, ?_⟩
      intro a ha b hb hact _
      rw [List.mem_singleton.mp hb]
      exact (hs.range a ha hact).1

theorem mem_modify_inactive {i : Nat} {s : Snapshot}
    (h : s ∈ ss.modify i fun s => { s with active := false }) (hact : s.active = true) :
    s ∈ ss := by
  induction ss generalizing i with
  | nil => simp at h
  | cons x xs ih =>
    cases i with
    | zero =>
      rcases List.mem_cons.mp h with rfl | h
      · cases hact
      · exact List.mem_cons_of_mem x h
    | succ i =>
      rcases List.mem_cons.mp h with rfl | h
      · exact List.mem_cons_self
      · exact List.mem_cons_of_mem x (ih h)

theorem pairwise_modify_inactive (i : Nat)
    (h : ss.Pairwise fun a b => a.active = true → b.active = true → a.sequence ≤ b.sequence) :
    (ss.modify i fun s => { s with active := false }).Pairwise fun a b =>
      a.active = true → b.active = true → a.sequence ≤ b.sequence := by
  induction ss generalizing i with
  | nil => simp
  | cons x xs ih =>
    obtain ⟨hx, hxs⟩ := List.pairwise_cons.mp h
    cases i with
    | zero => exact List.pairwise_cons.mpr ⟨fun b _ hact => (by cases hact), hxs⟩
    | succ i =>
      refine List.pairwise_cons.mpr ⟨?_, ih i hxs⟩
      intro b hb hx' hb'
      exact hx b (mem_modify_inactive hb hb') hx' hb'

theorem Contents.releaseSnapshot (h : Contents db L start floor m) (i : Nat) :
    Contents (db.releaseSnapshot i) L start floor m :=
  { h with
    snapshots := ⟨fun s hs hact => h.snapshots.range s (mem_modify_inactive hs hact) hact,
      pairwise_modify_inactive i h.snapshots.order⟩ }

theorem Contents.beginClose (h : Contents db L start floor m)
    (hplace : ∀ p ∈ L, p.1 < db.nextFileNumber)
    (hwal : db.activeMemtableOldestWalFileNumber = floor) :
    ∃ floor', floor ≤ floor' ∧ Contents db.beginClose.1 L start floor' m ∧
      (db.beginClose.2 = true → L.since floor' = []) ∧ (db.beginClose.2 = false → floor' = floor) := by
  unfold DB.beginClose
  split
  · refine ⟨db.nextFileNumber, h.floorNext, ?_, ?_, fun hf => (by cases hf)⟩
    · exact h.move (e := db.edit) hplace h.floorNext hwal rfl rfl rfl rfl rfl (Nat.le_refl _)
        (h.oldest.trans h.floorNext) rfl h.edit rfl rfl rfl (Nat.le_refl _)
    · intro _
      rw [Log.since, List.filter_eq_nil_iff]
      intro p hp
      have := hplace p hp
      simp only [decide_eq_true_eq]
      omega
  · exact ⟨floor, Nat.le_refl _, h, fun hf => (by cases hf), fun _ => rfl⟩

end Steps

end KvMem
