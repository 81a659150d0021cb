import KvMem.Engine.Contents
import KvMem.Storage.ScanDamage

/-! # What an open database shows

A read goes through the tables and the memtables of the database. What they show at the
sequence of a read that is let through is what the committed batches show there.
-/

namespace KvMem

open Versions MergingIterator

namespace DB

/-- The memtables an iterator reads, the active one last. -/
def memtables (db : DB) : List MemTable :=
  db.immutables.map (fun imm => db.memtable imm.memtable) ++ [db.activeMemtable]

def versions (db : DB) : List VersionedEntry :=
  (db.sstables.map (·.table)).flatMap TableFile.entries ++ db.memtables.flatten

/-- The keys and values a read shows: the latest ones, or those of a snapshot. -/
def view (db : DB) (snapshot : Option Nat) : List (Bytes × Bytes) :=
  scanView db.versions (db.readSequence snapshot)

/-- Tables as they are written, memtables in order, and one version of a key under a
sequence. -/
structure Readable (db : DB) : Prop where
  tables : ∀ t ∈ db.sstables, t.table.Wf
  memtables : ∀ es ∈ db.memtables, SortedRun es
  functional : Functional (setOf db.versions)

variable {db : DB}

theorem newIterator_eq {snapshot : Option Nat} (h : db.validateReadOptions snapshot = .ok) :
    db.newIterator snapshot =
      merged (db.readSequence snapshot) (db.sstables.map (·.table)) db.memtables := by
  simp [newIterator, h, merged, memtables, Function.comp_def]

theorem view_length_le (db : DB) (snapshot : Option Nat) :
    (db.view snapshot).length ≤ db.versions.length := by
  have hkeys : (sortedKeys db.versions).length ≤ db.versions.length := by
    rw [sortedKeys, List.length_insertionSort]
    exact (List.dedup_sublist _).length_le.trans (by rw [List.length_map])
  exact (List.length_filterMap_le _ _).trans hkeys

end DB

section Contents

variable {db : DB} {L : Log} {start floor m : Nat}

theorem Log.Ok.sequence_lt (h : L.Ok) {p q : Nat × WALBatchRecord} (hp : p ∈ L) (hq : q ∈ L)
    (hplace : p.1 < q.1) {x y : VersionedEntry} (hx : x ∈ p.2.versions)
    (hy : y ∈ q.2.versions) : x.sequence < y.sequence := by
  by_contra hle
  have := h.place_le hq hp hy hx (Nat.le_of_not_lt hle)
  omega

variable {mems : List MemTable} {queue : List ImmutableMemTable}

theorem Queue.versions (h : Queue mems L start queue floor) (e : VersionedEntry) :
    (∃ imm ∈ queue, e ∈ mems.getD imm.memtable []) ↔ e ∈ (L.within start floor).versions := by
  induction h with
  | nil stop =>
    simp only [List.not_mem_nil, false_and, exists_false, false_iff]
    intro he
    obtain ⟨p, hp, _⟩ := Log.mem_versions.mp he
    have := Log.mem_within.mp hp
    omega
  | @cons imm rest mid stop hle hmem hrest ih =>
    rw [List.exists_mem_cons_iff, ih, hmem.mem]
    have hmid := hrest.le
    simp only [Log.mem_versions, Log.mem_within]
    constructor
    · rintro (⟨p, hp, he⟩ | ⟨p, hp, he⟩)
      · exact ⟨p, ⟨hp.1, by omega⟩, he⟩
      · exact ⟨p, ⟨hp.1, by omega⟩, he⟩
    · rintro ⟨p, hp, he⟩
      by_cases hplace : p.1 < mid
      · exact Or.inl ⟨p, ⟨hp.1, by omega⟩, he⟩
      · exact Or.inr ⟨p, ⟨hp.1, by omega⟩, he⟩

theorem Queue.newer (hL : L.Ok) (h : Queue mems L start queue floor) :
    queue.Pairwise fun a b => ∀ x ∈ mems.getD a.memtable [], ∀ y ∈ mems.getD b.memtable [],
      x.sequence < y.sequence := by
  induction h with
  | nil stop => exact List.Pairwise.nil
  | @cons imm rest mid stop hle hmem hrest ih =>
    refine List.pairwise_cons.mpr ⟨fun other hother x hx y hy => ?_, ih⟩
    have hy' := (hrest.versions y).mp ⟨other, hother, hy⟩
    obtain ⟨p, hp, hxp⟩ := Log.mem_versions.mp ((hmem.mem x).mp hx)
    obtain ⟨q, hq, hyq⟩ := Log.mem_versions.mp hy'
    rw [Log.mem_within] at hp hq
    exact hL.sequence_lt hp.1 hq.1 (by omega) hxp hyq

/-- The memtables in the order in which `Get` searches them. -/
def DB.searched (db : DB) : List Nat := db.active :: (db.immutables.map (·.memtable)).reverse

section

variable (h : Contents db L start floor m)

include h

theorem Contents.searched_strict : ∀ i ∈ db.searched, StrictRun (db.mems.getD i []) := by
  intro i hi
  rcases List.mem_cons.mp hi with rfl | hi
  · exact h.mem.strict
  · obtain ⟨imm, himm, rfl⟩ := List.mem_map.mp (List.mem_reverse.mp hi)
    obtain ⟨a, b, hmem⟩ := h.queue.holds imm himm
    exact hmem.strict

theorem Contents.searched_newer :
    db.searched.Pairwise fun i j => ∀ x ∈ db.mems.getD i [], ∀ y ∈ db.mems.getD j [],
      y.sequence < x.sequence := by
  refine List.pairwise_cons.mpr ⟨fun j hj x hx y hy => ?_, ?_⟩
  · obtain ⟨imm, himm, rfl⟩ := List.mem_map.mp (List.mem_reverse.mp hj)
    obtain ⟨p, hp, hxp⟩ := Log.mem_versions.mp ((h.mem.mem x).mp hx)
    obtain ⟨q, hq, hyq⟩ := Log.mem_versions.mp ((h.queue.versions y).mp ⟨imm, himm, hy⟩)
    rw [Log.mem_since] at hp
    rw [Log.mem_within] at hq
    exact h.history.sequence_lt hq.1 hp.1 (by omega) hyq hxp
  · rw [List.pairwise_reverse, List.pairwise_map]
    exact (h.queue.newer h.history).imp fun hab x hx y hy => hab y hy x hx

theorem Contents.searched_versions (e : VersionedEntry) :
    e ∈ (db.searched.flatMap fun i => db.mems.getD i []) ↔ e ∈ (L.since start).versions := by
  rw [Log.mem_versions_split L h.start_le, ← h.queue.versions, ← h.mem.mem]
  simp only [DB.searched, List.flatMap_cons, List.mem_append, List.mem_flatMap, List.mem_reverse,
    List.mem_map]
  constructor
  · rintro (he | ⟨i, ⟨imm, himm, rfl⟩, he⟩)
    · exact Or.inr he
    · exact Or.inl ⟨imm, himm, he⟩
  · rintro (⟨imm, himm, he⟩ | he)
    · exact Or.inr ⟨imm.memtable, ⟨imm, himm, rfl⟩, he⟩
    · exact Or.inl he

theorem Contents.mem_versions (e : VersionedEntry) :
    e ∈ db.versions ↔ e ∈ db.tableEntries ∨ e ∈ (L.since start).versions := by
  rw [← h.searched_versions]
  simp only [DB.versions, DB.tableEntries, DB.memtables, DB.searched, DB.memtable,
    DB.activeMemtable, List.flatMap_map, List.mem_append, List.flatten_append, List.flatMap_cons,
    List.mem_flatten, List.mem_flatMap, List.mem_map, List.mem_reverse, List.flatten_cons,
    List.flatten_nil, List.append_nil]
  constructor
  · rintro (he | ⟨_, ⟨imm, himm, rfl⟩, he⟩ | he)
    · exact Or.inl he
    · exact Or.inr (Or.inr ⟨_, ⟨imm, himm, rfl⟩, he⟩)
    · exact Or.inr (Or.inl he)
  · rintro (he | he | ⟨_, ⟨imm, himm, rfl⟩, he⟩)
    · exact Or.inl he
    · exact Or.inr (Or.inr he)
    · exact Or.inr (Or.inl ⟨_, ⟨imm, himm, rfl⟩, he⟩)

theorem Contents.shows : Shows (setOf db.versions) (setOf L.versions) m := by
  have hset : setOf db.versions = setOf (db.tableEntries ++ (L.since start).versions) := by
    ext e
    rw [mem_setOf, mem_setOf, h.mem_versions, List.mem_append]
  rw [hset]
  exact h.view

end

theorem DB.validateReadOptions_open {snapshot : Option Nat}
    (h : db.validateReadOptions snapshot = .ok) : db.closed = false := by
  by_contra hc
  unfold DB.validateReadOptions at h
  rw [if_pos (by simpa using hc)] at h
  cases h

theorem DB.validateReadOptions_snapshot {i : Nat} (h : db.validateReadOptions (some i) = .ok) :
    ∃ x, db.snapshots[i]? = some x ∧ x.active = true ∧
      db.readSequence (some i) = x.sequence := by
  have hopen := DB.validateReadOptions_open h
  unfold DB.validateReadOptions at h
  rw [if_neg (by simp [hopen])] at h
  cases hs : db.snapshots[i]? with
  | none => simp [hs] at h
  | some x =>
    have hx : x.active = true := by
      by_contra hx
      simp [hs, hx] at h
    exact ⟨x, rfl, hx, by simp [DB.readSequence, hs]⟩

theorem DB.pin_eq {snapshot : Option Nat} (h : db.validateReadOptions snapshot = .ok) :
    db.pin snapshot = .ok ⟨db.readSequence snapshot, db.active, db.immutables.map (·.memtable),
      db.sstables⟩ := by
  rw [DB.pin, h]

theorem DB.pin_readSequence {snapshot : Option Nat} (h : db.validateReadOptions snapshot = .ok) :
    ∃ p, db.pin snapshot = .ok p ∧ p.readSequence = db.readSequence snapshot :=
  ⟨_, DB.pin_eq h, rfl⟩

section

variable (h : Contents db L start floor m)

include h

theorem Contents.readSequence {snapshot : Option Nat} (hv : db.validateReadOptions snapshot = .ok) :
    db.readSequence snapshot ≤ db.lastSequence ∧
      (db.readSequence snapshot = 0 ∨ m ≤ db.readSequence snapshot) := by
  cases snapshot with
  | none => exact ⟨le_rfl, Or.inr h.reads⟩
  | some i =>
    obtain ⟨x, hx, hact, hseq⟩ := DB.validateReadOptions_snapshot hv
    rw [hseq]
    exact h.snapshots.range x (List.mem_of_getElem? hx) hact

theorem Contents.readSequence_le {snapshot : Option Nat}
    (hv : db.validateReadOptions snapshot = .ok) : db.readSequence snapshot ≤ maxUInt64 :=
  (h.readSequence hv).1.trans h.edit.sequence_le

theorem Contents.sameView {snapshot : Option Nat}
    (hv : db.validateReadOptions snapshot = .ok) (key : Bytes) :
    SameView (setOf db.versions) (setOf L.versions) key (db.readSequence snapshot) := by
  rcases (h.readSequence hv).2 with hzero | hle
  · have hnone : NoVersion (setOf L.versions) key 0 := fun e he _ => h.history.sequence_pos he
    rw [hzero]
    exact sameView_of_noVersion (fun e he => hnone e (h.shows.subset he)) hnone
  · exact h.shows.same key _ hle

theorem Contents.visible_eq {snapshot : Option Nat}
    (hv : db.validateReadOptions snapshot = .ok) (key : Bytes) :
    visible db.versions key (db.readSequence snapshot) =
      visible L.versions key (db.readSequence snapshot) :=
  visible_congr (h.history.functional.mono h.shows.subset) h.history.functional
    (h.sameView hv key)

end

end Contents

end KvMem
