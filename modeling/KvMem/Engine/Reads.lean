import KvMem.Engine.Calls
import KvMem.Engine.Views

/-! # Reads

`Get` pins a view under the lock and searches it without: first the memtables, newest
first, then every table for the version with the largest sequence. What it answers is what
the history of committed batches shows at the read sequence.
-/

namespace KvMem

open Versions

/-! ## The search of a pinned view -/

section Lookup

variable {mems : List MemTable} {key : Bytes} {r : Nat}

theorem MemTable.get_finds {m : MemTable} (hs : StrictRun m) (key : Bytes) (r : Nat) :
    Finds (setOf m) key r (m.get key r) := by
  rw [MemTable.get_eq_find hs]
  cases hfind : m.find? fun e => e.key = key ∧ e.sequence ≤ r with
  | none => exact Or.inr ⟨rfl, noVersion_of_find hfind⟩
  | some e => exact Or.inl ⟨e, rfl, hs.sorted.newest_of_find hfind⟩

/-- Each memtable is newer than all behind it, so the first version found is the newest. -/
theorem lookupMems_finds {is : List Nat} (hstrict : ∀ i ∈ is, StrictRun (mems.getD i []))
    (hnewer : is.Pairwise fun i j => ∀ x ∈ mems.getD i [], ∀ y ∈ mems.getD j [],
      y.sequence < x.sequence) :
    Finds (setOf (is.flatMap fun i => mems.getD i [])) key r (DB.lookupMems mems key r is) := by
  induction is with
  | nil => exact Or.inr ⟨rfl, fun x hx => by cases hx⟩
  | cons i is ih =>
    obtain ⟨hhead, htail⟩ := List.pairwise_cons.mp hnewer
    have hi := MemTable.get_finds (hstrict i List.mem_cons_self) key r
    have hrest := ih (fun j hj => hstrict j (List.mem_cons_of_mem i hj)) htail
    rw [List.flatMap_cons, setOf_append, DB.lookupMems]
    rcases hi with ⟨x, hx, hnew⟩ | ⟨hnone, hno⟩
    · rw [hx]
      refine Or.inl ⟨x, rfl, hnew.union_older fun y hy _ _ => ?_⟩
      obtain ⟨j, hj, hyj⟩ := List.mem_flatMap.mp hy
      exact (hhead j hj x hnew.mem y hyj).le
    · rw [hnone]
      exact hrest.union_noVersion hno

variable {failing : Prop} {raw : DB.BlockReads}

/-- The table loop keeps the newest version so far. A version at the read sequence itself
cannot be beaten, which is where the loop may stop. A block that cannot be read ends it. -/
theorem lookupTables_finds {ts : List OpenTable} (hwf : ∀ t ∈ ts, t.table.Wf)
    (hstored : ∀ t ∈ ts, t.table.Storable)
    (hraw : ∀ t ∈ ts, ∀ item, raw t item = t.table.loaded.readRawBlock item ∨
      (failing ∧ ∃ message, raw t item = .error (.ioError message)))
    (hr : r ≤ maxUInt64) {V : Set VersionedEntry} {best : Option VersionedEntry}
    (hbest : Finds V key r best) :
    (∃ o, DB.lookupTables raw key r ts (best.map LoadedTable.answer) =
        .ok (o.map LoadedTable.answer) ∧
      Finds (V ∪ setOf (ts.flatMap (·.table.entries))) key r o) ∨
    (failing ∧ ∃ message, DB.lookupTables raw key r ts (best.map LoadedTable.answer) =
      .error (.ioError message)) := by
  induction ts generalizing V best with
  | nil =>
    refine Or.inl ⟨best, rfl, ?_⟩
    have hnil : setOf (([] : List OpenTable).flatMap (·.table.entries)) = ∅ := by
      ext x
      simp
    rwa [hnil, Set.union_empty]
  | cons t ts ih =>
    have hrest (V' : Set VersionedEntry) (best' : Option VersionedEntry) :=
      @ih (fun x hx => hwf x (List.mem_cons_of_mem t hx))
        (fun x hx => hstored x (List.mem_cons_of_mem t hx))
        (fun x hx => hraw x (List.mem_cons_of_mem t hx)) V' best'
    have hsplit : V ∪ setOf ((t :: ts).flatMap (·.table.entries)) =
        V ∪ setOf t.table.entries ∪ setOf (ts.flatMap (·.table.entries)) := by
      rw [List.flatMap_cons, setOf_append, Set.union_assoc]
    have hblocks (item : IndexEntry) : raw t item = t.table.loaded.readRawBlock item ∨
        ∃ e, (failing ∧ ∃ message, e = .ioError message) ∧ raw t item = .error e := by
      rcases hraw t List.mem_cons_self item with hsame | ⟨hf, message, he⟩
      · exact Or.inl hsame
      · exact Or.inr ⟨_, ⟨hf, message, rfl⟩, he⟩
    have hget := LoadedTable.getFrom_fails hblocks key r
    rw [(hstored t List.mem_cons_self).get (hwf t List.mem_cons_self) key hr] at hget
    rw [hsplit, DB.lookupTables]
    rcases hget with hget | ⟨_, ⟨hf, message, rfl⟩, hget⟩
    · rw [hget]
      have ht : Finds (setOf t.table.entries) key r
          (TableFile.matches? key r t.table.entries) := by
        cases hm : TableFile.matches? key r t.table.entries with
        | none => exact Or.inr ⟨rfl, noVersion_of_find hm⟩
        | some e =>
          exact Or.inl ⟨e, rfl, (hwf t List.mem_cons_self).sorted.newest_of_find hm⟩
      rcases ht with ⟨e, he, hnew⟩ | ⟨hnone, hno⟩
      · rw [he]
        dsimp only [TableFile.found]
        have hbetter (hboth : Newest (V ∪ setOf t.table.entries) key r e) :
            (∃ o, (if e.sequence = r then .ok (some (LoadedTable.answer e))
                else DB.lookupTables raw key r ts (some (LoadedTable.answer e))) =
                  .ok (o.map LoadedTable.answer) ∧
              Finds (V ∪ setOf t.table.entries ∪ setOf (ts.flatMap (·.table.entries))) key r o) ∨
            (failing ∧ ∃ message, (if e.sequence = r then .ok (some (LoadedTable.answer e))
              else DB.lookupTables raw key r ts (some (LoadedTable.answer e))) =
                .error (.ioError message)) := by
          split
          · rename_i heq
            refine Or.inl ⟨some e, rfl, Or.inl ⟨e, rfl, hboth.union_older fun y _ _ hyr => ?_⟩⟩
            exact hyr.trans heq.ge
          · exact hrest _ (some e) (Or.inl ⟨e, rfl, hboth⟩)
        rcases hbest with ⟨b, rfl, hb⟩ | ⟨rfl, hnob⟩
        · by_cases hlt : e.sequence > b.sequence
          · rw [if_pos (by simpa [LoadedTable.answer] using hlt)]
            apply hbetter
            rw [Set.union_comm]
            exact hnew.union_older fun y hy hk hyr => (hb.newest y hy hk hyr).trans hlt.le
          · rw [if_neg (by simpa [LoadedTable.answer] using hlt)]
            refine hrest _ (some b) (Or.inl ⟨b, rfl, hb.union_older fun y hy hk hyr => ?_⟩)
            exact (hnew.newest y hy hk hyr).trans (Nat.le_of_not_lt hlt)
        · rw [if_pos (by rfl)]
          apply hbetter
          rw [Set.union_comm]
          exact newest_union_noVersion hnew hnob
      · rw [hnone]
        refine hrest _ best ?_
        rw [Set.union_comm]
        exact hbest.union_noVersion hno
    · rw [hget]
      exact Or.inr ⟨hf, message, rfl⟩

end Lookup

/-! ## Writing behind the read sequence -/

theorem MemTable.mem_insert_of_ne {e x : VersionedEntry} (hne : x.sequence ≠ e.sequence)
    (mem : MemTable) : x ∈ MemTable.insert e mem ↔ x ∈ mem := by
  have hxe : x ≠ e := fun h => hne (h ▸ rfl)
  induction mem with
  | nil => simp [MemTable.insert, hxe]
  | cons y ys ih =>
    simp only [MemTable.insert]
    split
    · rw [List.mem_cons, List.mem_cons]
      exact or_congr Iff.rfl ih
    · split
      · -- the version that is overwritten has the sequence of the new one
        rename_i heq
        have hxy : x ≠ y := fun h => hne (h ▸ heq.2)
        simp [hxe, hxy]
      · simp [hxe]

theorem applyBatch_get {mem : MemTable} (hm : StrictRun mem) (ops : WriteBatch) {sequence r : Nat}
    (hr : r < sequence) (key : Bytes) :
    (DB.applyBatch ops sequence mem).get key r = mem.get key r := by
  induction ops generalizing sequence mem with
  | nil => rfl
  | cons o ops ih =>
    have hstrict : StrictRun (MemTable.insert (o.entry sequence) mem) :=
      MemTable.insert_sorted hm
    have hseq : (o.entry sequence).sequence = sequence := by cases o <;> rfl
    rw [applyBatch_cons, ih hstrict (by omega)]
    have hsame : ∀ x : VersionedEntry, x.sequence ≤ r →
        (x ∈ setOf (MemTable.insert (o.entry sequence) mem) ↔ x ∈ setOf mem) := by
      intro x hx
      exact MemTable.mem_insert_of_ne (by omega) mem
    have hnew := finds_congr hsame (MemTable.get_finds hstrict key r)
    exact hnew.unique hm.sorted.functional (MemTable.get_finds hm key r)

/-! ## Reads of an open database -/

/-- A table whose restart offsets fit their fields, in a file that can be addressed. -/
structure TableFile.Fits (t : TableFile) : Prop where
  restarts : ∀ b ∈ t.blocks, ∀ w ∈ SSTable.restartsOf b, w ≤ maxUInt32
  size : (SSTable.fileBytes t).length ≤ maxOffset

namespace DB

def answered : Option VersionedEntry → Except Status Bytes
  | none => .error (.notFound "key not found")
  | some e => answer e

/-- Block reads give the bytes of the files; when `failing`, any of them may fail. -/
structure ReadsFiles (failing : Prop) (raw : BlockReads) (db : DB) : Prop where
  fits : ∀ t ∈ db.sstables, t.table.Fits
  reads : ∀ t ∈ db.sstables, ∀ item, raw t item = t.table.loaded.readRawBlock item ∨
    (failing ∧ ∃ message, raw t item = .error (.ioError message))

theorem readsFiles {db : DB} (h : ∀ t ∈ db.sstables, t.table.Fits) :
    db.ReadsFiles False fileReads :=
  ⟨h, fun _ _ _ => Or.inl rfl⟩

end DB

section Contents

variable {db : DB} {L : Log} {start floor m : Nat} {failing : Prop} {raw : DB.BlockReads}

theorem Contents.storable (h : Contents db L start floor m) {t : OpenTable} (ht : t ∈ db.sstables)
    (hfit : t.table.Fits) : t.table.Storable := by
  have hhandle := h.handles t ht
  refine ⟨hhandle.laid, fun b hb => ?_, hfit.size⟩
  obtain ⟨hentries, hkeys, hvalues⟩ := h.recordsFit ht b hb
  exact ⟨hentries, hkeys, hvalues, hfit.restarts b hb, hhandle.wf.nonempty b hb⟩

/-- What `Get` finds in the view it has pinned. The memtables hold the newest part of the
history, so a version found there needs no look at the tables. -/
theorem Contents.lookup_eq (h : Contents db L start floor m) (hraw : db.ReadsFiles failing raw)
    {key : Bytes} {r : Nat} (hr : r ≤ maxUInt64) :
    DB.lookup raw db.mems ⟨r, db.active, db.immutables.map (·.memtable), db.sstables⟩ key =
        DB.answered (newest? db.versions key r) ∨
      (failing ∧ ∃ message, DB.lookup raw db.mems
        ⟨r, db.active, db.immutables.map (·.memtable), db.sstables⟩ key =
          .error (.ioError message)) := by
  have hf : Functional (setOf db.versions) := h.history.functional.mono h.shows.subset
  have hwhole : Finds (setOf db.versions) key r (newest? db.versions key r) :=
    newest?_spec db.versions key r
  have hmems : setOf (db.searched.flatMap fun i => db.mems.getD i []) =
      setOf (L.since start).versions := by
    ext e
    exact h.searched_versions e
  have htables : setOf (db.sstables.reverse.flatMap (·.table.entries)) = setOf db.tableEntries := by
    ext e
    simp [DB.tableEntries]
  have hsplit : setOf db.versions = setOf (L.since start).versions ∪ setOf db.tableEntries := by
    ext e
    rw [mem_setOf, h.mem_versions, or_comm]
    rfl
  have hfound : Finds (setOf (L.since start).versions) key r
      (DB.lookupMems db.mems key r db.searched) :=
    hmems ▸ lookupMems_finds h.searched_strict h.searched_newer
  have hlook : DB.lookupMems db.mems key r (db.active :: (db.immutables.map (·.memtable)).reverse) =
      DB.lookupMems db.mems key r db.searched := rfl
  rw [DB.lookup, hlook]
  rcases hfound with ⟨x, hx, hnew⟩ | ⟨hnone, hno⟩
  · have hall : Newest (setOf db.versions) key r x :=
      (h.history.upClosed start).newest (hsplit ▸ Set.subset_union_left) h.shows.subset hnew
    rw [hx, newest?_eq_some hf hall]
    exact Or.inl rfl
  · have hin : ∀ t ∈ db.sstables.reverse, t ∈ db.sstables := fun t ht => List.mem_reverse.mp ht
    have hnil : Finds (setOf (L.since start).versions) key r none := Or.inr ⟨rfl, hno⟩
    have hsearch := lookupTables_finds (fun t ht => (h.handles t (hin t ht)).wf)
      (fun t ht => h.storable (hin t ht) (hraw.fits t (hin t ht)))
      (fun t ht => hraw.reads t (hin t ht)) hr hnil
    rw [hnone]
    dsimp only
    rcases hsearch with ⟨o, ho, hfinds⟩ | ⟨hf, message, he⟩
    · rw [htables, ← hsplit] at hfinds
      rw [Option.map_none] at ho
      rw [ho, hfinds.unique hf hwhole]
      left
      cases newest? db.versions key r with
      | none => rfl
      | some e =>
        rw [Option.map_some, LoadedTable.answer, DB.answered, DB.answer]
        by_cases hd : e.deleted = true
        · rw [if_pos hd, if_pos hd]
        · rw [if_neg hd, if_neg hd]
    · rw [Option.map_none] at he
      rw [he]
      exact Or.inr ⟨hf, message, rfl⟩

end Contents

/-! ## Reads against the history -/

def Sys.versions (s : Sys) : List VersionedEntry := s.history.flatMap (·.versions)

/-- The answer of `Get` for what a key shows; a missing value has one of two messages, and
when `failing`, the answer may be that a block could not be read. -/
inductive Answers (failing : Prop) : Except Status Bytes → Option Bytes → Prop where
  | found (v : Bytes) : Answers failing (.ok v) (some v)
  | missing (message : String) : Answers failing (.error (.notFound message)) none
  | failed (h : failing) (message : String) (shown : Option Bytes) :
      Answers failing (.error (.ioError message)) shown

theorem Answers.ok_iff {res : Except Status Bytes} {o : Option Bytes} (h : Answers False res o)
    (v : Bytes) : res = .ok v ↔ o = some v := by
  cases h with
  | found w => simp
  | missing message => simp
  | failed h => exact h.elim

/-- Where a cursor over the view of the history stands after some calls: what is still
ahead of it. A new one stands behind the end. -/
def Sys.cursor (s : Sys) (snapshot : Option Nat) (calls : List MergingIterator.Call) :
    List (Bytes × Bytes) :=
  calls.foldl (MergingIterator.cursorCall (scanView s.versions (s.db.readSequence snapshot))) []

section History

variable {F : Faults} {s : Sys} {L : Log} {start floor m : Nat} {snapshot : Option Nat}
  {failing : Prop} {raw : DB.BlockReads}

theorem answered_answers (o : Option VersionedEntry) :
    Answers failing (DB.answered o) (o.bind Versioned.live) := by
  cases o with
  | none => exact .missing _
  | some e =>
    rw [Option.bind_some, DB.answered, DB.answer]
    by_cases hd : e.deleted
    · have hlive : Versioned.live e = none := if_pos hd
      rw [if_pos hd, hlive]
      exact .missing _
    · have hlive : Versioned.live e = some e.value := if_neg hd
      rw [if_neg hd, hlive]
      exact .found _

theorem Log.versions_records (L : Log) :
    L.versions = L.records.flatMap WALBatchRecord.versions := by
  rw [Log.records, List.flatMap_map, Log.versions]

theorem Running.versions (h : Running s L start floor m) : s.versions = L.versions := by
  rw [Sys.versions, ← h.records, Log.versions_records]

theorem Running.lookup_answers (h : Running s L start floor m)
    (hv : s.db.validateReadOptions snapshot = .ok) (hraw : s.db.ReadsFiles failing raw)
    (key : Bytes) {p : DB.Pinned} (hp : s.db.pin snapshot = .ok p) :
    Answers failing (DB.lookup raw s.db.mems p key)
      (visible s.versions key (s.db.readSequence snapshot)) := by
  rw [DB.pin_eq hv] at hp
  rw [← Except.ok.inj hp, h.versions, ← h.contents.visible_eq hv]
  rcases h.contents.lookup_eq hraw (h.contents.readSequence_le hv) with heq | ⟨hf, message, he⟩
  · rw [heq]
    exact answered_answers _
  · rw [he]
    exact .failed hf message _

theorem Sys.layered_shows : Sys.layered.db.validateReadOptions none = .ok ∧
    visible Sys.layered.versions (ascii "k") (Sys.layered.db.readSequence none) =
      some (ascii "v") ∧
    (Sys.layered.cursor none [.seekToFirst, .next]).head? = some (ascii "z", ascii "w") ∧
    ∀ t ∈ Sys.layered.db.sstables, (∀ b ∈ t.table.blocks, ∀ w ∈ SSTable.restartsOf b,
      w ≤ maxUInt32) ∧ (SSTable.fileBytes t.table).length ≤ maxOffset := by
  decide +kernel

theorem Sys.layered_fits : ∀ t ∈ Sys.layered.db.sstables, t.table.Fits := fun t ht =>
  ⟨(Sys.layered_shows.2.2.2 t ht).1, (Sys.layered_shows.2.2.2 t ht).2⟩

end History

end KvMem
