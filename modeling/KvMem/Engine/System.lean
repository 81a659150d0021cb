import KvMem.Engine.Database

/-! # The running system

One process with its directory. The holder of `version_mu_` runs one section at a
time; beside it run the background worker, at most one compaction (its holder has
`compaction_mu_`) and a `Close` that waits for both. The files change by one
elementary step of one of them; the fields of the database change when a section
ends. Where crashes happen, one may come at any point.

`history`, `inflight` and `acked` record what has been written; no step reads them.
-/

namespace KvMem

open CrashStore

/-- Work done under `version_mu_` that touches files. -/
inductive Section where
  | opening
  | writing (r : WALBatchRecord)
  | switching
  | publishFlush (imm : ImmutableMemTable) (number : Nat) (result : Except Status TableFile)
  | publishCompaction (job : DB.CompactionJob) (output : List VersionedEntry) (t : TableFile)
  | closing (moved : Bool)

/-- Where the background worker stands. -/
inductive Worker where
  | stopped
  | idle
  | building (imm : ImmutableMemTable) (number : Nat) (prog : Prog (Except Status TableFile))
  | publishing
  /-- Waiting for `compaction_mu_`. -/
  | wantCompact (oldest : Nat)
  /-- In the loop of `MaybeCompact`, with the attempts left. -/
  | compacting (oldest attempts : Nat)
  /-- `MaybeCompact` has failed and the error is not latched yet. -/
  | failed (oldest : Nat) (status : Status)
  | sweeping (oldest : Nat) (prog : Prog Status)

/-- Where the holder of `compaction_mu_` stands in `CompactUnlocked`. -/
inductive Compactor where
  | idle
  | building (job : DB.CompactionJob)
      (prog : Prog (Except Status (List VersionedEntry × TableFile)))
  | publishing
  | removing (prog : Prog Status)

namespace Worker

def locksCompaction : Worker → Bool
  | .compacting _ _ => true
  | _ => false

/-- `CompactUnlocked` has returned; the worker notices when the call was its own. -/
def compactionDone : Worker → Status → Worker
  | .compacting oldest attempts, status =>
    if status = .ok then .compacting oldest (attempts - 1) else .failed oldest status
  | w, _ => w

end Worker

structure Sys where
  dir : Dir
  present : Bool
  db : DB
  caches : Nat → BlockCache
  main : Option (Section × Prog (DB × Status)) := none
  worker : Worker := .stopped
  compactor : Compactor := .idle
  /-- A `Close` that waits, with the answer of its first part. -/
  closing : Option Bool := none
  history : List WALBatchRecord := []
  inflight : Option WALBatchRecord := none
  /-- How many batches of `history` were there when a `Write` last returned OK. -/
  acked : Nat := 0

def WALBatchRecord.last (r : WALBatchRecord) : Nat := r.sequence + r.batch.count - 1

namespace Sys

/-- A process that has not opened its database, on a missing directory. -/
def init (o : Options) : Sys :=
  { dir := FS.empty, present := false, db := DB.new o, caches := fun _ => { capacity := 0 } }

/-- The table objects a read or an iterator may use, beside those of a running `Open`. -/
def handles (s : Sys) : List OpenTable :=
  s.db.opened ++
    (match s.worker with
     | .building _ number (.ret (.ok t)) => [⟨number, .sst number, s.db.cache, t⟩]
     | _ => []) ++
    (match s.compactor with
     | .building job (.ret (.ok (_, t))) => [⟨job.number, .sst job.number, s.db.cache, t⟩]
     | _ => [])

def afterOpen (s : Sys) (db : DB) (status : Status) : Sys :=
  let caches := Function.update s.caches db.cache db.blockCache
  if status = .ok then
    { s with
      db := db, main := none, caches := caches, worker := .idle
      history := (s.history ++ s.inflight.toList).filter fun r => r.last ≤ db.lastSequence
      inflight := none }
  else { s with db := db, main := none, caches := caches }

def afterAppend (s : Sys) (r : WALBatchRecord) (db : DB) (status : Status) : Sys :=
  if status = .ok then
    let s := { s with db := db, history := s.history ++ [r], inflight := none }
    if db.needsSwitch then { s with main := some (.switching, db.flushMemTable) }
    else { s with main := none, acked := s.history.length }
  else if status.isInvalidArgument then { s with db := db, main := none, inflight := none }
  else { s with db := db, main := none }

def afterSwitch (s : Sys) (db : DB) (status : Status) : Sys :=
  { s with
    db := db
    main := none
    acked := if status = .ok then s.history.length else s.acked }

def afterPublishFlush (s : Sys) (db : DB) (status : Status) : Sys :=
  { s with
    db := db
    main := none
    worker := if status = .ok then .wantCompact db.edit.walFileNumber else .idle }

/-- After the publishing section `CompactUnlocked` removes its inputs or returns. -/
def afterPublishCompaction (s : Sys) (job : DB.CompactionJob) (db : DB) (status : Status) : Sys :=
  if status = .ok then
    { s with
      db := db
      main := none
      compactor := .removing (DB.removeInputs (s.db.sstables.filter (DB.isInput job.inputs))) }
  else
    { s with
      db := db, main := none, compactor := .idle, worker := s.worker.compactionDone status }

def finish (s : Sys) (k : Section) (db : DB) (status : Status) : Sys :=
  match k with
  | .opening => s.afterOpen db status
  | .writing r => s.afterAppend r db status
  | .switching => s.afterSwitch db status
  | .publishFlush _ _ _ => s.afterPublishFlush db status
  | .publishCompaction job _ _ => s.afterPublishCompaction job db status
  | .closing _ => { s with db := db, main := none, closing := none }

/-- A crash ends the process; a new one starts with its own options. -/
def restart (s : Sys) (dir : Dir) (o : Options) : Sys :=
  { s with
    dir := dir, db := DB.new o, main := none, worker := .stopped, compactor := .idle
    closing := none }

end Sys

structure Faults where
  /-- The file operations of a section that may fail. -/
  section_ : Section → Op FileName Cell → Prop
  /-- The file operations of the other threads that may fail. -/
  thread : Op FileName Cell → Prop
  /-- Whether the machine may crash. -/
  crash : Prop
  /-- Whether `CURRENT` and `MANIFEST` may be lost while the database is closed. -/
  loss : Prop

open Sys in
inductive Step (F : Faults) : Sys → Sys → Prop where
  | openBegin (s : Sys) (hm : s.main = none) (hc : s.db.closed = true)
      (hok : DB.checkOpen s.db.options s.present = .ok) :
      Step F s { s with present := true, main := some (.opening, s.db.open) }
  | writeBegin (s : Sys) (batch : WriteBatch) (hm : s.main = none) (hcl : s.closing = none)
      (hne : batch ≠ []) (hok : s.db.checkWrite batch = .ok) :
      Step F s { s with
        main := some (.writing ⟨s.db.lastSequence + 1, batch⟩, s.db.write batch)
        inflight := some ⟨s.db.lastSequence + 1, batch⟩ }
  | mainStep (s : Sys) (k : Section) (p p' : Prog (DB × Status)) (dir : Dir)
      (hm : s.main = some (k, p)) (hp : ProgStep (F.section_ k) s.dir p dir p') :
      Step F s { s with dir := dir, main := some (k, p') }
  | mainEnd (s : Sys) (k : Section) (db : DB) (status : Status)
      (hm : s.main = some (k, .ret (db, status))) : Step F s (s.finish k db status)
  | flushStart (s : Sys) (imm : ImmutableMemTable) (rest : List ImmutableMemTable) (number : Nat)
      (next : DB) (hm : s.main = none) (hw : s.worker = .idle)
      (hi : s.db.immutables = imm :: rest) (hb : s.db.backgroundStatus = .ok)
      (ha : s.db.allocateFileNumber = .ok (number, next)) :
      Step F s { s with
        db := next
        worker := .building imm number
          (DB.flushImmutableMemTable s.db.options number (s.db.memtable imm.memtable)) }
  | flushExhausted (s : Sys) (e : Status) (hm : s.main = none) (hw : s.worker = .idle)
      (hi : s.db.immutables ≠ []) (hb : s.db.backgroundStatus = .ok)
      (ha : s.db.allocateFileNumber = .error e) :
      Step F s { s with db := s.db.setBackgroundError e, worker := .stopped }
  | workerStop (s : Sys) (hm : s.main = none) (hw : s.worker = .idle)
      (hstop : (s.db.immutables = [] ∧ s.closing.isSome = true) ∨
        (s.db.immutables ≠ [] ∧ s.db.backgroundStatus ≠ .ok)) :
      Step F s { s with worker := .stopped }
  | flushStep (s : Sys) (imm : ImmutableMemTable) (number : Nat)
      (p p' : Prog (Except Status TableFile)) (dir : Dir)
      (hw : s.worker = .building imm number p) (hp : ProgStep F.thread s.dir p dir p') :
      Step F s { s with dir := dir, worker := .building imm number p' }
  | publishFlushBegin (s : Sys) (imm : ImmutableMemTable) (number : Nat)
      (result : Except Status TableFile) (hm : s.main = none)
      (hw : s.worker = .building imm number (.ret result)) :
      Step F s { s with
        main := some (.publishFlush imm number result, s.db.publishFlush imm number result)
        worker := .publishing }
  | compactLock (s : Sys) (oldest : Nat) (hw : s.worker = .wantCompact oldest)
      (hc : s.compactor = .idle) : Step F s { s with worker := .compacting oldest 4 }
  -- only the worker itself changes the tables between this test and the next section
  | compactEnough (s : Sys) (oldest attempts : Nat) (hm : s.main = none)
      (hw : s.worker = .compacting oldest attempts) (hc : s.compactor = .idle)
      (hn : attempts = 0 ∨ s.db.closed = true ∨ s.db.needsCompaction = false) :
      Step F s { s with worker := .sweeping oldest (removeObsoleteWALFiles oldest) }
  | compactBegin (s : Sys) (oldest attempts : Nat) (job : DB.CompactionJob) (next : DB)
      (hm : s.main = none) (hw : s.worker = .compacting oldest (attempts + 1))
      (hc : s.compactor = .idle) (hn : s.db.needsCompaction = true)
      (hs : s.db.startCompaction = .ok (job, next)) :
      Step F s { s with
        db := next, compactor := .building job (DB.buildCompaction s.db.options job) }
  | compactNothing (s : Sys) (oldest attempts : Nat) (status : Status) (hm : s.main = none)
      (hw : s.worker = .compacting oldest (attempts + 1)) (hc : s.compactor = .idle)
      (hn : s.db.needsCompaction = true) (hs : s.db.startCompaction = .error status) :
      Step F s { s with worker := s.worker.compactionDone status }
  | compactFailed (s : Sys) (oldest : Nat) (status : Status) (hm : s.main = none)
      (hw : s.worker = .failed oldest status) :
      Step F s { s with
        db := s.db.setBackgroundError status
        worker := .sweeping oldest (removeObsoleteWALFiles oldest) }
  | sweepStep (s : Sys) (oldest : Nat) (p p' : Prog Status) (dir : Dir)
      (hw : s.worker = .sweeping oldest p) (hp : ProgStep F.thread s.dir p dir p') :
      Step F s { s with dir := dir, worker := .sweeping oldest p' }
  | sweepEnd (s : Sys) (oldest : Nat) (status : Status) (hm : s.main = none)
      (hw : s.worker = .sweeping oldest (.ret status)) :
      Step F s { s with
        db := if status ≠ .ok then s.db.setBackgroundError status else s.db
        worker := .idle }
  | compactPublic (s : Sys) (job : DB.CompactionJob) (next : DB) (hm : s.main = none)
      (hc : s.compactor = .idle) (hl : s.worker.locksCompaction = false)
      (hs : s.db.startCompaction = .ok (job, next)) :
      Step F s { s with
        db := next, compactor := .building job (DB.buildCompaction s.db.options job) }
  | buildStep (s : Sys) (job : DB.CompactionJob)
      (p p' : Prog (Except Status (List VersionedEntry × TableFile))) (dir : Dir)
      (hc : s.compactor = .building job p) (hp : ProgStep F.thread s.dir p dir p') :
      Step F s { s with dir := dir, compactor := .building job p' }
  | buildFailed (s : Sys) (job : DB.CompactionJob) (status : Status)
      (hc : s.compactor = .building job (.ret (.error status))) :
      Step F s { s with compactor := .idle, worker := s.worker.compactionDone status }
  | publishCompactionBegin (s : Sys) (job : DB.CompactionJob) (output : List VersionedEntry)
      (t : TableFile) (hm : s.main = none)
      (hc : s.compactor = .building job (.ret (.ok (output, t)))) :
      Step F s { s with
        main := some (.publishCompaction job output t, s.db.publishCompaction job output t)
        compactor := .publishing }
  | removeStep (s : Sys) (p p' : Prog Status) (dir : Dir) (hc : s.compactor = .removing p)
      (hp : ProgStep F.thread s.dir p dir p') :
      Step F s { s with dir := dir, compactor := .removing p' }
  | removeEnd (s : Sys) (status : Status) (hc : s.compactor = .removing (.ret status)) :
      Step F s { s with compactor := .idle, worker := s.worker.compactionDone status }
  | closeBegin (s : Sys) (hm : s.main = none) (hcl : s.closing = none)
      (ho : s.db.closed = false) :
      Step F s { s with db := s.db.beginClose.1, closing := some s.db.beginClose.2 }
  | closeEnd (s : Sys) (moved : Bool) (hm : s.main = none) (hcl : s.closing = some moved)
      (hw : s.worker = .stopped) (hc : s.compactor = .idle) :
      Step F s { s with main := some (.closing moved, s.db.endClose moved) }
  | snapshot (s : Sys) (hm : s.main = none) : Step F s { s with db := s.db.getSnapshot }
  | release (s : Sys) (i : Nat) (hm : s.main = none) :
      Step F s { s with db := s.db.releaseSnapshot i }
  | readBlock (s : Sys) (h : OpenTable) (item : IndexEntry) (failure : Option Status)
      (hh : h ∈ s.handles) (hi : item ∈ h.table.index) :
      Step F s { s with
        caches := Function.update s.caches h.cache
          (h.table.readRawBlock failure (s.caches h.cache) h.fileNumber item).2 }
  | construct (s : Sys) (o : Options) (hm : s.main = none) (hc : s.db.closed = true) :
      Step F s { s with db := DB.new o }
  | crash (s : Sys) (dir : Dir) (o : Options) (hc : F.crash) (hd : Crash s.dir dir) :
      Step F s (s.restart dir o)
  | lose (s : Sys) (dir : Dir) (hl : F.loss) (hm : s.main = none) (hc : s.db.closed = true)
      (hgone : (dir.slot .current).Absent ∧ (dir.slot .manifest).Absent)
      (hrest : ∀ n, n ≠ .current → n ≠ .manifest → dir.slot n = s.dir.slot n) :
      Step F s { s with dir := dir }

/-- What the end of a section changes. -/
theorem finish_spec (s : Sys) (k : Section) (db : DB) (status : Status) :
    ((s.finish k db status).db = db ∧ ((s.finish k db status).main = none ∨
      (s.finish k db status).main = some (.switching, db.flushMemTable))) ∧
    ((s.finish k db status).history = s.history ∨ (status = .ok ∧ k = .opening) ∨
      ∃ r, status = .ok ∧ k = .writing r ∧
        (s.finish k db status).history = s.history ++ [r]) := by
  cases k with
  | opening =>
    unfold Sys.finish Sys.afterOpen
    dsimp only
    split
    · rename_i hok
      exact ⟨⟨rfl, Or.inl rfl⟩, Or.inr (Or.inl ⟨hok, rfl⟩)⟩
    · exact ⟨⟨rfl, Or.inl rfl⟩, Or.inl rfl⟩
  | writing r =>
    unfold Sys.finish Sys.afterAppend
    dsimp only
    split
    · rename_i hok
      split
      · exact ⟨⟨rfl, Or.inr rfl⟩, Or.inr (Or.inr ⟨r, hok, rfl, rfl⟩)⟩
      · exact ⟨⟨rfl, Or.inl rfl⟩, Or.inr (Or.inr ⟨r, hok, rfl, rfl⟩)⟩
    · split <;> exact ⟨⟨rfl, Or.inl rfl⟩, Or.inl rfl⟩
  | switching | publishFlush imm number result | closing moved =>
    exact ⟨⟨rfl, Or.inl rfl⟩, Or.inl rfl⟩
  | publishCompaction job output t =>
    unfold Sys.finish Sys.afterPublishCompaction
    dsimp only
    split <;> exact ⟨⟨rfl, Or.inl rfl⟩, Or.inl rfl⟩

theorem finish_db (s : Sys) (k : Section) (db : DB) (status : Status) :
    (s.finish k db status).db = db :=
  (finish_spec s k db status).1.1

/-- The states a process started on a missing directory can reach. -/
inductive Reachable (F : Faults) : Sys → Prop where
  | init (o : Options) : Reachable F (Sys.init o)
  | step {s s' : Sys} (h : Reachable F s) (hs : Step F s s') : Reachable F s'

theorem Reachable.invariant {F : Faults} {I : Sys → Prop} (h0 : ∀ o, I (Sys.init o))
    (hstep : ∀ s s', Reachable F s → I s → Step F s s' → I s') {s : Sys} (h : Reachable F s) :
    I s := by
  induction h with
  | init o => exact h0 o
  | step hr hs ih => exact hstep _ _ hr ih hs

end KvMem
