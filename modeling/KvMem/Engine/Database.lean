import KvMem.Engine.Directory
import KvMem.Storage.TableReader

/-! # The database object

The fields of `DB` and the operations on them. Work done under `version_mu_` that
touches files is a program that returns the new state and a status; the rest are
plain functions. Memtables live in a heap and are named by their position, since a
read that has pinned one sees what is written to it later. Tables name the cache
they were opened on.
-/

namespace KvMem

open CrashStore Versions

structure Options where
  dbPath : Bytes
  memtableEntriesLimit : Nat := 1024
  level0SstableLimit : Nat := 4
  blockSize : Nat := 4096
  blockCacheCapacity : Nat := 64
  bloomBitsPerKey : Nat := 10
  createIfMissing : Bool := true
  errorIfExists : Bool := false
  level1SizeLimitBytes : Nat := 64 * 1024 * 1024
  deriving DecidableEq, Repr

def validateOptions (o : Options) : Status :=
  if o.dbPath = [] then .invalidArgument "db_path cannot be empty"
  else if o.memtableEntriesLimit = 0 ∨ o.level0SstableLimit = 0 ∨ o.level1SizeLimitBytes = 0 ∨
      o.blockSize = 0 ∨ o.blockSize > maxUInt32 then
    .invalidArgument "storage limits must be positive; block_size must fit uint32"
  else if o.bloomBitsPerKey = 0 ∨ o.bloomBitsPerKey > 64 then
    .invalidArgument "bloom_bits_per_key must be in [1, 64]"
  else .ok

structure ImmutableMemTable where
  memtable : Nat
  walFileNumber : Nat
  deriving DecidableEq, Repr

structure OpenTable where
  fileNumber : Nat
  filePath : FileName
  cache : Nat
  table : TableFile
  deriving DecidableEq

structure Snapshot where
  sequence : Nat
  active : Bool := true
  deriving DecidableEq, Repr

structure DB where
  options : Options
  closed : Bool := true
  mems : List MemTable := [[]]
  active : Nat := 0
  immutables : List ImmutableMemTable := []
  sstables : List OpenTable := []
  manifest : ManifestState := {}
  wal : Option Nat := none
  activeWalFileNumber : Nat := 1
  activeMemtableOldestWalFileNumber : Nat := 1
  backgroundStatus : Status := .ok
  snapshots : List Snapshot := []
  lifecycleGeneration : Nat := 0
  /-- The cache new tables are opened on. -/
  cache : Nat := 0
  /-- What the last `Open` has left in its new cache. -/
  blockCache : BlockCache
  /-- Every table object made so far; iterators may hold any of them. -/
  opened : List OpenTable := []

def Status.isInvalidArgument : Status → Bool
  | .invalidArgument _ => true
  | _ => false

namespace DB

def new (options : Options) : DB :=
  { options := options, blockCache := { capacity := options.blockCacheCapacity } }

def edit (db : DB) : VersionEdit := db.manifest.edit

def lastSequence (db : DB) : Nat := db.edit.lastSequence

def nextFileNumber (db : DB) : Nat := db.edit.nextFileNumber

def memtable (db : DB) (i : Nat) : MemTable := db.mems.getD i []

def activeMemtable (db : DB) : MemTable := db.memtable db.active

/-- `SetCurrentEdit`, which sorts the tables. -/
def setCurrentEdit (db : DB) (e : VersionEdit) : DB :=
  { db with manifest := { db.manifest with
      edit := { e with sstables := Manifest.sortByNumber e.sstables } } }

def setNextFileNumber (db : DB) (n : Nat) : DB :=
  { db with manifest := { db.manifest with edit := { db.edit with nextFileNumber := n } } }

def setWALFileNumber (db : DB) (n : Nat) : DB :=
  { db with manifest := { db.manifest with edit := { db.edit with walFileNumber := n } } }

def setLastSequence (db : DB) (n : Nat) : DB :=
  { db with manifest := { db.manifest with edit := { db.edit with lastSequence := n } } }

def setSSTables (db : DB) (files : List SSTableMeta) : DB :=
  { db with manifest := { db.manifest with
      edit := { db.edit with sstables := Manifest.sortByNumber files } } }

def setMemtable (db : DB) (i : Nat) (m : MemTable) : DB := { db with mems := db.mems.set i m }

/-- `SetBackgroundErrorLocked`: the first error stays. -/
def setBackgroundError (db : DB) (status : Status) : DB :=
  if db.backgroundStatus = .ok then { db with backgroundStatus := status } else db

def allocateFileNumber (db : DB) : Except Status (Nat × DB) :=
  if db.nextFileNumber = maxUInt64 then .error (.ioError "file number range exhausted")
  else .ok (db.nextFileNumber, db.setNextFileNumber (db.nextFileNumber + 1))

/-- `SaveManifest`: a failure is latched. -/
def saveManifest (db : DB) : Prog (DB × Status) :=
  Manifest.save db.manifest db.edit >>= fun (manifest, status) =>
    let db := { db with manifest := manifest }
    .ret (if status ≠ .ok then db.setBackgroundError status else db, status)

/-! ## Versions of a batch -/

/-- Put the operations of a batch into a memtable, from a sequence number on. -/
def applyBatch : WriteBatch → Nat → MemTable → MemTable
  | [], _, m => m
  | o :: ops, sequence, m =>
    applyBatch ops (sequence + 1)
      (match o with
       | .put key value => m.put key sequence value
       | .delete key => m.delete key sequence)

/-! ## Open -/

/-- The first and the last key of a set of versions in key order. -/
def keyRange : List VersionedEntry → Bytes × Bytes
  | [] => ([], [])
  | e :: es => (es.foldl (fun k x => min k x.key) e.key, es.foldl (fun k x => max k x.key) e.key)

/-- The size of a table file as a 64-bit value. -/
def fileSize (t : TableFile) : Nat := t.size % (maxUInt64 + 1)

/-- Read all blocks of a table through a cache. -/
def scanTable (cache : BlockCache) (number : Nat) (t : TableFile) : BlockCache :=
  t.index.foldl (fun cache item => (t.readRawBlock none cache number item).2) cache

structure RecoveredTables where
  db : DB
  metas : List SSTableMeta := []
  maxSequence : Nat := 0

/-- The table loop of `LoadOrRecoverManifest`. -/
def recoverTables : List Nat → RecoveredTables → Prog (Except Status RecoveredTables)
  | [], acc => .ret (.ok acc)
  | n :: ns, acc =>
    openTable (.sst n) >>= fun
      | .error e => .ret (.error e)
      | .ok t =>
        let handle : OpenTable := ⟨n, .sst n, acc.db.cache, t⟩
        let range := keyRange t.entries
        recoverTables ns
          { db := { acc.db with
              opened := acc.db.opened ++ [handle]
              blockCache := scanTable acc.db.blockCache n t }
            metas := acc.metas ++ [⟨n, .sst n, 0, range.1, range.2, fileSize t⟩]
            maxSequence := t.entries.foldl (fun m e => max m e.sequence) acc.maxSequence }

def maxOf (ns : List Nat) : Nat := ns.foldl max 0

def loadOrRecoverManifest (db : DB) : Prog (DB × Status) :=
  .look fun dir =>
    if dir.exists .current ∨ dir.exists .manifest then
      Manifest.load >>= fun
        | .error e => .ret (db, e)
        | .ok m => .ret ({ db with manifest := m }, .ok)
    else
      .look fun dir =>
        let ssts := (sstNumbers dir).insertionSort (· ≤ ·)
        let wals := walNumbers dir
        let minWal := if wals = [] then 1 else wals.foldl min maxUInt64
        let maxWal := if wals = [] then 1 else maxOf wals
        recoverTables ssts { db := db } >>= fun
          | .error e => .ret (db, e)
          | .ok found =>
            if max (maxOf ssts) maxWal = maxUInt64 then
              .ret (found.db, .corruption "file number range exhausted during manifest recovery")
            else
              let edit : VersionEdit :=
                { nextFileNumber := max (maxOf ssts + 1) (maxWal + 1)
                  walFileNumber := minWal
                  lastSequence := found.maxSequence
                  sstables := found.metas }
              Manifest.save found.db.manifest edit >>= fun (m, status) =>
                .ret ({ found.db with manifest := m }, status)

def openSSTables : List SSTableMeta → DB → Prog (DB × Status)
  | [], db => .ret (db, .ok)
  | m :: ms, db =>
    openTable m.filePath >>= fun
      | .error e => .ret (db, e)
      | .ok t =>
        let handle : OpenTable := ⟨m.fileNumber, m.filePath, db.cache, t⟩
        openSSTables ms
          { db with sstables := db.sstables ++ [handle], opened := db.opened ++ [handle] }

/-- The state of the replay: the memtable, `LastSequence` and the last sequence
replayed. -/
structure Replay where
  mem : MemTable
  lastSequence : Nat
  lastReplayed : Nat := 0

/-- The operation loop of the replay. -/
def replayOps : WriteBatch → Nat → Replay → Except Status Replay
  | [], _, s => .ok s
  | o :: ops, sequence, s =>
    if validateKey o.key ≠ .ok then .error (.corruption "invalid key in WAL")
    else
      replayOps ops (sequence + 1)
        { s with
          mem := applyBatch [o] sequence s.mem
          lastSequence := if sequence > s.lastSequence then sequence else s.lastSequence }

/-- One record of the replay. -/
def replayBatch (s : Replay) (r : WALBatchRecord) : Except Status Replay :=
  if r.sequence ≤ s.lastReplayed then
    .error (.corruption "WAL sequence ranges overlap or are out of order")
  else
    replayOps r.batch r.sequence
      { s with lastReplayed := (r.sequence + r.batch.count + (2 ^ 64 - 1)) % 2 ^ 64 }

/-- Replay one log and cut off its torn tail. -/
def replayWal (number : Nat) (s : Replay) : Prog (Except Status Replay) :=
  attempt (.probe (.wal number)) (.ret (.error (.ioError "failed to open WAL for read"))) <|
  .look fun dir =>
    let contents := bytesOf ((dir.read (.wal number)).getD [])
    match RecordLog.scan Wal.readNext replayBatch (contents.length + 1) contents s with
    | .error e => .ret (.error e)
    | .ok (s, tail) =>
      if tail = [] then .ret (.ok s)
      else
        truncateTornTail number (contents.length - tail.length) >>= fun status =>
          if status ≠ .ok then .ret (.error status) else .ret (.ok s)

def replayWals : List Nat → Replay → Prog (Except Status Replay)
  | [], s => .ret (.ok s)
  | n :: ns, s =>
    replayWal n s >>= fun
      | .error e => .ret (.error e)
      | .ok s => replayWals ns s

/-- `Recover`. What a failed replay has put into the memtable is dropped: the
database stays closed. -/
def recover (db : DB) : Prog (DB × Status) :=
  .look fun dir =>
    let oldest := db.edit.walFileNumber
    let wals := ((walNumbers dir).filter fun n => oldest ≤ n).insertionSort (· ≤ ·)
    let maxSeen := maxOf (db.edit.sstables.map (·.fileNumber) ++ (sstNumbers dir ++ walNumbers dir))
    let db := { db with
      activeWalFileNumber := wals.getLast?.getD oldest
      activeMemtableOldestWalFileNumber := wals.head?.getD oldest }
    if maxSeen = maxUInt64 then
      .ret (db, .corruption "file number range exhausted during WAL recovery")
    else
      let db := if db.nextFileNumber ≤ maxSeen then db.setNextFileNumber (maxSeen + 1) else db
      replayWals wals { mem := db.activeMemtable, lastSequence := db.lastSequence } >>= fun
        | .error e => .ret (db, e)
        | .ok s => .ret ((db.setMemtable db.active s.mem).setLastSequence s.lastSequence, .ok)

def resetForOpen (db : DB) : DB :=
  { db with
    mems := db.mems ++ [[]]
    active := db.mems.length
    immutables := []
    sstables := []
    manifest := {}
    wal := none
    activeWalFileNumber := 1
    activeMemtableOldestWalFileNumber := 1
    backgroundStatus := .ok
    cache := db.cache + 1
    blockCache := { capacity := db.options.blockCacheCapacity } }

/-- Continue after a step that succeeded. -/
def andThen (p : Prog (DB × Status)) (k : DB → Prog (DB × Status)) : Prog (DB × Status) :=
  p >>= fun (db, status) => if status ≠ .ok then .ret (db, status) else k db

/-- The checks `OpenUnlocked` makes before it touches the directory. -/
def checkOpen (o : Options) (directoryExists : Bool) : Status :=
  match validateOptions o with
  | .ok =>
    if o.errorIfExists ∧ directoryExists then .invalidArgument "database already exists"
    else if ¬ o.createIfMissing ∧ ¬ directoryExists then .ioError "database does not exist"
    else .ok
  | status => status

/-- Make the number counter exceed the active log. -/
def settleNextFileNumber (db : DB) : Prog (DB × Status) :=
  if db.nextFileNumber ≤ db.activeWalFileNumber then
    (db.setNextFileNumber (db.activeWalFileNumber + 1)).saveManifest
  else .ret (db, .ok)

/-- The last steps of `OpenUnlocked`. -/
def startWal (db : DB) : Prog (DB × Status) :=
  openWal db.activeWalFileNumber >>= fun status =>
    if status ≠ .ok then .ret (db, status)
    else
      .ret ({ db with
        wal := some db.activeWalFileNumber
        lifecycleGeneration := db.lifecycleGeneration + 1
        closed := false }, .ok)

/-- `OpenUnlocked` behind its checks. -/
def openUnlocked (db : DB) : Prog (DB × Status) :=
  andThen (loadOrRecoverManifest db.resetForOpen) fun db =>
  andThen (openSSTables db.edit.sstables db) fun db =>
  andThen (recover db) fun db =>
  andThen (settleNextFileNumber db) startWal

/-- `Open`: a failure leaves the object closed. -/
def «open» (db : DB) : Prog (DB × Status) :=
  db.openUnlocked >>= fun (db, status) =>
    .ret (if status ≠ .ok then { db with closed := true, wal := none } else db, status)

/-! ## Write -/

/-- The checks of `Write` on a non-empty batch, in their order. -/
def checkWrite (db : DB) (batch : WriteBatch) : Status :=
  if db.backgroundStatus ≠ .ok then db.backgroundStatus
  else if db.closed ∨ db.wal = none then .ioError "database is not open"
  else if db.nextFileNumber = maxUInt64 then .invalidArgument "file number range exhausted"
  else if batch.validateEncoding ≠ .ok then batch.validateEncoding
  else if batch.count > maxUInt64 - db.lastSequence then
    .invalidArgument "sequence number range exhausted"
  else
    match batch.find? fun o => validateKey o.key ≠ .ok with
    | some o => validateKey o.key
    | none => .ok

/-- `Write` behind its checks, up to the memtable switch. -/
def write (db : DB) (batch : WriteBatch) : Prog (DB × Status) :=
  appendBatch (db.wal.getD 0) batch (db.lastSequence + 1) >>= fun status =>
    if status ≠ .ok then
      .ret (if status.isInvalidArgument then db else db.setBackgroundError status, status)
    else
      .ret ((db.setMemtable db.active
          (applyBatch batch (db.lastSequence + 1) db.activeMemtable)).setLastSequence
            (db.lastSequence + batch.count), .ok)

/-- `MaybeFlushMemTable` switches when the memtable has reached its limit. -/
def needsSwitch (db : DB) : Bool := db.options.memtableEntriesLimit ≤ db.activeMemtable.size

/-- `FlushMemTable`: switch to a new memtable and a new log. -/
def flushMemTable (db : DB) : Prog (DB × Status) :=
  if db.activeMemtable.size = 0 then .ret (db, .ok)
  else
    match db.allocateFileNumber with
    | .error e => .ret (db, e)
    | .ok (number, next) =>
      openWal number >>= fun status =>
      if status ≠ .ok then .ret (next.setCurrentEdit db.edit, status)
      else
        next.saveManifest >>= fun (saved, status) =>
        if status ≠ .ok then .ret (saved.setCurrentEdit db.edit, status)
        else
          .ret ({ saved with
            immutables := saved.immutables ++
              [⟨saved.active, db.activeMemtableOldestWalFileNumber⟩]
            mems := saved.mems ++ [[]]
            active := saved.mems.length
            activeWalFileNumber := number
            activeMemtableOldestWalFileNumber := number
            wal := some number }, .ok)

/-! ## Background flush -/

/-- `FlushImmutableMemTable`: write the table and open it. -/
def flushImmutableMemTable (o : Options) (number : Nat) (entries : List VersionedEntry) :
    Prog (Except Status TableFile) :=
  createFromEntries number entries o.blockSize o.bloomBitsPerKey >>= fun status =>
    if status ≠ .ok then .ret (.error status) else openTable (.sst number)

def flushMeta (number : Nat) (entries : List VersionedEntry) (t : TableFile) : SSTableMeta :=
  ⟨number, .sst number, 0, (entries.head?.map (·.key)).getD [], (entries.getLast?.map (·.key)).getD [],
    fileSize t⟩

/-- The oldest log that is live once the front memtable is flushed. -/
def nextLiveWal (db : DB) : Nat :=
  match db.immutables with
  | _ :: next :: _ => next.walFileNumber
  | _ => db.activeMemtableOldestWalFileNumber

def handle (db : DB) (number : Nat) (t : TableFile) : OpenTable :=
  ⟨number, .sst number, db.cache, t⟩

/-- The object has been made, whether or not it will be published. -/
def withOpened (db : DB) (number : Nat) (t : TableFile) : DB :=
  { db with opened := db.opened ++ [db.handle number t] }

/-- Give the tables and the version back that `old` had. -/
def rollback (db old : DB) : DB := { db with sstables := old.sstables }.setCurrentEdit old.edit

def stageFlush (db : DB) (imm : ImmutableMemTable) (number : Nat) (t : TableFile) : DB :=
  ({ db.withOpened number t with sstables := db.sstables ++ [db.handle number t] }.setSSTables
    (db.edit.sstables ++ [flushMeta number (db.memtable imm.memtable) t])).setWALFileNumber
      db.nextLiveWal

/-- Publish a flushed memtable. -/
def publishFlush (db : DB) (imm : ImmutableMemTable) (number : Nat)
    (result : Except Status TableFile) : Prog (DB × Status) :=
  match result with
  | .error e => .ret (db.setBackgroundError e, e)
  | .ok t =>
    if (db.immutables.head?.map (·.walFileNumber)) ≠ some imm.walFileNumber then
      let e := Status.corruption "immutable memtable queue changed during flush"
      .ret ((db.withOpened number t).setBackgroundError e, e)
    else
      (db.stageFlush imm number t).saveManifest >>= fun (saved, status) =>
      if status ≠ .ok then .ret ((saved.rollback db).setBackgroundError status, status)
      else .ret ({ saved with immutables := saved.immutables.tail }, .ok)

/-! ## Compaction -/

def minActiveSnapshotSequence (db : DB) : Nat :=
  db.snapshots.foldl (fun m s =>
    if ¬ s.active then m
    else if m = 0 ∨ s.sequence < m then s.sequence
    else m) 0

structure CompactionJob where
  inputs : List SSTableMeta
  targetLevel : Nat
  minSnapshot : Nat
  number : Nat
  generation : Nat
  /-- The input tables, in the order of `sstables_`. -/
  tables : List OpenTable
  deriving DecidableEq

def isInput (inputs : List SSTableMeta) (t : OpenTable) : Bool :=
  Manifest.hasNumber inputs t.fileNumber

/-- The first critical section of `CompactUnlocked`. No job means that the call
returns at once with the status. -/
def startCompaction (db : DB) : Except Status (CompactionJob × DB) :=
  if db.closed then .error (.ioError "database is not open")
  else if db.backgroundStatus ≠ .ok then .error db.backgroundStatus
  else if db.sstables = [] then .error .ok
  else
    let selected := Compaction.selectInputs db.edit.sstables
    if selected.1 = [] then .error .ok
    else
      match db.allocateFileNumber with
      | .error e => .error e
      | .ok (number, next) =>
        .ok (⟨selected.1, selected.2, db.minActiveSnapshotSequence, number,
          db.lifecycleGeneration, db.sstables.filter (isInput selected.1)⟩, next)

/-- Reading the inputs may fail on any of them. -/
def readInputs : List OpenTable → Prog (Except Status Unit)
  | [] => .ret (.ok ())
  | t :: ts =>
    attempt (.probe t.filePath) (.ret (.error (.ioError "failed to read SSTable")))
      (readInputs ts)

/-- The part of `CompactUnlocked` without the lock: merge, write and open the
output. -/
def buildCompaction (o : Options) (job : CompactionJob) :
    Prog (Except Status (List VersionedEntry × TableFile)) :=
  readInputs job.tables >>= fun
  | .error e => .ret (.error e)
  | .ok () =>
    match Compaction.mergeTables TableFile.Reader.stored (job.tables.map (·.table))
        job.minSnapshot job.targetLevel with
    | .error e => .ret (.error e)
    | .ok output =>
      createFromEntries job.number output o.blockSize o.bloomBitsPerKey >>= fun status =>
      if status ≠ .ok then .op (.remove (.sst job.number)) fun _ => .ret (.error status)
      else
        openTable (.sst job.number) >>= fun
          | .error e => .op (.remove (.sst job.number)) fun _ => .ret (.error e)
          | .ok t => .ret (.ok (output, t))

def compactionMeta (job : CompactionJob) (output : List VersionedEntry) (t : TableFile) :
    SSTableMeta :=
  ⟨job.number, .sst job.number, job.targetLevel, (keyRange output).1, (keyRange output).2,
    fileSize t⟩

def stageCompaction (db : DB) (job : CompactionJob) (output : List VersionedEntry)
    (t : TableFile) : DB :=
  let files := (db.edit.sstables.filter fun m => !Manifest.hasNumber job.inputs m.fileNumber) ++
    [compactionMeta job output t]
  { db.withOpened job.number t with
    sstables := (db.sstables.filter fun h => !isInput job.inputs h) ++
      [db.handle job.number t] }.setSSTables files

/-- The publishing section of `CompactUnlocked`. -/
def publishCompaction (db : DB) (job : CompactionJob) (output : List VersionedEntry)
    (t : TableFile) : Prog (DB × Status) :=
  if db.closed ∨ db.lifecycleGeneration ≠ job.generation then
    .op (.remove (.sst job.number)) fun _ =>
      .ret (db.withOpened job.number t, .ioError "database changed while compaction was building")
  else if job.inputs.any fun m => !Manifest.hasNumber db.edit.sstables m.fileNumber then
    .op (.remove (.sst job.number)) fun _ =>
      .ret (db.withOpened job.number t, .ioError "compaction input changed before publish")
  else
    (db.stageCompaction job output t).saveManifest >>= fun (saved, status) =>
    if status ≠ .ok then .ret (saved.rollback db, status) else .ret (saved, .ok)

/-- Remove the input files of a published compaction. -/
def removeInputs : List OpenTable → Prog Status
  | [] => .ret .ok
  | t :: ts =>
    attempt (.remove t.filePath) (.ret (.ioError "failed to remove file")) (removeInputs ts)

/-- The condition `MaybeCompact` tests before every attempt. -/
def needsCompaction (db : DB) : Bool :=
  (Compaction.ofLevel db.edit.sstables 0).length > db.options.level0SstableLimit ||
    ((Compaction.ofLevel db.edit.sstables 1).map (·.fileSize)).sum % 2 ^ 64 >
      db.options.level1SizeLimitBytes

/-! ## Close -/

/-- `Close` up to the point where it releases the lock; the answer tells whether
the active memtable was moved. -/
def beginClose (db : DB) : DB × Bool :=
  if db.activeMemtable.size > 0 then
    ({ db with
      wal := none
      immutables := db.immutables ++ [⟨db.active, db.activeMemtableOldestWalFileNumber⟩]
      mems := db.mems ++ [[]]
      active := db.mems.length }, true)
  else (db, false)

def finishClose (db : DB) (status : Status) : DB :=
  let db := if status ≠ .ok then db.setBackgroundError status else db
  { db with
    closed := true
    wal := none
    snapshots := db.snapshots.map fun s => { s with active := false } }

/-- What `Close` finds once the worker has ended. -/
def closeStatus (db : DB) : Status :=
  if db.backgroundStatus = .ok ∧ db.immutables ≠ [] then
    .ioError "background flush did not drain all immutable memtables"
  else db.backgroundStatus

/-- Make `number` the oldest live log. -/
def moveWal (db : DB) (number : Nat) : DB :=
  { db.setWALFileNumber number with
    activeWalFileNumber := number
    activeMemtableOldestWalFileNumber := number }

/-- `Close` once the worker has ended and the compaction lock is held. -/
def endClose (db : DB) (moved : Bool) : Prog (DB × Status) :=
  if db.closeStatus = .ok ∧ moved then
    match db.allocateFileNumber with
    | .error e => .ret (db.finishClose e, e)
    | .ok (number, next) =>
      (next.moveWal number).saveManifest >>= fun (saved, status) =>
      if status ≠ .ok then .ret (saved.finishClose status, status)
      else
        removeObsoleteWALFiles number >>= fun status => .ret (saved.finishClose status, status)
  else .ret (db.finishClose db.closeStatus, db.closeStatus)

/-! ## Snapshots and reads -/

def getSnapshot (db : DB) : DB :=
  if db.closed then db else { db with snapshots := db.snapshots ++ [⟨db.lastSequence, true⟩] }

def releaseSnapshot (db : DB) (i : Nat) : DB :=
  { db with snapshots := db.snapshots.modify i fun s => { s with active := false } }

/-- `ValidateReadOptions`; a snapshot is named by its position. -/
def validateReadOptions (db : DB) (snapshot : Option Nat) : Status :=
  if db.closed then .ioError "database is not open"
  else
    match snapshot with
    | none => .ok
    | some i =>
      if (db.snapshots[i]?.map (·.active)) = some true then .ok
      else .invalidArgument "snapshot is released, foreign, or from a previous open"

def readSequence (db : DB) (snapshot : Option Nat) : Nat :=
  match snapshot with
  | none => db.lastSequence
  | some i => (db.snapshots[i]?.map (·.sequence)).getD 0

/-- The view a read has pinned. -/
structure Pinned where
  readSequence : Nat
  active : Nat
  immutables : List Nat
  sstables : List OpenTable

def pin (db : DB) (snapshot : Option Nat) : Except Status Pinned :=
  match db.validateReadOptions snapshot with
  | .ok => .ok ⟨db.readSequence snapshot, db.active, db.immutables.map (·.memtable), db.sstables⟩
  | status => .error status

/-- The answer to a read from the newest version found. -/
def answer (e : VersionedEntry) : Except Status Bytes :=
  if e.deleted then .error (.notFound "key deleted") else .ok e.value

/-- The first memtable, newest first, that has a version. -/
def lookupMems (mems : List MemTable) (key : Bytes) (r : Nat) : List Nat → Option VersionedEntry
  | [] => none
  | i :: is =>
    match (mems.getD i []).get key r with
    | some e => some e
    | none => lookupMems mems key r is

/-- What `ReadRawBlock` gives to a read, for each open table. -/
abbrev BlockReads := OpenTable → IndexEntry → Except Status Bytes

/-- Every block comes from the file of its table. -/
def fileReads : BlockReads := fun t => t.table.loaded.readRawBlock

/-- The table loop of `Get`: the version with the largest sequence wins, and one at
the read sequence itself ends the search. -/
def lookupTables (raw : BlockReads) (key : Bytes) (r : Nat) :
    List OpenTable → Option (Option Bytes × Nat) → Except Status (Option (Option Bytes × Nat))
  | [], best => .ok best
  | t :: ts, best =>
    match t.table.loaded.getFrom (raw t) key r with
    | .error (.notFound _) => lookupTables raw key r ts best
    | .error e => .error e
    | .ok found =>
      if best.all fun b => decide (found.2 > b.2) then
        if found.2 = r then .ok (some found) else lookupTables raw key r ts (some found)
      else lookupTables raw key r ts best

/-- The part of `Get` without the lock. The memtables are read as they are now. -/
def lookup (raw : BlockReads) (mems : List MemTable) (p : Pinned) (key : Bytes) :
    Except Status Bytes :=
  match lookupMems mems key p.readSequence (p.active :: p.immutables.reverse) with
  | some e => answer e
  | none =>
    match lookupTables raw key p.readSequence p.sstables.reverse none with
    | .error e => .error e
    | .ok none => .error (.notFound "key not found")
    | .ok (some (none, _)) => .error (.notFound "key deleted")
    | .ok (some (some value, _)) => .ok value

def get (raw : BlockReads) (db : DB) (key : Bytes) (snapshot : Option Nat) :
    Except Status Bytes :=
  match validateKey key with
  | .ok =>
    match db.pin snapshot with
    | .error e => .error e
    | .ok p => lookup raw db.mems p key
  | status => .error status

def newIterator (db : DB) (snapshot : Option Nat) : MergingIterator :=
  match db.validateReadOptions snapshot with
  | .ok =>
    let r := db.readSequence snapshot
    { children :=
        db.sstables.map (fun t => InternalIterator.sstable (SSTableIterator.new t.table r)) ++
        (db.immutables.map (fun imm =>
            InternalIterator.memtable (MemTableIterator.new (db.memtable imm.memtable) r .ok)) ++
          [InternalIterator.memtable (MemTableIterator.new db.activeMemtable r .ok)]) }
  | status =>
    { children := [InternalIterator.memtable (MemTableIterator.new [] 0 status)], status := status }

end DB

end KvMem
