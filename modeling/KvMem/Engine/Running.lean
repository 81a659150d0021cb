import KvMem.Engine.Effects
import KvMem.Engine.Jobs
import KvMem.Engine.Rejection

/-! # A running database

The invariant of an open database with all its threads: what the containers hold, the
numbers that are handed out, what each program may still do to the files and how each
section will end. It holds in every state between two sections and in the middle of
each, whatever operation fails.
-/

namespace KvMem

open CrashStore FileProg

/-! ## What the threads rely on -/

/-- A number that has been handed out and belongs to no table of the version. -/
structure Handed (db : DB) (number : Nat) : Prop where
  pos : 1 ≤ number
  lt : number < db.nextFileNumber
  new : ∀ m ∈ db.edit.sstables, m.fileNumber ≠ number

def FlushBuilt (o : Options) (number : Nat) (entries : List VersionedEntry)
    (res : Except Status TableFile) (d : Dir) : Prop :=
  ∀ t, res = .ok t → ((d.slot (.sst number)).Durable [.table t] ∧
      t = SSTable.tableOf entries o.blockSize o.bloomBitsPerKey) ∧
    SSTable.checkCreate entries o.bloomBitsPerKey = .ok

def CompactionBuilt (o : Options) (job : DB.CompactionJob)
    (res : Except Status (List VersionedEntry × TableFile)) (d : Dir) : Prop :=
  ∀ output t, res = .ok (output, t) → ((d.slot (.sst job.number)).Durable [.table t] ∧
      t = SSTable.tableOf output o.blockSize o.bloomBitsPerKey ∧
      Compaction.mergeTables TableFile.Reader.plain (job.tables.map (·.table))
        job.minSnapshot job.targetLevel = .ok output) ∧
    SSTable.checkCreate output o.bloomBitsPerKey = .ok

def WorkerOk (db : DB) (dir : Dir) : Worker → Prop
  | .stopped | .idle | .publishing => True
  | .building imm number prog =>
    (∃ rest, db.immutables = imm :: rest) ∧ Handed db number ∧
      Safe (buildRely number) (FlushBuilt db.options number (db.memtable imm.memtable)) prog dir
  | .wantCompact oldest | .compacting oldest _ | .failed oldest _ =>
    oldest ≤ db.edit.walFileNumber
  | .sweeping oldest prog =>
    oldest ≤ db.edit.walFileNumber ∧ Safe (sweepRely oldest) (fun _ _ => True) prog dir

def Sys.Flushing (s : Sys) (n : Nat) : Prop :=
  (∃ imm p, s.worker = .building imm n p) ∨ ∃ imm r p, s.main = some (.publishFlush imm n r, p)

/-- `busy` are the numbers the worker uses. -/
def CompactorOk (db : DB) (dir : Dir) (L : Log) (start : Nat) (busy : Nat → Prop) :
    Compactor → Prop
  | .idle | .publishing => True
  | .building job prog =>
    JobOk db L start job ∧ Handed db job.number ∧ ¬ busy job.number ∧
      Safe (buildRely job.number) (CompactionBuilt db.options job) prog dir
  | .removing prog =>
    ∃ ns, (∀ n ∈ ns, n < db.nextFileNumber ∧ (∀ m ∈ db.edit.sstables, m.fileNumber ≠ n) ∧
        ¬ busy n) ∧
      Safe (removeRely ns) (fun _ _ => True) prog dir

namespace Section

/-- How a section can end, whatever its file steps answer. -/
def Result (db : DB) : Section → DB × Status → Prop
  | .opening, _ => True
  | .writing r, res =>
    (res.2 = .ok ∧ res.1 = (db.setMemtable db.active
      (DB.applyBatch r.batch (db.lastSequence + 1) db.activeMemtable)).setLastSequence
        (db.lastSequence + r.batch.count)) ∨
    (res.2 ≠ .ok ∧ res.1 = if res.2.isInvalidArgument then db else db.setBackgroundError res.2)
  | .switching, res =>
    (res.2 = .ok ∧ db.activeMemtable.size = 0 ∧ res.1 = db) ∨
    (res.2 = .ok ∧ db.activeMemtable.size ≠ 0 ∧ db.nextFileNumber ≠ maxUInt64 ∧
      res.1 = db.switched) ∨
    (res.2 ≠ .ok ∧ (res.1 = db ∨ res.1 = db.setBackgroundError res.2))
  | .publishFlush imm number result, res =>
    (∃ t, result = .ok t ∧ res.2 = .ok ∧
      db.immutables.head?.map (·.walFileNumber) = some imm.walFileNumber ∧
      res.1 = db.flushed imm number t) ∨
    (∃ t, result = .ok t ∧ res.2 ≠ .ok ∧
      res.1 = (db.withOpened number t).setBackgroundError res.2) ∨
    (∃ e, result = .error e ∧ res.2 = e ∧ res.1 = db.setBackgroundError e)
  | .publishCompaction job output t, res =>
    (res.2 = .ok ∧ db.closed = false ∧ db.lifecycleGeneration = job.generation ∧
      db.StillLive job ∧ res.1 = db.compacted job output t) ∨
    (res.2 ≠ .ok ∧ (res.1 = db.withOpened job.number t ∨
      res.1 = (db.withOpened job.number t).setBackgroundError res.2))
  | .closing _, res => db.Closes res

def Sound (s : Sys) (L : Log) (start : Nat) : Section → Prop
  | .opening => False
  | .writing r =>
    s.closing = none ∧ r.sequence = s.db.lastSequence + 1 ∧ Wal.Appendable r ∧
      ∀ o ∈ r.batch, KeyOk o.key
  | .switching => s.closing = none
  | .publishFlush imm number result =>
    s.worker = .publishing ∧ (∃ rest, s.db.immutables = imm :: rest) ∧ Handed s.db number ∧
      ∀ t, result = .ok t → FlushOk s.db imm number t
  | .publishCompaction job output t =>
    s.compactor = .publishing ∧ JobOk s.db L start job ∧ Handed s.db job.number ∧
      OutputOk s.db job output t ∧ ¬ s.Flushing job.number
  | .closing moved => s.worker = .stopped ∧ s.compactor = .idle ∧ s.closing = some moved

end Section

structure SectionOk (s : Sys) (L : Log) (start : Nat) (k : Section) (p : Prog (DB × Status)) :
    Prop where
  safe : Safe (mainRely k s.db.nextFileNumber) (anyResult _) p s.dir
  ends : p.Ends (k.Result s.db)
  sound : k.Sound s L start

/-- The invariant of an open database. -/
structure Running (s : Sys) (L : Log) (start floor m : Nat) : Prop where
  isOpen : s.db.closed = false
  contents : Contents s.db L start floor m
  records : L.records = s.history
  path : s.db.manifest.path = .manifest
  ambient : Ambient s.dir
  unused : Unused s.db.nextFileNumber s.dir
  places : ∀ p ∈ L, p.1 < s.db.nextFileNumber
  tables : ∀ x ∈ s.db.edit.sstables, x.fileNumber < s.db.nextFileNumber
  wal : s.closing ≠ some true → ∃ a, s.db.wal = some a ∧ floor ≤ a ∧ a < s.db.nextFileNumber ∧
    ∀ p ∈ L, p.1 ≤ a
  oldest : s.closing ≠ some true → s.db.activeMemtableOldestWalFileNumber = floor
  fresh : s.db.activeMemtableOldestWalFileNumber < s.db.nextFileNumber
  moved : s.closing = some true → L.since floor = [] ∧ s.db.wal = none
  tight : s.closing ≠ some true → L.within s.db.edit.walFileNumber start = []
  worker : WorkerOk s.db s.dir s.worker
  compactor : CompactorOk s.db s.dir L start s.Flushing s.compactor
  main : ∀ k p, s.main = some (k, p) → SectionOk s L start k p
  flushing : s.worker = .publishing → ∃ imm n r p, s.main = some (.publishFlush imm n r, p)
  compacting : s.compactor = .publishing →
    ∃ job output t p, s.main = some (.publishCompaction job output t, p)

/-! ## Changes of the database as the threads see them -/

/-- Numbers are only handed out, and only `extra` joins the version. -/
structure DB.Advances (extra : Option Nat) (db db' : DB) : Prop where
  options : db'.options = db.options
  next : db.nextFileNumber ≤ db'.nextFileNumber
  wal : db.edit.walFileNumber ≤ db'.edit.walFileNumber
  tables : ∀ m ∈ db'.edit.sstables,
    (∃ m' ∈ db.edit.sstables, m'.fileNumber = m.fileNumber) ∨ extra = some m.fileNumber

/-- The queue only grows at its end, and its memtables do not change. -/
structure DB.KeepsQueue (db db' : DB) : Prop where
  front : ∃ more, db'.immutables = db.immutables ++ more
  memtables : ∀ imm ∈ db.immutables, db'.memtable imm.memtable = db.memtable imm.memtable

section Changes

variable {db db' : DB} {dir : Dir} {L : Log} {start floor m : Nat} {extra : Option Nat}

theorem Handed.advance (h : Handed db n) (ha : DB.Advances extra db db') (hne : extra ≠ some n) :
    Handed db' n := by
  refine ⟨h.pos, lt_of_lt_of_le h.lt ha.next, ?_⟩
  intro x hx heq
  rcases ha.tables x hx with ⟨y, hy, hnum⟩ | hextra
  · exact h.new y hy (hnum.trans heq)
  · rw [heq] at hextra
    exact hne hextra

theorem WorkerOk.advance {w : Worker} (h : WorkerOk db dir w) (ha : DB.Advances extra db db')
    (hq : DB.KeepsQueue db db') (hne : ∀ imm n p, w = .building imm n p → extra ≠ some n) :
    WorkerOk db' dir w := by
  cases w with
  | stopped | idle | publishing => trivial
  | building imm number prog =>
    obtain ⟨⟨rest, hrest⟩, hhanded, hsafe⟩ := h
    obtain ⟨more, hmore⟩ := hq.front
    have hmem := hq.memtables imm (by rw [hrest]; exact List.mem_cons_self)
    refine ⟨⟨rest ++ more, by rw [hmore, hrest]; rfl⟩,
      hhanded.advance ha (hne imm number prog rfl), ?_⟩
    rw [ha.options, hmem]
    exact hsafe
  | wantCompact oldest | compacting oldest _ | failed oldest _ =>
    exact Nat.le_trans (show oldest ≤ db.edit.walFileNumber from h) ha.wal
  | sweeping oldest prog => exact ⟨h.1.trans ha.wal, h.2⟩

theorem CompactorOk.advance {busy : Nat → Prop} {c : Compactor} {L' : Log} {start' : Nat}
    (h : CompactorOk db dir L start busy c) (ha : DB.Advances extra db db')
    (hne : ∀ n, extra = some n → busy n)
    (hjob : ∀ job, JobOk db L start job → JobOk db' L' start' job) :
    CompactorOk db' dir L' start' busy c := by
  cases c with
  | idle | publishing => trivial
  | building job prog =>
    obtain ⟨hj, hhanded, hbusy, hsafe⟩ := h
    refine ⟨hjob job hj, hhanded.advance ha fun he => hbusy (hne _ he), hbusy, ?_⟩
    rw [ha.options]
    exact hsafe
  | removing prog =>
    obtain ⟨ns, hns, hsafe⟩ := h
    refine ⟨ns, ?_, hsafe⟩
    intro n hn
    obtain ⟨hlt, hnew, hbusy⟩ := hns n hn
    refine ⟨lt_of_lt_of_le hlt ha.next, ?_, hbusy⟩
    intro x hx heq
    rcases ha.tables x hx with ⟨y, hy, hnum⟩ | hextra
    · exact hnew y hy (hnum.trans heq)
    · rw [heq] at hextra
      exact hbusy (hne n hextra)

theorem CompactorOk.busy_mono {busy busy' : Nat → Prop} {c : Compactor}
    (h : CompactorOk db dir L start busy c)
    (hb : ∀ n, n < db.nextFileNumber → busy' n → busy n) : CompactorOk db dir L start busy' c := by
  cases c with
  | idle | publishing => trivial
  | building job prog =>
    obtain ⟨hj, hhanded, hbusy, hsafe⟩ := h
    exact ⟨hj, hhanded, fun hb' => hbusy (hb _ hhanded.lt hb'), hsafe⟩
  | removing prog =>
    obtain ⟨ns, hns, hsafe⟩ := h
    refine ⟨ns, fun n hn => ?_, hsafe⟩
    obtain ⟨hlt, hnew, hbusy⟩ := hns n hn
    exact ⟨hlt, hnew, fun hb' => hbusy (hb n hlt hb')⟩

theorem JobOk.congr {job : DB.CompactionJob} (hj : JobOk db L start job)
    (htables : db'.edit.sstables = db.edit.sstables) (hsst : db'.sstables = db.sstables)
    (hsnap : db'.snapshots = db.snapshots) (hseq : db'.lastSequence = db.lastSequence) :
    JobOk db' L start job := by
  have hbesides : db'.besides L start job.inputs = db.besides L start job.inputs := by
    rw [DB.besides, hsst]
    rfl
  exact ⟨hj.target, by rw [htables]; exact hj.inputs, by rw [hsst]; exact hj.tables,
    by rw [htables]; exact hj.outside, by rw [hbesides]; exact hj.hides,
    by rw [hseq, hsnap]; exact hj.reads⟩

theorem DB.Agrees.advances (ha : db.Agrees db') (ho : db'.options = db.options) :
    DB.Advances none db db' :=
  ⟨ho, ha.next, ha.wal.ge, fun m hm => Or.inl ⟨m, ha.tables ▸ hm, rfl⟩⟩

theorem DB.Agrees.keepsQueue (ha : db.Agrees db') : DB.KeepsQueue db db' := by
  refine ⟨⟨[], by rw [ha.immutables, List.append_nil]⟩, fun imm _ => ?_⟩
  rw [DB.memtable, DB.memtable, ha.mems]

theorem keepsQueue_append (h : Contents db L start floor m) (mem : MemTable) (n : Nat) :
    DB.KeepsQueue db ((db.setMemtable db.active mem).setLastSequence n) := by
  refine ⟨⟨[], (List.append_nil _).symm⟩, fun imm himm => ?_⟩
  show (db.mems.set db.active mem).getD imm.memtable [] = db.mems.getD imm.memtable []
  have hne : db.active ≠ imm.memtable := Nat.ne_of_gt (h.queued imm himm)
  rw [List.getD_eq_getElem?_getD, List.getD_eq_getElem?_getD, List.getElem?_set_ne hne]

theorem keepsQueue_snoc (h : Contents db L start floor m) {more : List ImmutableMemTable}
    (himm : db'.immutables = db.immutables ++ more) (hmems : db'.mems = db.mems ++ [[]]) :
    DB.KeepsQueue db db' := by
  refine ⟨⟨more, himm⟩, fun imm hin => ?_⟩
  have := h.queued imm hin
  have := h.active
  rw [DB.memtable, DB.memtable, hmems, getD_append_left (by omega)]

end Changes

end KvMem
