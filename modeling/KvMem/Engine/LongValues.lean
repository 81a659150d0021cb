import KvMem.Engine.Guarantees
import KvMem.Storage.FieldWidths

/-! # Values of 2^28 bytes

What a `Write` and a flush leave when they run alone and nothing fails, for batches of any
size. Seventeen versions of one key with values of 2^28 bytes are let in, flushed to one
block and published; the second restart offset of the block has lost its upper bits, and no
read of the key succeeds any more.
-/

namespace KvMem

open CrashStore FileProg SSTable Manifest Versions Parsing

variable {F : Faults} {s : Sys} {db : DB} {batch : WriteBatch} {H : List WALBatchRecord}

/-! ## Sections in which nothing fails -/

namespace DB

theorem runOk_saveManifest (db : DB) (dir : Dir)
    (h : FitsHeader (buildEditPayload db.manifest.persisted db.edit)) :
    (runOk db.saveManifest dir).2 = (db.saved, .ok) := by
  unfold saveManifest save persistEditRecord
  dsimp only
  rw [if_neg (Nat.not_lt.mpr h)]
  by_cases hc : dir.exists .current = true
  · simp [attempt, hc, runOk_bind]
    rfl
  · simp [attempt, hc, runOk_bind, writeCurrentFile]
    rfl

/-- The database behind an append. -/
def written (db : DB) (batch : WriteBatch) : DB :=
  (db.setMemtable db.active
    (applyBatch batch (db.lastSequence + 1) db.activeMemtable)).setLastSequence
      (db.lastSequence + batch.count)

theorem runOk_write (dir : Dir) (hne : batch ≠ [])
    (hok : Wal.checkAppend batch (db.lastSequence + 1) = .ok) :
    (runOk (db.write batch) dir).2 = (db.written batch, .ok) := by
  have hcount : batch.count ≠ 0 := by simpa [WriteBatch.count] using hne
  unfold DB.write appendBatch
  rw [if_neg hcount, hok]
  rfl

theorem runOk_flushMemTable (db : DB) (dir : Dir) (hsize : db.activeMemtable.size ≠ 0)
    (hnum : db.nextFileNumber ≠ maxUInt64)
    (h : FitsHeader (buildEditPayload db.manifest.persisted
      (db.setNextFileNumber (db.nextFileNumber + 1)).edit)) :
    (runOk db.flushMemTable dir).2 = (db.switched, .ok) := by
  unfold flushMemTable allocateFileNumber
  rw [if_neg hsize, if_neg hnum]
  simp only [openWal, attempt, runOk_bind, runOk_op, if_true, runOk_ret, ne_eq, not_true_eq_false,
    if_false]
  rw [runOk_saveManifest (db.setNextFileNumber (db.nextFileNumber + 1)) _ h]
  rfl

theorem runOk_flushImmutableMemTable (o : Options) (number : Nat) (entries : List VersionedEntry)
    (dir : Dir) (h : checkCreate entries o.bloomBitsPerKey = .ok) :
    (runOk (flushImmutableMemTable o number entries) dir).2 =
      .ok (tableOf entries o.blockSize o.bloomBitsPerKey) := by
  obtain ⟨ys, hreset⟩ := Op.reset_data dir (.sstTmp number)
  have hrenamed := Op.rename_data (n := .sst number) (Op.sync_data (Op.append_data
    [Cell.table (tableOf entries o.blockSize o.bloomBitsPerKey)] hreset))
  unfold flushImmutableMemTable createFromEntries openTable
  rw [h]
  simp only [attempt, runOk_bind, runOk_op, runOk_look, if_true, runOk_ret, ne_eq,
    not_true_eq_false, if_false]
  rw [Op.exec_read _ _ (by simp [Op.Touches]), Op.exec_read _ _ (by simp [Op.Touches]), FS.read,
    hrenamed]
  rfl

theorem runOk_publishFlush {imm : ImmutableMemTable} {number : Nat} {t : TableFile} (dir : Dir)
    (hhead : db.immutables.head?.map (·.walFileNumber) = some imm.walFileNumber)
    (h : FitsHeader (buildEditPayload db.manifest.persisted (db.flushedEdit imm number t))) :
    (runOk (db.publishFlush imm number (.ok t)) dir).2 = (db.flushed imm number t, .ok) := by
  unfold publishFlush
  dsimp only
  rw [if_neg (not_not.mpr hhead), runOk_bind, runOk_saveManifest (db.stageFlush imm number t) _ h]
  rfl

end DB

open DB

theorem Reachable.completes (h : Reachable F s) {k : Section} {p : Prog (DB × Status)}
    {status : Status} (hm : s.main = some (k, p)) (hrun : ∀ dir, (runOk p dir).2 = (db, status)) :
    ∃ dir, Reachable F
      ({ s with dir := dir, main := some (k, .ret (db, status)) }.finish k db status) := by
  have hran := h.steps (Sys.ran_run F s)
  unfold Sys.ran at hran
  rw [hm] at hran
  dsimp only at hran
  rw [hrun] at hran
  exact ⟨_, hran.step (Step.mainEnd _ k db status rfl)⟩

/-- A state between two calls can be reached, with this database and this history and with
the background threads at rest. -/
def Quiet (F : Faults) (db : DB) (H : List WALBatchRecord) : Prop :=
  ∃ s, Reachable F s ∧ s.main = none ∧ s.closing = none ∧ s.worker = .idle ∧
    s.db = db ∧ s.history = H

theorem Quiet.write (h : Quiet F db H) (hcheck : db.checkWrite batch = .ok) (hne : batch ≠ [])
    (hseq : db.lastSequence ≤ maxUInt64) (hlimit : 0 < db.options.memtableEntriesLimit)
    (hnum : db.nextFileNumber ≠ maxUInt64)
    (hfits : FitsHeader (buildEditPayload db.manifest.persisted
      ((db.written batch).setNextFileNumber (db.nextFileNumber + 1)).edit)) :
    Quiet F (if (db.written batch).needsSwitch then (db.written batch).switched
      else db.written batch) (H ++ [⟨db.lastSequence + 1, batch⟩]) := by
  obtain ⟨s, hr, hm, hcl, hw, rfl, rfl⟩ := h
  have happ := Wal.checkAppend_of_appendable (appendable_of_checkWrite hne hseq hcheck).1
  obtain ⟨dir, hend⟩ := (hr.step (Step.writeBegin s batch hm hcl hne hcheck)).completes rfl
    fun dir => runOk_write dir hne happ
  unfold Sys.finish Sys.afterAppend at hend
  dsimp only at hend
  rw [if_pos rfl] at hend
  by_cases hfull : (s.db.written batch).needsSwitch = true
  · rw [if_pos hfull] at hend ⊢
    have hsize : s.db.options.memtableEntriesLimit ≤ (s.db.written batch).activeMemtable.size :=
      of_decide_eq_true hfull
    obtain ⟨dir', hswitched⟩ := hend.completes rfl fun dir =>
      runOk_flushMemTable (s.db.written batch) dir (by omega) hnum hfits
    exact ⟨_, hswitched, rfl, hcl, hw, rfl, rfl⟩
  · rw [if_neg hfull] at hend ⊢
    exact ⟨_, hend, rfl, hcl, hw, rfl, rfl⟩

theorem Quiet.flush (h : Quiet F db H) {imm : ImmutableMemTable} {rest : List ImmutableMemTable}
    (himm : db.immutables = imm :: rest) (hb : db.backgroundStatus = .ok)
    (hnum : db.nextFileNumber ≠ maxUInt64)
    (hcreate : checkCreate (db.memtable imm.memtable) db.options.bloomBitsPerKey = .ok)
    {t : TableFile} (ht : tableOf (db.memtable imm.memtable) db.options.blockSize
      db.options.bloomBitsPerKey = t)
    (hfits : FitsHeader (buildEditPayload db.manifest.persisted
      ((db.setNextFileNumber (db.nextFileNumber + 1)).flushedEdit imm db.nextFileNumber t))) :
    ∃ s, Reachable F s ∧ s.history = H ∧
      s.db = (db.setNextFileNumber (db.nextFileNumber + 1)).flushed imm db.nextFileNumber t := by
  obtain ⟨s, hr, hm, hcl, hw, rfl, rfl⟩ := h
  have hstart := hr.step (Step.flushStart s imm rest _ _ hm hw himm hb (if_neg hnum))
  have hbuild := hstart.steps (steps_of_where (P := fun _ => True) (runOk_lift (F := F)
    (P := fun _ => True)
    (flushImmutableMemTable s.db.options s.db.nextFileNumber (s.db.memtable imm.memtable)) s.dir
    (fun d q => { s with
      dir := d, db := s.db.setNextFileNumber (s.db.nextFileNumber + 1)
      worker := .building imm s.db.nextFileNumber q })
    (fun d q d' q' hq => Step.flushStep _ imm _ q q' d' rfl hq) fun _ _ => trivial))
  rw [runOk_flushImmutableMemTable _ _ _ _ hcreate, ht] at hbuild
  have hbegin := hbuild.step (Step.publishFlushBegin _ imm _ (.ok t) hm rfl)
  obtain ⟨dir, hend⟩ := hbegin.completes rfl fun dir => runOk_publishFlush dir
    (show ((s.db.immutables.head?).map (·.walFileNumber)) = _ by rw [himm]; rfl) hfits
  exact ⟨_, hend, rfl, rfl⟩

/-! ## Many versions of one key -/

def puts (n : Nat) (value : Bytes) : WriteBatch := List.replicate n (.put (ascii "k") value)

/-- The versions that `n` such puts leave, the newest first. -/
def versionRun (value : Bytes) : Nat → List VersionedEntry
  | 0 => []
  | n + 1 => ⟨ascii "k", n + 1, value, false⟩ :: versionRun value n

theorem applyBatch_puts (value : Bytes) (n j : Nat) :
    applyBatch (puts n value) (j + 1) (versionRun value j) = versionRun value (j + n) := by
  induction n generalizing j with
  | zero => rfl
  | succ n ih =>
    have hput : MemTable.put (versionRun value j) (ascii "k") (j + 1) value =
        versionRun value (j + 1) := by
      cases j with
      | zero => rfl
      | succ j => simp [MemTable.put, versionRun, MemTable.insert, EntryLt]
    rw [puts, List.replicate_succ, applyBatch]
    rw [hput]
    exact (ih (j + 1)).trans (by rw [Nat.add_right_comm, Nat.add_assoc])

theorem versionRun_length (value : Bytes) (n : Nat) : (versionRun value n).length = n := by
  induction n with
  | zero => rfl
  | succ n ih => rw [versionRun, List.length_cons, ih]

/-- A new database with `n` of these versions in its memtable. -/
def DB.holding (value : Bytes) (n : Nat) : DB :=
  { options := { dbPath := ascii "db", memtableEntriesLimit := 16 }, closed := false
    mems := [[], versionRun value n], active := 1
    manifest := ⟨.manifest, { nextFileNumber := 2, lastSequence := n }, { nextFileNumber := 2 }⟩
    wal := some 1, lifecycleGeneration := 1, cache := 1, blockCache := { capacity := 64 } }

variable {value : Bytes}

theorem holding_written (j n : Nat) :
    (holding value j).written (puts n value) = holding value (j + n) := by
  show ((holding value j).setMemtable 1
    (applyBatch (puts n value) (j + 1) (versionRun value j))).setLastSequence
      (j + (puts n value).count) = _
  rw [applyBatch_puts, show (puts n value).count = n from List.length_replicate]
  rfl

theorem holding_needsSwitch (n : Nat) : (holding value n).needsSwitch = decide (16 ≤ n) := by
  show decide (16 ≤ (versionRun value n).length) = _
  rw [versionRun_length]

theorem holding_checkWrite {j n : Nat} (hlen : n * (10 + value.length) ≤ maxUInt32)
    (hseq : n ≤ maxUInt64 - j) : (holding value j).checkWrite (puts n value) = .ok := by
  have henc : (puts n value).validateEncoding = .ok := by
    rw [WriteBatch.validateEncoding_iff, WriteBatch.encode_length, puts, List.map_replicate,
      List.sum_replicate]
    exact hlen
  have hkey : validateKey (ascii "k") = .ok := by decide
  have hkeys : (puts n value).find? (fun o => validateKey o.key ≠ .ok) = none := by
    refine List.find?_eq_none.mpr fun o ho => ?_
    rw [(List.mem_replicate.mp ho).2]
    exact fun hbad => of_decide_eq_true hbad hkey
  have hnum : (holding value j).nextFileNumber ≠ maxUInt64 := show 2 ≠ maxUInt64 by decide
  have hcount : ¬ (puts n value).count > maxUInt64 - (holding value j).lastSequence := by
    rw [show (puts n value).count = n from List.length_replicate]
    exact Nat.not_lt.mpr hseq
  rw [checkWrite, if_neg (by simp [holding]), if_neg (by simp [holding]),
    if_neg hnum, if_neg (by simp [henc]), if_neg hcount, hkeys]

theorem holding_quiet (F : Faults) (hlen : value.length = 2 ^ 28) :
    Quiet F (holding value 17).switched [⟨1, puts 15 value⟩, ⟨16, puts 2 value⟩] := by
  have hopen : Quiet F (holding value 0) [] :=
    ⟨(Sys.init { dbPath := ascii "db", memtableEntriesLimit := 16 }).callOpen,
      (Reachable.init _).steps (Sys.callOpen_steps rfl rfl rfl), rfl, rfl, rfl, rfl, rfl⟩
  have hlimit : 15 * (10 + value.length) ≤ maxUInt32 := by
    unfold maxUInt32
    omega
  have hfirst := hopen.write (holding_checkWrite hlimit (by decide)) (List.cons_ne_nil _ _)
    (Nat.zero_le _) (show 0 < 16 by decide) (show 2 ≠ maxUInt64 by decide)
    (by rw [holding_written]; exact (by decide +kernel : (buildEditPayload { nextFileNumber := 2 }
      { nextFileNumber := 3, lastSequence := 15 }).length ≤ maxUInt64))
  rw [holding_written, holding_needsSwitch, if_neg (by decide)] at hfirst
  have hsecond := hfirst.write (holding_checkWrite (n := 2) (by omega) (by decide))
    (List.cons_ne_nil _ _) (show 15 ≤ maxUInt64 by decide) (show 0 < 16 by decide)
    (show 2 ≠ maxUInt64 by decide)
    (by rw [holding_written]; exact (by decide +kernel : (buildEditPayload { nextFileNumber := 2 }
      { nextFileNumber := 3, lastSequence := 17 }).length ≤ maxUInt64))
  rwa [holding_written, holding_needsSwitch, if_pos (by decide)] at hsecond

/-! ## The table of seventeen versions -/

theorem tableOf_versionsOf (value : Bytes) : tableOf (versionsOf value) 4096 10 =
    ⟨[versionsOf value], [⟨encodeInternalKey (ascii "k") 1, 0,
      (encodeBlock (versionsOf value)).length⟩], BloomFilter.build [ascii "k"] 10⟩ := by
  have hblocks : cutBlocks 4096 17 (versionsOf value) = [versionsOf value] :=
    tableOf_blocks_oneKey 4096 10 (versionsOf_ne_nil value) fun e he => (mem_versionsOf he).1
  have hkeys : uniqueKeys (versionsOf value) = [ascii "k"] :=
    List.replicate_dedup (x := ascii "k") (k := 17) (by decide)
  show (⟨cutBlocks 4096 17 (versionsOf value), indexBlocks 0 (cutBlocks 4096 17 (versionsOf value)),
    BloomFilter.build (uniqueKeys (versionsOf value)) 10⟩ : TableFile) = _
  rw [hblocks, hkeys]
  rfl

theorem oneKey_filter : (BloomFilter.build [ascii "k"] 10).encode.length = 16 ∧
    (BloomFilter.build [ascii "k"] 10).mayContain (ascii "k") = true := by
  decide +kernel

theorem size_versionsOf (value : Bytes) :
    (tableOf (versionsOf value) 4096 10).size ≤ 17 * value.length + 550 := by
  have hend : offsetAfter (versionsOf value) ≤ 375 + 17 * value.length := by
    have hsplit := offsetAfter_append ((versionsOf value).take 16) ((versionsOf value).drop 16)
    have hlast : (versionsOf value).drop 16 = [⟨ascii "k", 1, value, false⟩] := rfl
    have hkey : (ascii "k").length = 1 := by decide
    rw [List.take_append_drop, offsetAfter_versionsOf, hlast, records, records, List.append_nil,
      recordBytes_length, List.length_drop] at hsplit
    dsimp only at hsplit
    omega
  have hblock := encodeBlock_length (versionsOf value)
  rw [blockPayload_length, restartsOf_versionsOf_length] at hblock
  have hindex : ∀ n, (encodeIndex [⟨encodeInternalKey (ascii "k") 1, 0, n⟩]).length ≤ 40 := by
    have hkey : (encodeInternalKey (ascii "k") 1).length ≤ 12 := by decide
    intro n
    simp only [encodeIndex, List.flatMap_singleton, List.length_append, encodeFixed64_length,
      encodeFixed32_length]
    omega
  have hparts := assemble_length (encodeBlock (versionsOf value))
    (encodeIndex [⟨encodeInternalKey (ascii "k") 1, 0, (encodeBlock (versionsOf value)).length⟩])
    (BloomFilter.build [ascii "k"] 10).encode
  rw [tableOf_versionsOf, TableFile.size, fileBytes_eq, List.flatMap_singleton, hparts,
    oneKey_filter.1]
  have := hindex (encodeBlock (versionsOf value)).length
  omega

theorem decimal_length_le (n : Nat) : (Text.decimal n).length ≤ n + 1 := by
  have hloop : ∀ fuel n (acc : Bytes),
      (Text.decimalLoop fuel n acc).length ≤ acc.length + fuel := by
    intro fuel
    induction fuel with
    | zero => exact fun n acc => le_rfl
    | succ fuel ih =>
      intro n acc
      rw [Text.decimalLoop]
      split
      · simp
      · refine (ih _ _).trans ?_
        simp
        omega
  exact (hloop _ n []).trans (by simp)

theorem flushedEdit_holding (t : TableFile) :
    ((holding value 17).switched.setNextFileNumber 4).flushedEdit ⟨1, 1⟩ 3 t =
      { nextFileNumber := 4, walFileNumber := 2, lastSequence := 17
        sstables := [⟨3, .sst 3, 0, ascii "k", ascii "k", fileSize t⟩] } := rfl

theorem flushRecord_fits {size : Nat} (h : size ≤ maxUInt64 - 150) :
    FitsHeader (buildEditPayload { nextFileNumber := 3, lastSequence := 17 }
      { nextFileNumber := 4, walFileNumber := 2, lastSequence := 17
        sstables := [⟨3, .sst 3, 0, ascii "k", ascii "k", size⟩] }) := by
  have hlines : editLines { nextFileNumber := 3, lastSequence := 17 }
      { nextFileNumber := 4, walFileNumber := 2, lastSequence := 17
        sstables := [⟨3, .sst 3, 0, ascii "k", ascii "k", size⟩] } =
      [field "version_edit" 1, field "next_file_number" 4, field "wal_file_number" 2,
        field "last_sequence" 17, addLine ⟨3, .sst 3, 0, ascii "k", ascii "k", size⟩] := rfl
  have hclosed : (field "version_edit" 1).length + (field "next_file_number" 4).length +
      (field "wal_file_number" 2).length + (field "last_sequence" 17).length +
      (ascii "add_file").length + (Text.decimal 3).length + (FileName.sst 3).bytes.length +
      (Text.decimal 0).length + 2 * (Text.quoted (ascii "k")).length ≤ 120 := by decide
  have hsize := decimal_length_le size
  have hmax : 150 ≤ maxUInt64 := by decide
  rw [FitsHeader, buildEditPayload, hlines]
  simp only [addLine, List.flatMap_cons, List.flatMap_nil, List.length_append, List.length_cons,
    List.length_nil]
  omega

/-- A table of one block that cannot be decoded. -/
theorem oneBlock_fails {t : TableFile} {b : List VersionedEntry} {key : Bytes} {r : Nat}
    {e : Status} (hlaid : t.Laid) (hsize : t.size ≤ maxOffset) (hb : t.blocks = [b])
    (hfilter : t.filter.mayContain key = true) (hlast : ¬ lastKeyOf b < encodeInternalKey key r)
    (hget : getFromBlock (encodeBlock b) key r = .error e) :
    t.loaded.getFrom t.loaded.readRawBlock key r = .error e := by
  have hfirst : t.blocks[0]? = some b := by rw [hb]; rfl
  have hitem := hlaid.index_get hfirst
  have hraw := hlaid.readRawBlock hsize hitem hfirst
  have hindex : t.loaded.index[0]? = _ := hitem
  have hfound : TableFile.lowerBound t.loaded.index (encodeInternalKey key r) = 0 := by
    have hone : t.index.length = 1 := by rw [hlaid.index_length, hb]; rfl
    have hkey : TableFile.lastKeyAt t.index 0 = lastKeyOf b := by
      rw [TableFile.lastKeyAt, hitem]
      rfl
    show TableFile.lowerBoundLoop t.index _ t.index.length 0 t.index.length = 0
    rw [hone, TableFile.lowerBoundLoop, if_neg Nat.one_ne_zero]
    dsimp only
    rw [hkey, if_neg hlast]
    rfl
  rw [LoadedTable.getFrom, if_neg (by rw [show t.loaded.filter = t.filter from rfl, hfilter]; simp),
    LoadedTable.searchBlockFrom, hfound, hindex]
  dsimp only
  rw [LoadedTable.getAt, hraw, ok_bind, hget]
  rfl

theorem lookup_corrupt (raw : BlockReads) (mems : List MemTable) (p : Pinned) {key : Bytes}
    {t : OpenTable} {ts : List OpenTable} {message : String}
    (hmems : lookupMems mems key p.readSequence (p.active :: p.immutables.reverse) = none)
    (htables : p.sstables.reverse = t :: ts)
    (hget : t.table.loaded.getFrom (raw t) key p.readSequence = .error (.corruption message)) :
    DB.lookup raw mems p key = .error (.corruption message) := by
  rw [DB.lookup, hmems, htables, lookupTables, hget]

theorem versionsFrom_puts {e : VersionedEntry} {n j : Nat} (h : e ∈ versionsFrom (puts n value) j) :
    e.value = value ∧ e.deleted = false := by
  induction n generalizing j with
  | zero => cases h
  | succ n ih =>
    rcases List.mem_cons.mp h with rfl | h
    · exact ⟨rfl, rfl⟩
    · exact ih h

theorem visible_puts (value : Bytes) :
    visible (versionsFrom (puts 15 value) 1 ++ versionsFrom (puts 2 value) 16) (ascii "k") 17 =
      some value := by
  rw [visible]
  rcases newest?_spec (versionsFrom (puts 15 value) 1 ++ versionsFrom (puts 2 value) 16)
    (ascii "k") 17 with ⟨x, hx, hn⟩ | ⟨_, hno⟩
  · obtain ⟨hvalue, hlive⟩ : x.value = value ∧ x.deleted = false :=
      (List.mem_append.mp hn.mem).elim versionsFrom_puts versionsFrom_puts
    rw [hx, Option.bind_some]
    show (if x.deleted then none else some x.value) = _
    rw [hlive, hvalue]
    rfl
  · have hfirst := hno ⟨ascii "k", 1, value, false⟩ List.mem_cons_self rfl
    exact absurd (show 17 < 1 from hfirst) (by decide)

/-- Nothing fails. -/
def Faults.none : Faults := ⟨fun _ _ => False, fun _ => False, False, False⟩

/-- Without any fault a database comes to a state in which the history shows a value under a
key and `Get` answers that the table is corrupt. -/
theorem get_fails_long_values : ∃ s, Reachable Faults.none s ∧ s.db.closed = false ∧
    visible s.versions (ascii "k") (s.db.readSequence none) = some longValue ∧
    s.db.get DB.fileReads (ascii "k") none =
      .error (.corruption "invalid prefix-compressed SSTable restart offset") := by
  have hlen : longValue.length = 2 ^ 28 := List.length_replicate
  have hbytes : decodeFixed32 (longValue.drop 315) ≠ 0 := decodeFixed32_drop_replicate (by omega)
  generalize longValue = value at hlen hbytes
  obtain ⟨t, ht⟩ : ∃ t, tableOf (versionsOf value) 4096 10 = t := ⟨_, rfl⟩
  have hsize : t.size ≤ 17 * value.length + 550 := ht ▸ size_versionsOf value
  have hsmall : t.size ≤ maxOffset ∧ t.size ≤ maxUInt64 - 150 := by
    unfold maxOffset maxUInt64
    omega
  obtain ⟨s, hr, hhist, hdb⟩ := (holding_quiet Faults.none hlen).flush
    (show _ = [⟨1, 1⟩] from rfl) rfl (show 3 ≠ maxUInt64 by decide) (checkCreate_versionsOf value)
    ht (flushedEdit_holding t ▸ flushRecord_fits ((Nat.mod_le _ _).trans hsmall.2))
  have hget : t.loaded.getFrom t.loaded.readRawBlock (ascii "k") 17 =
      .error (.corruption "invalid prefix-compressed SSTable restart offset") := by
    refine oneBlock_fails (b := versionsOf value) (ht ▸ tableOf_laid _ _ _) hsmall.1 ?_ ?_ ?_
      (getFromBlock_versionsOf hlen hbytes _ _)
    · rw [← ht, tableOf_versionsOf]
    · rw [← ht, tableOf_versionsOf]
      exact oneKey_filter.2
    · show ¬ encodeInternalKey (ascii "k") 1 < encodeInternalKey (ascii "k") 17
      decide
  refine ⟨s, hr, by rw [hdb]; rfl, ?_, ?_⟩
  · rw [Sys.versions, hhist, hdb]
    exact visible_puts value
  · rw [hdb]
    exact lookup_corrupt DB.fileReads [[], versionRun value 17, []]
      ⟨17, 2, [], [⟨3, .sst 3, 1, t⟩]⟩ rfl rfl hget

end KvMem
