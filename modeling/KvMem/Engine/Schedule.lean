import KvMem.Engine.Period

/-! # What the threads do between sections

The worker and the compaction start, stop and hand over, a section begins, a snapshot
is taken. With the file steps and the ends of sections these are all steps of an open
database.
-/

namespace KvMem

open CrashStore FileProg Compaction

variable {s : Sys} {L : Log} {start floor m : Nat}

/-! ## Built tables -/

theorem createFromEntries_checked (number : Nat) (entries : List VersionedEntry)
    (blockSize bits : Nat) :
    (createFromEntries number entries blockSize bits).Ends fun st =>
      st = .ok → SSTable.checkCreate entries bits = .ok := by
  unfold createFromEntries
  split
  · rename_i hcheck
    exact (ends_true _).mono fun _ _ _ => hcheck
  · exact fun hst => hst

theorem flushImmutableMemTable_checked (o : Options) (number : Nat)
    (entries : List VersionedEntry) :
    (DB.flushImmutableMemTable o number entries).Ends fun res =>
      ∀ t, res = .ok t → SSTable.checkCreate entries o.bloomBitsPerKey = .ok := by
  refine (createFromEntries_checked number entries _ _).bind fun st hst => ?_
  split
  · intro t ht
    cases ht
  · rename_i hok
    exact (ends_true _).mono fun _ _ _ _ => hst (not_not.mp hok)

theorem buildCompaction_checked (o : Options) (job : DB.CompactionJob) :
    (DB.buildCompaction o job).Ends fun res =>
      ∀ output t, res = .ok (output, t) →
        SSTable.checkCreate output o.bloomBitsPerKey = .ok := by
  refine (ends_true _).bind fun res _ => ?_
  cases res with
  | error e =>
    intro output t ht
    cases ht
  | ok _ =>
    dsimp only
    split
    · intro output t ht
      cases ht
    · refine (createFromEntries_checked _ _ _ _).bind fun st hst => ?_
      split
      · intro _ output t ht
        cases ht
      · rename_i hok
        refine (ends_true _).bind fun res _ => ?_
        cases res with
        | error e =>
          intro _ output t ht
          cases ht
        | ok t =>
          intro output' t' ht
          cases ht
          exact hst (not_not.mp hok)

variable {db : DB} {imm : ImmutableMemTable} {dir : Dir} {number oldest : Nat} {t : TableFile}
  {job : DB.CompactionJob} {output : List VersionedEntry} {c : Compactor} {w : Worker} {k : Section}
  {batch : WriteBatch}

theorem Contents.queued_entries (h : Contents db L start floor m) (himm : imm ∈ db.immutables) :
    StrictRun (db.memtable imm.memtable) ∧
      ∀ e ∈ db.memtable imm.memtable, e ∈ L.versions := by
  obtain ⟨a, b, hmem⟩ := h.queue.holds imm himm
  refine ⟨hmem.strict, fun e he => ?_⟩
  obtain ⟨p, hp, hep⟩ := Log.mem_versions.mp ((hmem.mem e).mp he)
  exact Log.mem_versions.mpr ⟨p, (Log.mem_within.mp hp).1, hep⟩

theorem FlushBuilt.flushOk (h : Contents db L start floor m) (himm : imm ∈ db.immutables)
    (hn : Handed db number) (hle : db.nextFileNumber ≤ maxUInt64) {res : Except Status TableFile}
    (hb : FlushBuilt db.options number (db.memtable imm.memtable) res dir) (ht : res = .ok t) :
    FlushOk db imm number t := by
  obtain ⟨⟨_, htable⟩, hcheck⟩ := hb t ht
  obtain ⟨hstrict, hmem⟩ := h.queued_entries himm
  have hlt := hn.lt
  subst htable
  refine ⟨SSTable.tableOf_entries _ _ _, ?_, SSTable.tableOf_laid _ _ _, hn.new, hn.pos, by omega⟩
  refine SSTable.tableOf_wf _ hstrict.sorted ?_ ?_ hcheck
  · exact fun e he => (h.history.keyOk (hmem e he)).noNul
  · exact fun e he => h.history.sequence_le (hmem e he)

theorem CompactionBuilt.outputOk (h : Contents db L start floor m) (hj : JobOk db L start job)
    (hn : Handed db job.number) (hle : db.nextFileNumber ≤ maxUInt64)
    {res : Except Status (List VersionedEntry × TableFile)}
    (hb : CompactionBuilt db.options job res dir) (ht : res = .ok (output, t)) :
    OutputOk db job output t := by
  obtain ⟨⟨_, htable, hmerge⟩, hcheck⟩ := hb output t ht
  have hlt := hn.lt
  obtain ⟨hsorted, hkept⟩ := hj.kept h hmerge
  have hmem : ∀ e ∈ output, e ∈ L.versions := fun e he => hj.entries_mem h ((hkept e).mp he).1
  subst htable
  refine ⟨hmerge, SSTable.tableOf_entries _ _ _, ?_, SSTable.tableOf_laid _ _ _, hn.new, hn.pos,
    by omega⟩
  refine SSTable.tableOf_wf _ hsorted ?_ ?_ hcheck
  · exact fun e he => (h.history.keyOk (hmem e he)).noNul
  · exact fun e he => h.history.sequence_le (hmem e he)

/-! ## Handing over -/

section

variable (h : Running s L start floor m)

include h

theorem Running.move (hw : WorkerOk s.db s.dir w)
    (hb : ∀ imm n p, w = .building imm n p → ∃ imm p, s.worker = .building imm n p)
    (hwp : w = .publishing ↔ s.worker = .publishing) (hws : s.worker = .stopped → w = .stopped)
    (hc : c = s.compactor ∨ (c = .idle ∧ s.compactor ≠ .publishing)) :
    Running { s with worker := w, compactor := c } L start floor m := by
  refine h.threads h.ambient h.unused hw ?_ ?_ ?_ ?_
  · rcases hc with rfl | ⟨rfl, _⟩
    · refine h.compactor.busy_mono ?_
      rintro n _ (⟨imm, p, hp⟩ | hmain)
      · exact Or.inl (hb imm n p hp)
      · exact Or.inr hmain
    · trivial
  · intro k p hk
    have hsec := h.main k p hk
    refine ⟨hsec.safe, hsec.ends, hsec.sound.threads hwp.mpr hws ?_ ?_ hb⟩
    · intro hp
      rcases hc with rfl | ⟨_, hne⟩
      · exact hp
      · exact absurd hp hne
    · intro hp
      rcases hc with rfl | ⟨rfl, _⟩
      · exact hp
      · rfl
  · exact fun he => h.flushing (hwp.mp he)
  · intro he
    rcases hc with rfl | ⟨rfl, _⟩
    · exact h.compacting he
    · cases he

theorem Running.compactionDone (st : Status)
    (hc : c = s.compactor ∨ (c = .idle ∧ s.compactor ≠ .publishing)) :
    Running { s with worker := s.worker.compactionDone st, compactor := c } L start floor m := by
  refine h.move (h.worker.compactionDone st) ?_ ⟨publishing_of_compactionDone, ?_⟩ ?_ hc
  · exact fun imm n p hp => ⟨imm, p, building_of_compactionDone hp⟩
  · intro he
    rw [he]
    rfl
  · intro he
    rw [he]
    rfl

theorem Running.compactLock (hw : s.worker = .wantCompact oldest) :
    Running { s with worker := .compacting oldest 4 } L start floor m := by
  have hwork := h.worker
  rw [hw] at hwork
  exact h.move hwork (fun _ _ _ he => by cases he) (by rw [hw]; simp) (by rw [hw]; simp)
    (Or.inl rfl)

theorem Running.compactEnough {attempts : Nat} (hw : s.worker = .compacting oldest attempts) :
    Running { s with worker := .sweeping oldest (removeObsoleteWALFiles oldest) } L start floor m := by
  have hwork := h.worker
  rw [hw] at hwork
  exact h.move ⟨hwork, sweep_safe oldest s.dir⟩ (fun _ _ _ he => by cases he) (by rw [hw]; simp)
    (by rw [hw]; simp) (Or.inl rfl)

theorem Running.workerStop (hw : s.worker = .idle) :
    Running { s with worker := .stopped } L start floor m :=
  h.move trivial (fun _ _ _ he => by cases he) (by rw [hw]; simp) (fun _ => rfl) (Or.inl rfl)

theorem Running.no_publishing (hm : s.main = none) :
    s.worker ≠ .publishing ∧ s.compactor ≠ .publishing := by
  constructor
  · intro he
    obtain ⟨imm, n, r, p, hp⟩ := h.flushing he
    rw [hm] at hp
    cases hp
  · intro he
    obtain ⟨job, output, t, p, hp⟩ := h.compacting he
    rw [hm] at hp
    cases hp

theorem Running.workerLatched (hm : s.main = none) {db' : DB}
    (hl : DB.Latched s.db db') (hw : WorkerOk s.db s.dir w) (hb : ∀ imm n p, w ≠ .building imm n p)
    (hp : w ≠ .publishing) : Running { s with db := db', worker := w } L start floor m := by
  refine h.latched _ hl rfl rfl rfl rfl hm hw ?_ (Or.inl rfl) hp (h.no_publishing hm).2
  exact fun imm n p he => absurd he (hb imm n p)

end

/-! ## Beginning to build -/

theorem allocated_changes {next : DB} (ha : db.allocateFileNumber = .ok (number, next)) :
    db.Agrees next ∧ DB.Advances none db next ∧ number = db.nextFileNumber ∧
      next.nextFileNumber = number + 1 ∧ next.closed = db.closed ∧ next.wal = db.wal ∧
      next.manifest.path = db.manifest.path ∧ next.options = db.options := by
  obtain ⟨rfl, _, rfl⟩ := DB.allocateFileNumber_ok ha
  have hagree : db.Agrees (db.setNextFileNumber (db.nextFileNumber + 1)) :=
    ⟨rfl, rfl, rfl, rfl, rfl, rfl, rfl, rfl, rfl, Nat.le_succ _⟩
  exact ⟨hagree, hagree.advances rfl, rfl, rfl, rfl, rfl, rfl, rfl⟩

section

variable (h : Running s L start floor m)

include h

theorem Running.handed {next : DB} (ha : s.db.allocateFileNumber = .ok (number, next)) :
    Handed next number ∧ number < maxUInt64 ∧ s.dir.exists (.sst number) = false := by
  obtain ⟨hagree, _, hnum, hnext, _⟩ := allocated_changes ha
  obtain ⟨_, hmax, _⟩ := DB.allocateFileNumber_ok ha
  have hpos := h.contents.edit.next_pos
  have hle := h.contents.edit.next_le
  have hfresh := (h.unused number (by omega)).1
  refine ⟨⟨?_, by omega, ?_⟩, ?_, hfresh⟩
  · rw [hnum]
    exact Nat.one_le_iff_ne_zero.mpr hpos
  · intro x hx
    rw [hagree.tables] at hx
    have := h.tables x hx
    omega
  · have hle' : s.db.nextFileNumber ≤ maxUInt64 := hle
    omega

theorem Running.allocated (hm : s.main = none) {next : DB}
    (ha : s.db.allocateFileNumber = .ok (number, next)) (hw : WorkerOk next s.dir w)
    (hc : CompactorOk next s.dir L start
      (Sys.Flushing { s with db := next, worker := w, compactor := c }) c) (hwp : w ≠ .publishing)
    (hcp : c ≠ .publishing) :
    Running { s with db := next, worker := w, compactor := c } L start floor m := by
  obtain ⟨hagree, hadv, hnum, hnext, hclosed, hwal, hpath, _⟩ := allocated_changes ha
  refine h.update rfl (hclosed.trans h.isOpen) (h.contents.allocated ha) h.records hpath hadv
    (fun n hn => by cases hn) ?_ ?_ ?_ ?_ ?_ ?_ hw hc hm hwp hcp
  · exact fun p hp => lt_of_lt_of_le (h.places p hp) hadv.next
  · intro hne
    obtain ⟨a, hsome, hfloor, hlt, hle⟩ := h.wal hne
    exact ⟨a, hwal.trans hsome, hfloor, lt_of_lt_of_le hlt hadv.next, hle⟩
  · intro hne
    rw [hagree.oldest]
    exact h.oldest hne
  · rw [hagree.oldest]
    exact lt_of_lt_of_le h.fresh hadv.next
  · rw [hwal]
    exact h.moved
  · rw [hagree.wal]
    exact h.tight

theorem Running.flushStart (hm : s.main = none)
    {rest : List ImmutableMemTable} {next : DB} (hi : s.db.immutables = imm :: rest)
    (ha : s.db.allocateFileNumber = .ok (number, next)) :
    Running { s with
      db := next
      worker := .building imm number
        (DB.flushImmutableMemTable s.db.options number (s.db.memtable imm.memtable)) }
      L start floor m := by
  obtain ⟨hagree, hadv, hnum, hnext, _, _, _, hopts⟩ := allocated_changes ha
  obtain ⟨hhanded, hmax, hfresh⟩ := h.handed ha
  have himm : imm ∈ s.db.immutables := by rw [hi]; exact List.mem_cons_self
  obtain ⟨_, hmem⟩ := h.contents.queued_entries himm
  refine h.allocated hm ha ⟨⟨rest, hagree.immutables.trans hi⟩, hhanded, ?_⟩ ?_ (by simp)
    (h.no_publishing hm).2
  · have hsame : next.memtable imm.memtable = s.db.memtable imm.memtable := by
      rw [DB.memtable, DB.memtable, hagree.mems]
    rw [hopts, hsame]
    refine (flushImmutableMemTable_safe ⟨hhanded.pos, hmax⟩ ?_ hfresh).and_ends
      (flushImmutableMemTable_checked _ _ _) |>.mono ?_
    · exact fun e he => h.contents.history.keyOk (hmem e he)
    · exact fun res d _ _ hres t ht => ⟨hres.1 t ht, hres.2 t ht⟩
  · refine (h.compactor.busy_mono ?_).advance hadv (fun n hn => by cases hn)
      fun job hj => hj.agrees hagree
    rintro n hlt (⟨imm', p, he⟩ | ⟨imm', r, p, he⟩)
    · cases he
      omega
    · have hnone : s.main = some (.publishFlush imm' n r, p) := he
      rw [hm] at hnone
      cases hnone

theorem Running.compactStart (hm : s.main = none) {next : DB}
    (hs : s.db.startCompaction = .ok (job, next)) :
    Running { s with
      db := next, compactor := .building job (DB.buildCompaction s.db.options job) }
      L start floor m := by
  have hstarted := startCompaction_ok hs
  have ha := hstarted.number
  obtain ⟨hagree, hadv, hnum, hnext, _, _, _, hopts⟩ := allocated_changes ha
  obtain ⟨hhanded, hmax, hfresh⟩ := h.handed ha
  have hj := jobOk_start h.contents hstarted
  refine h.allocated hm ha ?_ ⟨hj, hhanded, ?_, ?_⟩ (h.no_publishing hm).1 (by simp)
  · exact h.worker.advance hadv hagree.keepsQueue fun _ _ _ _ he => by cases he
  · rintro (⟨imm, p, he⟩ | ⟨imm, r, p, he⟩)
    · have hwork := h.worker
      have hbuild : s.worker = .building imm job.number p := he
      rw [hbuild] at hwork
      have := hwork.2.1.lt
      omega
    · have hnone : s.main = some (.publishFlush imm job.number r, p) := he
      rw [hm] at hnone
      cases hnone
  · rw [hopts]
    have hin : ∀ t ∈ job.tables, t ∈ s.db.sstables := by
      intro t ht
      rw [hstarted.tables] at ht
      exact (List.mem_filter.mp ht).1
    refine (buildCompaction_safe ⟨hhanded.pos, hmax⟩ ?_ ?_ hfresh).and_ends
      (buildCompaction_checked _ _) |>.mono ?_
    · intro t ht e he
      exact h.contents.history.keyOk
        (h.contents.entries_mem (List.mem_flatMap.mpr ⟨t, hin t ht, he⟩))
    · exact fun t ht => (h.contents.handles t (hin t ht)).laid.stored_failsIf
        (h.contents.recordsFit (hin t ht))
    · exact fun res d _ _ hres output t ht => ⟨hres.1 output t ht, hres.2 output t ht⟩

/-! ## Beginnings of sections -/

theorem Running.sectionBegin (hm : s.main = none)
    {p : Prog (DB × Status)} (hk : ∀ imm n r, k ≠ .publishFlush imm n r)
    (hsec : SectionOk { s with main := some (k, p) } L start k p) :
    Running { s with main := some (k, p) } L start floor m := by
  obtain ⟨hw, hc⟩ := h.no_publishing hm
  refine h.threads h.ambient h.unused h.worker ?_ ?_ (fun he => absurd he hw)
    (fun he => absurd he hc)
  · refine h.compactor.busy_mono ?_
    rintro n _ (hb | ⟨imm, r, q, he⟩)
    · exact Or.inl hb
    · have hkk : some (k, p) = some (Section.publishFlush imm n r, q) := he
      simp only [Option.some.injEq, Prod.mk.injEq] at hkk
      exact absurd hkk.1 (hk imm n r)
  · intro k' q he
    simp only [Option.some.injEq, Prod.mk.injEq] at he
    obtain ⟨rfl, rfl⟩ := he
    exact hsec

end

theorem appendable_of_checkWrite (hne : batch ≠ []) (hseq : db.lastSequence ≤ maxUInt64)
    (hok : db.checkWrite batch = .ok) :
    Wal.Appendable ⟨db.lastSequence + 1, batch⟩ ∧ ∀ o ∈ batch, KeyOk o.key := by
  obtain ⟨hkeys, hlen, hcount⟩ := checkWrite_ok hok
  have henc : batch.validateEncoding = .ok := by
    unfold DB.checkWrite at hok
    by_contra hbad
    repeat' split at hok
    all_goals simp_all
  refine ⟨⟨hne, henc, Nat.le_add_left 1 _, ?_⟩, fun o ho => validateKey_ok.mp (hkeys o ho)⟩
  show db.lastSequence + 1 + batch.count ≤ maxUInt64 + 1
  omega

section

variable (h : Running s L start floor m)

include h

theorem Running.writeBegin (hm : s.main = none)
    (hcl : s.closing = none) (hne : batch ≠ []) (hok : s.db.checkWrite batch = .ok) :
    Running { s with
      main := some (.writing ⟨s.db.lastSequence + 1, batch⟩, s.db.write batch) }
      L start floor m := by
  obtain ⟨a, hwal, hfloor, hlt, _⟩ := h.wal (by rw [hcl]; simp)
  obtain ⟨happ, hkeys⟩ := appendable_of_checkWrite hne h.contents.edit.sequence_le hok
  have hpos : 1 ≤ a := by
    have := h.contents.edit.wal_pos
    have := h.contents.walStart
    have := h.contents.start_le
    omega
  refine h.sectionBegin hm (by simp) ⟨?_, write_ends s.db batch, hcl, rfl, happ, hkeys⟩
  refine write_any batch ?_ (by rw [hwal]; rfl) h.contents.edit.next_le
  intro n hn
  rw [hwal] at hn
  cases hn
  exact ⟨hpos, hlt⟩

theorem Running.switchBegin (hm : s.main = none) (hcl : s.closing = none) :
    Running { s with main := some (.switching, s.db.flushMemTable) } L start floor m := by
  refine h.sectionBegin hm (by simp) ⟨?_, flushMemTable_ends h.contents.sorted, hcl⟩
  exact flushMemTable_any h.path (Nat.one_le_iff_ne_zero.mpr h.contents.edit.next_pos)
    h.contents.edit.next_le (h.unused _ (Nat.le_refl _)).2

theorem Running.closeEnd (hm : s.main = none) {moved : Bool}
    (hcl : s.closing = some moved) (hw : s.worker = .stopped) (hc : s.compactor = .idle) :
    Running { s with main := some (.closing moved, s.db.endClose moved) } L start floor m :=
  h.sectionBegin hm (by simp)
    ⟨endClose_any h.path moved, endClose_ends s.db moved, hw, hc, hcl⟩

theorem Running.publishFlushBegin (hm : s.main = none)
    {result : Except Status TableFile} (hw : s.worker = .building imm number (.ret result)) :
    Running { s with
      main := some (.publishFlush imm number result, s.db.publishFlush imm number result)
      worker := .publishing } L start floor m := by
  have hwork := h.worker
  rw [hw] at hwork
  obtain ⟨⟨rest, hrest⟩, hhanded, hsafe⟩ := hwork
  have hbuilt := hsafe.done h.ambient
  refine h.threads h.ambient h.unused trivial ?_ ?_ ?_ (fun he => absurd he (h.no_publishing hm).2)
  · refine h.compactor.busy_mono ?_
    rintro n _ (⟨imm', p, he⟩ | ⟨imm', r, p, he⟩)
    · cases he
    · cases he
      exact Or.inl ⟨_, _, hw⟩
  · intro k p he
    simp only [Option.some.injEq, Prod.mk.injEq] at he
    obtain ⟨rfl, rfl⟩ := he
    refine ⟨publishFlush_any h.path imm number result,
      publishFlush_ends h.contents.sorted imm number result, rfl, ⟨rest, hrest⟩, hhanded, ?_⟩
    intro t ht
    exact FlushBuilt.flushOk h.contents (by rw [hrest]; exact List.mem_cons_self) hhanded
      h.contents.edit.next_le hbuilt ht
  · exact fun _ => ⟨imm, number, result, _, rfl⟩

theorem Running.publishCompactionBegin (hm : s.main = none)
    (hc : s.compactor = .building job (.ret (.ok (output, t)))) :
    Running { s with
      main := some (.publishCompaction job output t, s.db.publishCompaction job output t)
      compactor := .publishing } L start floor m := by
  have hcomp := h.compactor
  rw [hc] at hcomp
  obtain ⟨hj, hhanded, hbusy, hsafe⟩ := hcomp
  have hbuilt := hsafe.done h.ambient
  have hfree : ∀ n, Sys.Flushing { s with
      main := some (.publishCompaction job output t, s.db.publishCompaction job output t)
      compactor := .publishing } n → s.Flushing n := by
    rintro n (hb | ⟨imm, r, p, he⟩)
    · exact Or.inl hb
    · cases he
  refine h.threads h.ambient h.unused h.worker trivial ?_
    (fun he => absurd he (h.no_publishing hm).1) ?_
  · intro k p he
    simp only [Option.some.injEq, Prod.mk.injEq] at he
    obtain ⟨rfl, rfl⟩ := he
    refine ⟨publishCompaction_any h.path job output t,
      publishCompaction_ends h.contents.sorted job output t, rfl, hj, hhanded, ?_, ?_⟩
    · exact CompactionBuilt.outputOk h.contents hj hhanded h.contents.edit.next_le hbuilt rfl
    · exact fun hf => hbusy (hfree _ hf)
  · exact fun _ => ⟨job, output, t, _, rfl⟩

/-! ## Close and snapshots -/

theorem Running.closeBegin (hm : s.main = none) (hcl : s.closing = none) :
    ∃ floor', floor ≤ floor' ∧ (s.db.beginClose.2 = true → L.since floor' = []) ∧
      (s.db.beginClose.2 = false → floor' = floor) ∧
      Running { s with db := s.db.beginClose.1, closing := some s.db.beginClose.2 }
        L start floor' m := by
  have hne : s.closing ≠ some true := by rw [hcl]; simp
  obtain ⟨floor', hle, hcontents, hsince, hsame⟩ := h.contents.beginClose h.places (h.oldest hne)
  obtain ⟨hnw, hnc⟩ := h.no_publishing hm
  have hcases : (s.db.beginClose.2 = true ∧ s.db.beginClose.1 = { s.db with
        wal := none
        immutables := s.db.immutables ++ [⟨s.db.active, s.db.activeMemtableOldestWalFileNumber⟩]
        mems := s.db.mems ++ [[]]
        active := s.db.mems.length }) ∨
      (s.db.beginClose.2 = false ∧ s.db.beginClose.1 = s.db) := by
    unfold DB.beginClose
    split
    · exact Or.inl ⟨rfl, rfl⟩
    · exact Or.inr ⟨rfl, rfl⟩
  refine ⟨floor', hle, hsince, hsame, ?_⟩
  rcases hcases with ⟨hmoved, hdb⟩ | ⟨hmoved, hdb⟩
  · rw [hdb] at hcontents ⊢
    rw [hmoved]
    have hadv : DB.Advances none s.db { s.db with
        wal := none
        immutables := s.db.immutables ++ [⟨s.db.active, s.db.activeMemtableOldestWalFileNumber⟩]
        mems := s.db.mems ++ [[]]
        active := s.db.mems.length } :=
      ⟨rfl, Nat.le_refl _, Nat.le_refl _, fun x hx => Or.inl ⟨x, hx, rfl⟩⟩
    refine h.update rfl h.isOpen hcontents h.records rfl hadv (fun n hn => by cases hn) h.places
      (fun he => absurd rfl he) (fun he => absurd rfl he) h.fresh
      (fun _ => ⟨hsince hmoved, rfl⟩) (fun he => absurd rfl he) ?_ ?_ hm hnw hnc
    · exact h.worker.advance hadv (keepsQueue_snoc h.contents rfl rfl) fun _ _ _ _ he => by cases he
    · exact h.compactor.advance hadv (fun n hn => by cases hn) fun job hj =>
        hj.congr rfl rfl rfl rfl
  · rw [hdb] at hcontents ⊢
    rw [hmoved, hsame hmoved]
    exact { h with
      wal := fun _ => h.wal hne
      oldest := fun _ => h.oldest hne
      moved := fun he => by cases he
      tight := fun _ => h.tight hne
      main := fun k p hk => by
        have hnone : s.main = some (k, p) := hk
        rw [hm] at hnone
        cases hnone }

theorem Running.snapshot (hm : s.main = none) :
    Running { s with db := s.db.getSnapshot } L start floor m := by
  obtain ⟨hnw, hnc⟩ := h.no_publishing hm
  have hcontents := h.contents.getSnapshot
  have hjob : ∀ job, JobOk s.db L start job → JobOk s.db.getSnapshot L start job :=
    fun job hj => hj.getSnapshot
  have hdb : s.db.getSnapshot =
      { s.db with snapshots := s.db.snapshots ++ [⟨s.db.lastSequence, true⟩] } := by
    rw [DB.getSnapshot, if_neg (by simp [h.isOpen])]
  rw [hdb] at hcontents hjob ⊢
  have hadv : DB.Advances none s.db
      { s.db with snapshots := s.db.snapshots ++ [⟨s.db.lastSequence, true⟩] } :=
    ⟨rfl, Nat.le_refl _, Nat.le_refl _, fun x hx => Or.inl ⟨x, hx, rfl⟩⟩
  refine h.update rfl h.isOpen hcontents h.records rfl hadv (fun n hn => by cases hn) h.places
    h.wal h.oldest h.fresh h.moved h.tight ?_ ?_ hm hnw hnc
  · exact h.worker.advance hadv ⟨⟨[], (List.append_nil _).symm⟩, fun _ _ => rfl⟩
      fun _ _ _ _ he => by cases he
  · exact h.compactor.advance hadv (fun n hn => by cases hn) hjob

theorem Running.release (hm : s.main = none) (i : Nat) :
    Running { s with db := s.db.releaseSnapshot i } L start floor m := by
  obtain ⟨hnw, hnc⟩ := h.no_publishing hm
  have hadv : DB.Advances none s.db (s.db.releaseSnapshot i) :=
    ⟨rfl, Nat.le_refl _, Nat.le_refl _, fun x hx => Or.inl ⟨x, hx, rfl⟩⟩
  refine h.update rfl h.isOpen (h.contents.releaseSnapshot i) h.records rfl hadv
    (fun n hn => by cases hn) h.places h.wal h.oldest h.fresh h.moved h.tight ?_ ?_ hm hnw hnc
  · exact h.worker.advance hadv ⟨⟨[], (List.append_nil _).symm⟩, fun _ _ => rfl⟩
      fun _ _ _ _ he => by cases he
  · exact h.compactor.advance hadv (fun n hn => by cases hn) fun job hj => hj.releaseSnapshot i

/-! ## A whole step -/

/-- What no step reads, and the caches. -/
theorem Running.ghost (i : Option WALBatchRecord) (n : Nat) (caches : Nat → BlockCache) :
    Running { s with inflight := i, acked := n, caches := caches } L start floor m :=
  { h with
    main := fun k p hk => by
      have hsec := h.main k p hk
      refine ⟨hsec.safe, hsec.ends, ?_⟩
      have hsound := hsec.sound
      cases k with
      | opening => exact hsound
      | writing r => exact hsound
      | switching => exact hsound
      | publishFlush imm number result => exact hsound
      | publishCompaction job output t => exact hsound
      | closing moved => exact hsound }

theorem Running.mainEnd {st : Status}
    (hm : s.main = some (k, .ret (db, st))) (hk : ∀ moved, k ≠ .closing moved) :
    ∃ L' start' floor' m', L <+: L' ∧ m ≤ m' ∧ Running (s.finish k db st) L' start' floor' m' := by
  have hsec := h.main k _ hm
  have hends : k.Result s.db (db, st) := hsec.ends
  obtain ⟨hnw, hnc⟩ := h.not_publishing hm
  cases k with
  | opening => exact hsec.sound.elim
  | closing moved => exact absurd rfl (hk moved)
  | writing r =>
    have hcl : s.closing = none := hsec.sound.1
    rcases hends with ⟨hok, hdb⟩ | ⟨hbad, hl⟩
    · have hst : st = .ok := hok
      obtain ⟨a, _, hrun⟩ := h.appended ({ s with
        db := db, history := s.history ++ [r], inflight := none, main := none }) hm hdb rfl rfl rfl
        rfl rfl rfl
      refine ⟨L ++ [(a, r)], start, floor, m, List.prefix_append _ _, Nat.le_refl _, ?_⟩
      simp only [Sys.finish, Sys.afterAppend, hst, if_true]
      split
      · exact hrun.switchBegin rfl hcl
      · exact hrun.ghost none _ s.caches
    · have hst : st ≠ .ok := hbad
      have hl' : DB.Latched s.db db := by
        rw [show db = _ from hl]
        split
        · exact DB.Latched.refl s.db
        · exact DB.latched_setBackgroundError s.db st
      have hrun := h.latched ({ s with db := db, main := none }) hl' rfl rfl rfl rfl rfl
        h.worker (fun imm n p he => ⟨imm, p, he⟩) (Or.inl rfl) (hnw (by simp)) (hnc (by simp))
      refine ⟨L, start, floor, m, List.prefix_rfl, Nat.le_refl _, ?_⟩
      simp only [Sys.finish, Sys.afterAppend, hst, if_false]
      split
      · exact hrun.ghost none s.acked s.caches
      · exact hrun
  | switching =>
    rcases hends with ⟨_, _, hdb⟩ | ⟨_, _, hmax, hdb⟩ | ⟨_, hl⟩
    · have hrun := h.latched (s.afterSwitch db st) (hdb ▸ DB.Latched.refl s.db) rfl rfl rfl
        rfl rfl h.worker (fun imm n p he => ⟨imm, p, he⟩) (Or.inl rfl) (hnw (by simp))
        (hnc (by simp))
      exact ⟨L, start, floor, m, List.prefix_rfl, Nat.le_refl _, hrun⟩
    · have hrun := h.switched (s.afterSwitch db st) hm hmax hdb rfl rfl rfl rfl rfl rfl
      exact ⟨L, start, _, m, List.prefix_rfl, Nat.le_refl _, hrun⟩
    · have hrun := h.latched (s.afterSwitch db st) (DB.latched_or hl) rfl rfl rfl rfl rfl h.worker
        (fun imm n p he => ⟨imm, p, he⟩) (Or.inl rfl) (hnw (by simp)) (hnc (by simp))
      exact ⟨L, start, floor, m, List.prefix_rfl, Nat.le_refl _, hrun⟩
  | publishFlush imm number result =>
    rcases hends with ⟨t, hres, hok, _, hdb⟩ | ⟨t, hres, hbad, hl⟩ | ⟨e, hres, hste, hdb⟩
    · have hst : st = .ok := hok
      subst hres
      obtain ⟨start', hrun⟩ := h.flushed (s.afterPublishFlush db st) hm hdb rfl rfl rfl rfl
        (by simp only [Sys.afterPublishFlush, hst, if_true]) rfl
      exact ⟨L, start', floor, m, List.prefix_rfl, Nat.le_refl _, hrun⟩
    · have hst : st ≠ .ok := hbad
      have hworker : (s.afterPublishFlush db st).worker = .idle := by
        simp only [Sys.afterPublishFlush, hst, if_false]
      have hrun := h.opened (s.afterPublishFlush db st) (DB.latched_or (Or.inr hl)) rfl rfl rfl rfl rfl
        (by rw [hworker]; trivial) (by rw [hworker]; intro _ _ _ he; cases he) (Or.inl rfl)
        (by rw [hworker]; simp) (hnc (by simp))
      exact ⟨L, start, floor, m, List.prefix_rfl, Nat.le_refl _, hrun⟩
    · have hworker : (s.afterPublishFlush db st).worker = .wantCompact db.edit.walFileNumber ∨
          (s.afterPublishFlush db st).worker = .idle := by
        simp only [Sys.afterPublishFlush]
        split
        · exact Or.inl rfl
        · exact Or.inr rfl
      have hdb' : db = s.db.setBackgroundError e := hdb
      have hl : DB.Latched s.db db := hdb' ▸ DB.latched_setBackgroundError s.db e
      have hrun := h.latched (s.afterPublishFlush db st) hl rfl rfl rfl rfl rfl ?_ ?_
        (Or.inl rfl) ?_ (hnc (by simp))
      · exact ⟨L, start, floor, m, List.prefix_rfl, Nat.le_refl _, hrun⟩
      · rcases hworker with hw | hw <;> rw [hw]
        · exact hl.agrees.wal.le
        · trivial
      · rcases hworker with hw | hw <;> rw [hw] <;> intro _ _ _ he <;> cases he
      · rcases hworker with hw | hw <;> rw [hw] <;> simp
  | publishCompaction job output t =>
    rcases hends with ⟨hok, _, _, _, hdb⟩ | ⟨hbad, hl⟩
    · have hst : st = .ok := hok
      obtain ⟨m', hle, _, hrun⟩ := h.compacted ({ s with
        db := db
        main := none
        compactor := .removing (DB.removeInputs (s.db.sstables.filter (DB.isInput job.inputs))) })
        hm hdb rfl rfl rfl rfl rfl rfl
      refine ⟨L, start, floor, m', List.prefix_rfl, hle, ?_⟩
      simp only [Sys.finish, Sys.afterPublishCompaction, hst, if_true]
      exact hrun
    · have hst : st ≠ .ok := hbad
      have hrun := h.opened ({ s with
        db := db, main := none, compactor := .idle, worker := s.worker.compactionDone st })
        (DB.latched_or hl) rfl rfl rfl rfl rfl (h.worker.compactionDone st)
        (fun imm n p he => ⟨imm, p, building_of_compactionDone he⟩) (Or.inr rfl)
        (fun he => hnw (by simp) (publishing_of_compactionDone he)) (by simp)
      refine ⟨L, start, floor, m, List.prefix_rfl, Nat.le_refl _, ?_⟩
      simp only [Sys.finish, Sys.afterPublishCompaction, hst, if_false]
      exact hrun

/-- Every step that leaves the database open keeps the invariant. -/
theorem Running.step {F : Faults} {s' : Sys} (hs : Step F s s') (ho : s'.db.closed = false) :
    ∃ L' start' floor' m', L <+: L' ∧ m ≤ m' ∧ Running s' L' start' floor' m' := by
  have hsame : Running s' L start floor m → ∃ L' start' floor' m', L <+: L' ∧ m ≤ m' ∧
      Running s' L' start' floor' m' :=
    fun hr => ⟨L, start, floor, m, List.prefix_rfl, Nat.le_refl _, hr⟩
  cases hs with
  | openBegin hm hc hok =>
    rw [h.isOpen] at hc
    cases hc
  | writeBegin batch hm hcl hne hok =>
    exact hsame ((h.writeBegin hm hcl hne hok).ghost _ _ _)
  | mainStep k p p' dir hm hp => exact hsame (h.mainStep hm hp)
  | mainEnd k db st hm =>
    by_cases hk : ∃ moved, k = .closing moved
    · obtain ⟨moved, rfl⟩ := hk
      have hends : s.db.Closes (db, st) := (h.main _ _ hm).ends
      have hopen : db.closed = false := ho
      rw [show db.closed = true from hends.closed] at hopen
      cases hopen
    · exact h.mainEnd hm fun moved he => hk ⟨moved, he⟩
  | flushStart imm rest number next hm hw hi hb ha => exact hsame (h.flushStart hm hi ha)
  | flushExhausted e hm hw hi hb ha =>
    exact hsame (h.workerLatched hm (DB.latched_setBackgroundError _ _) trivial (by simp) (by simp))
  | workerStop hm hw hstop => exact hsame (h.workerStop hw)
  | flushStep imm number p p' dir hw hp => exact hsame (h.flushStep hw hp)
  | publishFlushBegin imm number result hm hw => exact hsame (h.publishFlushBegin hm hw)
  | compactLock oldest hw hc => exact hsame (h.compactLock hw)
  | compactEnough oldest attempts hm hw hc hn => exact hsame (h.compactEnough hw)
  | compactBegin oldest attempts job next hm hw hc hn hs => exact hsame (h.compactStart hm hs)
  | compactNothing oldest attempts status hm hw hc hn hs =>
    exact hsame (h.compactionDone status (Or.inl rfl))
  | compactFailed oldest status hm hw =>
    have hwork := h.worker
    rw [hw] at hwork
    exact hsame (h.workerLatched hm (DB.latched_setBackgroundError _ _)
      ⟨hwork, sweep_safe oldest s.dir⟩ (by simp) (by simp))
  | sweepStep oldest p p' dir hw hp => exact hsame (h.sweepStep hw hp)
  | sweepEnd oldest status hm hw =>
    refine hsame (h.workerLatched hm ?_ trivial (by simp) (by simp))
    split
    · exact DB.latched_setBackgroundError _ _
    · exact DB.Latched.refl _
  | compactPublic job next hm hc hl hs => exact hsame (h.compactStart hm hs)
  | buildStep job p p' dir hc hp => exact hsame (h.buildStep hc hp)
  | buildFailed job status hc =>
    exact hsame (h.compactionDone status (Or.inr ⟨rfl, by rw [hc]; simp⟩))
  | publishCompactionBegin job output t hm hc => exact hsame (h.publishCompactionBegin hm hc)
  | removeStep p p' dir hc hp => exact hsame (h.removeStep hc hp)
  | removeEnd status hc => exact hsame (h.compactionDone status (Or.inr ⟨rfl, by rw [hc]; simp⟩))
  | closeBegin hm hcl hopen =>
    obtain ⟨floor', _, _, _, hrun⟩ := h.closeBegin hm hcl
    exact ⟨L, start, floor', m, List.prefix_rfl, Nat.le_refl _, hrun⟩
  | closeEnd moved hm hcl hw hc => exact hsame (h.closeEnd hm hcl hw hc)
  | snapshot hm => exact hsame (h.snapshot hm)
  | release i hm => exact hsame (h.release hm i)
  | readBlock t item failure hh hi => exact hsame (h.ghost _ _ _)
  | construct o hm hc =>
    rw [h.isOpen] at hc
    cases hc
  | crash dir o hc hd => cases ho
  | lose dir hl hm hc hgone hrest =>
    rw [h.isOpen] at hc
    cases hc

end

end KvMem
