import KvMem.Engine.SectionFiles

/-! # A running database and its files

Beside the invariant of a running database: what its files hold between two sections,
and what each section still has to do so that they hold it again at its end. Here no
operation of a section fails. The other threads may fail anywhere, and where crashes
happen, one at any point leaves a directory that can be recovered.
-/

namespace KvMem

open CrashStore RecordLog FileProg Manifest

namespace Section

def live (db : DB) : Section → List Nat
  | .publishFlush _ n _ => db.liveTables ++ [n]
  | .publishCompaction job _ _ => db.liveTables ++ [job.number]
  | .opening | .writing _ | .switching | .closing _ => db.liveTables

def pending : Section → List WALBatchRecord
  | .writing r => [r]
  | .opening | .switching | .publishFlush _ _ _ | .publishCompaction _ _ _ | .closing _ => []

/-- What the files hold when a section has ended. -/
def Leaves (c : Prop) (db : DB) (L : Log) : Section → DB × Status → Dir → Prop
  | .opening, _, _ => True
  | .writing r, res, d => res.2 = .ok ∧ ∃ a, db.wal = some a ∧ Held c res.1 (L ++ [(a, r)]) d
  | .closing _, res, d => ∃ e log tail T, Resting c L.records [] d e log tail T L [] ∧
      (res.2 = .ok → Drained db L e)
  | .switching, res, d | .publishFlush _ _ _, res, d | .publishCompaction _ _ _, res, d =>
    Held c res.1 L d

end Section

/-- The tables that may not be touched now. -/
def Sys.live (s : Sys) : List Nat :=
  match s.main with
  | none => s.db.liveTables
  | some (k, _) => k.live s.db

def Sys.pending (s : Sys) : List WALBatchRecord :=
  match s.main with
  | none => []
  | some (k, _) => k.pending

structure Filed (c : Prop) (s : Sys) (L : Log) (m : Nat) : Prop where
  saved : Saved s.db L m s.db.manifest.persisted
  quiet : s.main = none → Held c s.db L s.dir
  main : ∀ k p, s.main = some (k, p) →
    Safe (sectionRely c L.records k.pending s.db.edit.walFileNumber (k.live s.db))
      (k.Leaves c s.db L) p s.dir
  inflight : s.inflight.toList = s.pending
  exact : s.closing ≠ some true → s.db.activeMemtable = [] →
    s.db.manifest.persisted.lastSequence = s.db.lastSequence
  still : s.closing = some false → s.db.activeMemtable = []

variable {c : Prop} {s : Sys} {L : Log} {start floor m : Nat}

/-! ## Numbers of the logs and the tables -/

theorem Running.wal_ge (h : Running s L start floor m) {a : Nat} (ha : s.db.wal = some a) :
    s.db.edit.walFileNumber ≤ a ∧ s.db.nextLiveWal ≤ a := by
  by_cases hne : s.closing = some true
  · rw [(h.moved hne).2] at ha
    cases ha
  · obtain ⟨a', ha', hfloor, _, _⟩ := h.wal hne
    rw [ha] at ha'
    cases ha'
    have hold := h.contents.oldest
    have hwal := h.contents.walOldest
    refine ⟨by omega, ?_⟩
    unfold DB.nextLiveWal
    split
    · rename_i next _ heq
      have := h.contents.queueOldest next (by rw [heq]; simp)
      omega
    · omega

theorem Running.below (h : Running s L start floor m) :
    s.db.edit.walFileNumber < s.db.nextFileNumber ∧ s.db.nextLiveWal < s.db.nextFileNumber := by
  have hfresh := h.fresh
  have hwal := h.contents.walOldest
  refine ⟨by omega, ?_⟩
  unfold DB.nextLiveWal
  split
  · rename_i next _ heq
    have := h.contents.queueOldest next (by rw [heq]; simp)
    omega
  · exact hfresh

variable {n number : Nat} {db db' : DB} {dir : Dir} {k : Compactor} {w : Worker}
  {fault : Op FileName Cell → Prop} {imm : ImmutableMemTable} {p p' : Prog Status}
  {job : DB.CompactionJob} {e : VersionEdit} {t : TableFile}

theorem Running.liveTables (h : Running s L start floor m) (hn : n ∈ s.db.liveTables) :
    ∃ x ∈ s.db.edit.sstables, x.fileNumber = n := by
  obtain ⟨t, ht, rfl⟩ := List.mem_map.mp hn
  obtain ⟨x, hx, heq, _⟩ := h.contents.aligned.description ht
  exact ⟨x, hx, heq⟩

theorem mem_liveTables {t : OpenTable} (ht : t ∈ db.sstables) :
    t.fileNumber ∈ db.liveTables := List.mem_map_of_mem ht

theorem Running.mem_live (h : Running s L start floor m) (hn : n ∈ s.live) :
    (∃ x ∈ s.db.edit.sstables, x.fileNumber = n) ∨
      (∃ imm r p, s.main = some (.publishFlush imm n r, p)) ∨
      ∃ job output t p, s.main = some (.publishCompaction job output t, p) ∧ job.number = n := by
  unfold Sys.live at hn
  cases hmain : s.main with
  | none =>
    rw [hmain] at hn
    exact Or.inl (h.liveTables hn)
  | some kp =>
    obtain ⟨k, p⟩ := kp
    rw [hmain] at hn
    cases k with
    | publishFlush imm number r =>
      rcases List.mem_append.mp hn with hn | hn
      · exact Or.inl (h.liveTables hn)
      · rw [List.mem_singleton.mp hn]
        exact Or.inr (Or.inl ⟨imm, r, p, rfl⟩)
    | publishCompaction job output t =>
      rcases List.mem_append.mp hn with hn | hn
      · exact Or.inl (h.liveTables hn)
      · exact Or.inr (Or.inr ⟨job, output, t, p, rfl, (List.mem_singleton.mp hn).symm⟩)
    | opening | writing r | switching | closing moved => exact Or.inl (h.liveTables hn)

/-! ## Steps of the other threads -/

theorem Filed.threads (hf : Filed c s L m) (h : Running s L start floor m)
    (hk : Keeps (Guarded s.db.edit.walFileNumber s.live) s.dir dir) :
    Filed c { s with dir := dir, worker := w, compactor := k } L m :=
  { hf with
    quiet := by
      intro hm
      have hlive : s.live = s.db.liveTables := by
        unfold Sys.live
        rw [show s.main = none from hm]
      rw [hlive] at hk
      exact Held.framed (fun t ht => mem_liveTables ht) (Nat.le_refl _) (fun a ha => (h.wal_ge ha).1)
        s.dir dir hk (hf.quiet hm)
    main := by
      intro k' p hm
      have hlive : s.live = k'.live s.db := by
        unfold Sys.live
        rw [show s.main = some (k', p) from hm]
      rw [hlive] at hk
      exact (hf.main k' p hm).keeps hk }

theorem Gentle.guarded {next : Nat} {touched : FileName → Prop} {d d' : Dir} {w : Nat}
    {live : List Nat} (hg : Gentle next touched d d') (hno : ∀ n, touched n → ¬ Guarded w live n) :
    Keeps (Guarded w live) d d' := hg.keeps.mono fun n hn ht => hno n ht hn

theorem not_guarded_sst {w : Nat} {live : List Nat} (h : n ∉ live) : ¬ Guarded w live (.sst n) := by
  rintro (he | he | he | ⟨i, _, he⟩ | ⟨i, hi, he⟩)
  · cases he
  · cases he
  · cases he
  · cases he
  · exact h (FileName.sst.inj he ▸ hi)

theorem not_guarded_sstTmp {w : Nat} {live : List Nat} : ¬ Guarded w live (.sstTmp n) := by
  rintro (he | he | he | ⟨i, _, he⟩ | ⟨i, hi, he⟩) <;> cases he

theorem not_guarded_build {w : Nat} {live : List Nat} (h : number ∉ live) (n : FileName)
    (hn : n = .sst number ∨ n = .sstTmp number) : ¬ Guarded w live n := by
  rcases hn with rfl | rfl
  · exact not_guarded_sst h
  · exact not_guarded_sstTmp

section

variable (hf : Filed c s L m)

include hf

theorem Filed.flushStep (h : Running s L start floor m)
    {p p' : Prog (Except Status TableFile)} (hw : s.worker = .building imm number p)
    (hp : ProgStep fault s.dir p dir p') :
    Filed c { s with dir := dir, worker := .building imm number p' } L m := by
  have hwork := h.worker
  rw [hw] at hwork
  obtain ⟨_, hhanded, hsafe⟩ := hwork
  refine hf.threads h ((build_gentle hhanded.lt hsafe h.ambient hp).guarded
    (not_guarded_build fun hn => ?_))
  rcases h.mem_live hn with ⟨x, hx, heq⟩ | ⟨imm', r, q, hq⟩ | ⟨job, output, t, q, hq, heq⟩
  · exact hhanded.new x hx heq
  · have hpub : s.worker = .publishing := (h.main _ q hq).sound.1
    rw [hw] at hpub
    cases hpub
  · exact (h.main _ q hq).sound.2.2.2.2 (heq ▸ Or.inl ⟨imm, p, hw⟩)

theorem Filed.sweepStep (h : Running s L start floor m) {oldest : Nat}
    (hw : s.worker = .sweeping oldest p) (hp : ProgStep fault s.dir p dir p') :
    Filed c { s with dir := dir, worker := .sweeping oldest p' } L m := by
  have hwork := h.worker
  rw [hw] at hwork
  obtain ⟨hold, hsafe⟩ := hwork
  have hle : oldest ≤ s.db.nextFileNumber := hold.trans (Nat.le_of_lt h.below.1)
  refine hf.threads h ((sweep_gentle hle hsafe h.ambient hp).guarded ?_)
  rintro n ⟨i, hi, rfl⟩ (he | he | he | ⟨j, hj, he⟩ | ⟨j, _, he⟩)
  · cases he
  · cases he
  · cases he
  · have := FileName.wal.inj he
    omega
  · cases he

theorem Filed.buildStep (h : Running s L start floor m)
    {p p' : Prog (Except Status (List VersionedEntry × TableFile))}
    (hc : s.compactor = .building job p) (hp : ProgStep fault s.dir p dir p') :
    Filed c { s with dir := dir, compactor := .building job p' } L m := by
  have hcomp := h.compactor
  rw [hc] at hcomp
  obtain ⟨_, hhanded, hbusy, hsafe⟩ := hcomp
  refine hf.threads h ((build_gentle hhanded.lt hsafe h.ambient hp).guarded
    (not_guarded_build fun hn => ?_))
  rcases h.mem_live hn with ⟨x, hx, heq⟩ | ⟨imm', r, q, hq⟩ | ⟨job', output, t, q, hq, heq⟩
  · exact hhanded.new x hx heq
  · exact hbusy (Or.inr ⟨imm', r, q, hq⟩)
  · have hpub : s.compactor = .publishing := (h.main _ q hq).sound.1
    rw [hc] at hpub
    cases hpub

theorem Filed.removeStep (h : Running s L start floor m)
    (hc : s.compactor = .removing p) (hp : ProgStep fault s.dir p dir p') :
    Filed c { s with dir := dir, compactor := .removing p' } L m := by
  have hcomp := h.compactor
  rw [hc] at hcomp
  obtain ⟨ns, hns, hsafe⟩ := hcomp
  refine hf.threads h ((remove_gentle (fun n hn => (hns n hn).1) hsafe h.ambient hp).guarded ?_)
  rintro n ⟨i, hi, rfl⟩
  refine not_guarded_sst fun hn => ?_
  rcases h.mem_live hn with ⟨x, hx, heq⟩ | ⟨imm', r, q, hq⟩ | ⟨job', output, t, q, hq, heq⟩
  · exact (hns i hi).2.1 x hx heq
  · exact (hns i hi).2.2 (Or.inr ⟨imm', r, q, hq⟩)
  · have hpub : s.compactor = .publishing := (h.main _ q hq).sound.1
    rw [hc] at hpub
    cases hpub

theorem Filed.move (h : Running s L start floor m) :
    Filed c { s with worker := w, compactor := k } L m :=
  hf.threads h (Keeps.refl _ _)

theorem Filed.mainStep (h : Running s L start floor m) {k : Section}
    {p p' : Prog (DB × Status)} (hm : s.main = some (k, p)) (hno : ∀ o, ¬ fault o)
    (hp : ProgStep fault s.dir p dir p') :
    Filed c { s with dir := dir, main := some (k, p') } L m where
  saved := hf.saved
  quiet := fun he => by cases he
  main := by
    intro k' q hk
    simp only [Option.some.injEq, Prod.mk.injEq] at hk
    obtain ⟨rfl, rfl⟩ := hk
    exact (hf.main k p hm).step h.ambient (hp.mono fun o ho => hno o ho)
  inflight := by
    have hinf := hf.inflight
    unfold Sys.pending at hinf ⊢
    rw [hm] at hinf
    exact hinf
  exact := hf.exact
  still := hf.still

end

/-! ## Changes of the database -/

theorem Saved.congr (h : Saved db L m e) (he : db'.edit = db.edit)
    (ht : db'.sstables = db.sstables) : Saved db' L m e where
  wf := h.wf
  below := h.below
  tables := by rw [he]; exact h.tables
  wal := by rw [he]; exact h.wal
  sequence := by rw [DB.lastSequence, he]; exact h.sequence
  entries := by rw [DB.tableEntries, ht]; exact h.entries
  older := h.older
  reached := h.reached
  reads := h.reads

theorem Saved.agrees (h : Saved db L m e) (ha : db.Agrees db') :
    Saved db' L m e where
  wf := h.wf
  below := h.below
  tables := h.tables.trans ha.tables.symm
  wal := h.wal.trans ha.wal.symm
  sequence := by rw [ha.sequence]; exact h.sequence
  entries := by
    have hsame : db'.tableEntries = db.tableEntries := by rw [DB.tableEntries, ha.sstables]; rfl
    rw [hsame]
    exact h.entries
  older := h.older
  reached := h.reached
  reads := h.reads

theorem Held.agrees (h : Held c db L dir) (ha : db.Agrees db')
    (hp : db'.manifest.persisted = db.manifest.persisted) (hw : db'.wal = db.wal) :
    Held c db' L dir := h.congr hp ha.sstables ha.wal hw

theorem activeMemtable_agrees (ha : db.Agrees db') : db'.activeMemtable = db.activeMemtable := by
  rw [DB.activeMemtable, DB.activeMemtable, DB.memtable, DB.memtable, ha.mems, ha.active]

section

variable (hf : Filed c s L m)

include hf

theorem Filed.agrees (hm : s.main = none) (ha : s.db.Agrees db)
    (hp : db.manifest.persisted = s.db.manifest.persisted) (hw : db.wal = s.db.wal) :
    Filed c { s with db := db, worker := w, compactor := k } L m where
  saved := by
    show Saved db L m db.manifest.persisted
    rw [hp]
    exact hf.saved.agrees ha
  quiet := fun _ => (hf.quiet hm).agrees ha hp hw
  main := fun k p he => by
    have hnone : s.main = some (k, p) := he
    rw [hm] at hnone
    cases hnone
  inflight := hf.inflight
  exact := by
    intro hne hempty
    have hmem : s.db.activeMemtable = [] := by
      rw [← activeMemtable_agrees ha]
      exact hempty
    show db.manifest.persisted.lastSequence = db.lastSequence
    rw [hp, ha.sequence]
    exact hf.exact hne hmem
  still := fun hcl => (activeMemtable_agrees ha).trans (hf.still hcl)

theorem Filed.latched (hm : s.main = none) (hl : DB.Latched s.db db) :
    Filed c { s with db := db, worker := w, compactor := k } L m := by
  have ha := hl.agrees
  obtain ⟨st, rfl, _⟩ := hl
  exact hf.agrees hm ha rfl rfl

theorem Filed.allocated (hm : s.main = none) {next : DB}
    (hal : s.db.allocateFileNumber = .ok (number, next)) :
    Filed c { s with db := next, worker := w, compactor := k } L m := by
  have ha := (allocated_changes hal).1
  obtain ⟨rfl, _, rfl⟩ := DB.allocateFileNumber_ok hal
  exact hf.agrees hm ha rfl rfl

theorem Filed.snapshots (hm : s.main = none) (ss : List Snapshot) :
    Filed c { s with db := { s.db with snapshots := ss } } L m where
  saved := hf.saved.congr rfl rfl
  quiet := fun _ => (hf.quiet hm).congr rfl rfl rfl rfl
  main := fun k p he => by
    have hnone : s.main = some (k, p) := he
    rw [hm] at hnone
    cases hnone
  inflight := hf.inflight
  exact := hf.exact
  still := hf.still

theorem Filed.closeBegin (hm : s.main = none) (hcl : s.closing = none) :
    Filed c { s with db := s.db.beginClose.1, closing := some s.db.beginClose.2 } L m := by
  have hne : s.closing ≠ some true := by rw [hcl]; simp
  unfold DB.beginClose
  split
  · refine ⟨hf.saved.congr rfl rfl, fun _ => ?_, fun k p he => ?_, hf.inflight,
      fun he => absurd rfl he, fun he => by cases he⟩
    · have hheld := hf.quiet hm
      exact ⟨hheld.manifest, hheld.holds, fun a ha => by cases ha⟩
    · have hnone : s.main = some (k, p) := he
      rw [hm] at hnone
      cases hnone
  · rename_i hsize
    refine ⟨hf.saved, hf.quiet, fun k p he => ?_, hf.inflight, fun _ => hf.exact hne, fun _ => ?_⟩
    · have hnone : s.main = some (k, p) := he
      rw [hm] at hnone
      cases hnone
    · exact List.length_eq_zero_iff.mp (Nat.eq_zero_of_not_pos hsize)

/-! ## Beginnings of sections -/

theorem Filed.begin {k : Section} {p : Prog (DB × Status)} {j : Compactor}
    {i : Option WALBatchRecord} (hi : i.toList = k.pending)
    (hsafe : Safe (sectionRely c L.records k.pending s.db.edit.walFileNumber (k.live s.db))
      (k.Leaves c s.db L) p s.dir) :
    Filed c { s with main := some (k, p), worker := w, compactor := j, inflight := i } L m where
  saved := hf.saved
  quiet := fun he => by cases he
  main := by
    intro k' q he
    simp only [Option.some.injEq, Prod.mk.injEq] at he
    obtain ⟨rfl, rfl⟩ := he
    exact hsafe
  inflight := hi
  exact := hf.exact
  still := hf.still

theorem Filed.inflight_none (hm : s.main = none) : s.inflight = none := by
  have hinf := hf.inflight
  unfold Sys.pending at hinf
  rw [hm] at hinf
  exact Option.toList_eq_nil_iff.mp hinf

theorem Filed.writeBegin (h : Running s L start floor m) (hm : s.main = none)
    (hcl : s.closing = none) {batch : WriteBatch} (hne : batch ≠ [])
    (hok : s.db.checkWrite batch = .ok) :
    Filed c { s with
      main := some (.writing ⟨s.db.lastSequence + 1, batch⟩, s.db.write batch)
      inflight := some ⟨s.db.lastSequence + 1, batch⟩ } L m := by
  obtain ⟨a, hwal, hfloor, hlt, hplace⟩ := h.wal (by rw [hcl]; simp)
  obtain ⟨happ, hkeys⟩ := appendable_of_checkWrite hne h.contents.edit.sequence_le hok
  refine hf.begin rfl ?_
  refine (write_files h.contents hf.saved (hf.quiet hm) hwal (h.wal_ge hwal).1 hplace happ
    hkeys).mono ?_
  exact fun res d _ _ hres => ⟨hres.1, a, hwal, hres.2⟩

theorem Filed.switchBegin (h : Running s L start floor m) (hm : s.main = none)
    (hcl : s.closing = none) :
    Filed c { s with main := some (.switching, s.db.flushMemTable) } L m := by
  refine hf.begin (i := s.inflight) (by rw [hf.inflight_none hm]; rfl) ?_
  exact flushMemTable_files h.contents hf.saved h.path (hf.quiet hm) h.places
    (h.oldest (by rw [hcl]; simp)) h.below.1 fun a ha => (h.wal_ge ha).1

theorem Filed.publishFlushBegin (h : Running s L start floor m)
    (hm : s.main = none) {result : Except Status TableFile}
    (hw : s.worker = .building imm number (.ret result)) :
    Filed c { s with
      main := some (.publishFlush imm number result, s.db.publishFlush imm number result)
      worker := .publishing } L m := by
  have hwork := h.worker
  rw [hw] at hwork
  obtain ⟨⟨rest, hrest⟩, hhanded, hsafe⟩ := hwork
  have hbuilt := hsafe.done h.ambient
  have hheld := hf.quiet hm
  refine hf.begin (i := s.inflight) (by rw [hf.inflight_none hm]; rfl) ?_
  cases result with
  | error e =>
    refine held_ret hheld h.contents hf.saved (fun t ht => List.mem_append_left _
      (mem_liveTables ht)) (Nat.le_refl _) (fun a ha => (h.wal_ge ha).1) fun d hd => ?_
    exact hd.latched (DB.latched_setBackgroundError _ _)
  | ok t =>
    have himm : imm ∈ s.db.immutables := by rw [hrest]; exact List.mem_cons_self
    have hok := FlushBuilt.flushOk h.contents himm hhanded h.contents.edit.next_le hbuilt rfl
    obtain ⟨start', _, _, hnew⟩ := h.contents.flushed hrest hok
    refine publishFlush_files h.contents hf.saved h.path hheld hok hnew h.below.2 ?_
      (fun a ha => (h.wal_ge ha).2) (hbuilt t rfl).1.1.exactly
    exact h.contents.wal_le_nextLiveWal hrest

theorem Filed.publishCompactionBegin (h : Running s L start floor m)
    (hm : s.main = none) {output : List VersionedEntry}
    (hc : s.compactor = .building job (.ret (.ok (output, t)))) :
    Filed c { s with
      main := some (.publishCompaction job output t, s.db.publishCompaction job output t)
      compactor := .publishing } L m := by
  have hcomp := h.compactor
  rw [hc] at hcomp
  obtain ⟨hj, hhanded, _, hsafe⟩ := hcomp
  have hbuilt := hsafe.done h.ambient
  have hok := CompactionBuilt.outputOk h.contents hj hhanded h.contents.edit.next_le hbuilt rfl
  obtain ⟨m', _, _, hnew⟩ := h.contents.compacted hj hok
  refine hf.begin (i := s.inflight) (by rw [hf.inflight_none hm]; rfl) ?_
  exact publishCompaction_files h.contents hf.saved h.path (hf.quiet hm) hok hnew h.below.1
    (fun a ha => (h.wal_ge ha).1) (hbuilt output t rfl).1.1.exactly

end

theorem MemHolds.nil_of_empty {part : Log} (h : MemHolds [] part) (hok : part.Ok) : part = [] := by
  cases part with
  | nil => rfl
  | cons p rest =>
    obtain ⟨o, ops, hops⟩ := List.exists_cons_of_ne_nil (hok.appendable p List.mem_cons_self).nonempty
    have hmem : o.entry p.2.sequence ∈ p.2.versions := by
      rw [WALBatchRecord.versions, hops]
      exact List.mem_cons_self
    have := (h.mem _).mpr (Log.mem_versions.mpr ⟨p, List.mem_cons_self, hmem⟩)
    cases this

theorem Log.Ok.filter (h : L.Ok) (f : Nat × WALBatchRecord → Bool) :
    Log.Ok (L.filter f) where
  places := h.places.filter f
  increasing := h.increasing.filter f
  appendable := fun p hp => h.appendable p (List.mem_filter.mp hp).1
  keys := fun p hp => h.keys p (List.mem_filter.mp hp).1

theorem Running.drained (h : Running s L start floor m) (hne : s.closing ≠ some true)
    (himm : s.db.immutables = []) (hmem : s.db.activeMemtable = []) :
    L.since s.db.edit.walFileNumber = [] := by
  have hq := h.contents.queue
  rw [himm] at hq
  have hstart := hq.nil_eq
  have hholds := h.contents.mem
  rw [hmem] at hholds
  have hsince := hholds.nil_of_empty (h.contents.history.filter _)
  have htight := h.tight hne
  rw [List.eq_nil_iff_forall_not_mem] at hsince htight ⊢
  intro p hp
  obtain ⟨hpL, hle⟩ := Log.mem_since.mp hp
  by_cases hlt : p.1 < start
  · exact htight p (Log.mem_within.mpr ⟨hpL, hle, hlt⟩)
  · exact hsince p (Log.mem_since.mpr ⟨hpL, by omega⟩)

theorem Filed.closeEnd (hf : Filed c s L m) (h : Running s L start floor m) (hm : s.main = none)
    {moved : Bool} (hcl : s.closing = some moved) :
    Filed c { s with main := some (.closing moved, s.db.endClose moved) } L m := by
  refine hf.begin (i := s.inflight) (by rw [hf.inflight_none hm]; rfl) ?_
  refine endClose_files h.contents hf.saved h.path (hf.quiet hm) h.places h.below.1
    (fun a ha => (h.wal_ge ha).1) ?_ ?_
  · rintro rfl
    exact (h.moved hcl).1
  · rintro rfl himm
    have hne : s.closing ≠ some true := by rw [hcl]; simp
    have hmem := hf.still hcl
    refine ⟨?_, hf.exact hne hmem⟩
    rw [hf.saved.wal]
    exact h.drained hne himm hmem

/-! ## Ends of sections -/

theorem DB.Latched.persisted (h : DB.Latched db db') :
    db'.manifest.persisted = db.manifest.persisted := by
  obtain ⟨st, rfl, _⟩ := h
  rfl

theorem DB.Latched.opened (h : DB.Latched (db.withOpened number t) db') :
    db.Agrees db' ∧ db'.manifest.persisted = db.manifest.persisted := by
  obtain ⟨st, rfl, _⟩ := h
  exact ⟨⟨rfl, rfl, rfl, rfl, rfl, rfl, rfl, rfl, rfl, Nat.le_refl _⟩, rfl⟩

section Ends

variable {db : DB} {st : Status}

theorem Filed.stayed (hf : Filed c s L m) (ha : s.db.Agrees db)
    (hp : db.manifest.persisted = s.db.manifest.persisted) (s' : Sys) (hdb : s'.db = db)
    (hclosing : s'.closing = s.closing) (hmain : s'.main = none) (hinf : s'.inflight = none)
    (hheld : Held c db L s'.dir) : Filed c s' L m := by
  subst hdb
  refine ⟨?_, fun _ => hheld, (fun k p he => by rw [hmain] at he; cases he), ?_, ?_, ?_⟩
  · rw [hp]
    exact hf.saved.agrees ha
  · rw [hinf, Sys.pending, hmain]
    rfl
  · intro hne hempty
    rw [hclosing] at hne
    rw [activeMemtable_agrees ha] at hempty
    rw [hp, ha.sequence]
    exact hf.exact hne hempty
  · intro hcl
    rw [hclosing] at hcl
    exact (activeMemtable_agrees ha).trans (hf.still hcl)

theorem filed_saved {start' floor' m' : Nat} (s' : Sys)
    (hcontents : Contents s'.db L start' floor' m')
    (hbelow : s'.db.edit.walFileNumber < s'.db.nextFileNumber)
    (hp : s'.db.manifest.persisted = s'.db.edit) (hmain : s'.main = none)
    (hinf : s'.inflight = none) (hheld : Held c s'.db L s'.dir)
    (hstill : s'.closing = some false → s'.db.activeMemtable = []) : Filed c s' L m' := by
  refine ⟨?_, fun _ => hheld, (fun k p he => by rw [hmain] at he; cases he), ?_, ?_, hstill⟩
  · rw [hp]
    exact hcontents.saved hbelow
  · rw [hinf, Sys.pending, hmain]
    rfl
  · intro _ _
    rw [hp]
    rfl

theorem Filed.appended (hf : Filed c s L m) {a : Nat} {r : WALBatchRecord} (s' : Sys)
    (hrun : Running s' (L ++ [(a, r)]) start floor m) (hwal : s.db.edit.walFileNumber ≤ a)
    (hfloor : floor ≤ a)
    (hdb : s'.db = (s.db.setMemtable s.db.active
      (DB.applyBatch r.batch (s.db.lastSequence + 1) s.db.activeMemtable)).setLastSequence
        (s.db.lastSequence + r.batch.count))
    (hclosing : s'.closing = none) (hmain : s'.main = none) (hinf : s'.inflight = none)
    (hheld : Held c s'.db (L ++ [(a, r)]) s'.dir) : Filed c s' (L ++ [(a, r)]) m := by
  refine ⟨?_, fun _ => hheld, (fun k p he => by rw [hmain] at he; cases he), ?_, ?_, ?_⟩
  · have hs := hf.saved
    rw [hdb]
    refine ⟨hs.wf, hs.below, hs.tables, hs.wal, ?_, hs.entries, ?_, hs.reached.append _, hs.reads⟩
    · exact hs.sequence.trans (Nat.le_add_right _ _)
    · intro p hp hlt
      rcases List.mem_append.mp hp with hp | hp
      · exact hs.older p hp hlt
      · rw [List.mem_singleton.mp hp] at hlt
        have hlt' : a < s.db.manifest.persisted.walFileNumber := hlt
        rw [hs.wal] at hlt'
        omega
  · rw [hinf, Sys.pending, hmain]
    rfl
  · intro _ hempty
    have hholds := hrun.contents.mem
    rw [hempty] at hholds
    have hnil := hholds.nil_of_empty (hrun.contents.history.filter _)
    rw [since_snoc r hfloor] at hnil
    simp at hnil
  · rw [hclosing]
    simp

/-- The end of a section that leaves the database open. -/
theorem Filed.mainEnd (hf : Filed c s L m) (h : Running s L start floor m) {k : Section}
    (hm : s.main = some (k, .ret (db, st))) (hk : ∀ moved, k ≠ .closing moved) :
    ∃ L' start' floor' m', L <+: L' ∧ Running (s.finish k db st) L' start' floor' m' ∧
      Filed c (s.finish k db st) L' m' := by
  have hsec := h.main k _ hm
  have hends : k.Result s.db (db, st) := hsec.ends
  have hleaves : k.Leaves c s.db L (db, st) s.dir := (hf.main k _ hm).done h.ambient
  have hinf : s.inflight.toList = k.pending := by
    rw [hf.inflight, Sys.pending, hm]
  obtain ⟨hnw, hnc⟩ := h.not_publishing hm
  have hstill : s.closing = some false → s.db.activeMemtable = [] := hf.still
  cases k with
  | opening => exact hsec.sound.elim
  | closing moved => exact absurd rfl (hk moved)
  | writing r =>
    have hcl : s.closing = none := hsec.sound.1
    obtain ⟨hok, a, hwal, hheld⟩ := hleaves
    have hst : st = .ok := hok
    have hdb : db = (s.db.setMemtable s.db.active
        (DB.applyBatch r.batch (s.db.lastSequence + 1) s.db.activeMemtable)).setLastSequence
          (s.db.lastSequence + r.batch.count) := by
      rcases hends with ⟨_, hdb⟩ | ⟨hbad, _⟩
      · exact hdb
      · exact absurd hok hbad
    obtain ⟨a', hwal', hrun⟩ := h.appended ({ s with
      db := db, history := s.history ++ [r], inflight := none, main := none }) hm hdb rfl rfl rfl
      rfl rfl rfl
    have haa : a' = a := Option.some.inj (hwal'.symm.trans hwal)
    subst haa
    obtain ⟨a'', hwal'', hfloor, _⟩ := h.wal (by rw [hcl]; simp)
    have haa : a'' = a' := Option.some.inj (hwal''.symm.trans hwal)
    subst haa
    have hfiled := hf.appended _ hrun (h.wal_ge hwal).1 hfloor hdb hcl rfl rfl hheld
    refine ⟨L ++ [(a'', r)], start, floor, m, List.prefix_append _ _, ?_⟩
    simp only [Sys.finish, Sys.afterAppend, hst, if_true]
    split
    · exact ⟨hrun.switchBegin rfl hcl, hfiled.switchBegin hrun rfl hcl⟩
    · exact ⟨hrun.ghost none _ s.caches, { hfiled with }⟩
  | switching =>
    have hcl : s.closing = none := hsec.sound
    have hnone : s.inflight = none := Option.toList_eq_nil_iff.mp hinf
    have hheld : Held c db L s.dir := hleaves
    rcases hends with ⟨_, _, hdb⟩ | ⟨_, _, hmax, hdb⟩ | ⟨_, hl⟩
    · have hdb' : db = s.db := hdb
      subst hdb'
      have hrun := h.latched (s.afterSwitch s.db st) (DB.Latched.refl s.db) rfl rfl rfl
        rfl rfl h.worker (fun imm n p he => ⟨imm, p, he⟩) (Or.inl rfl) (hnw (by simp))
        (hnc (by simp))
      exact ⟨L, start, floor, m, List.prefix_rfl, hrun,
        hf.stayed (DB.Latched.refl s.db).agrees rfl _ rfl rfl rfl hnone hheld⟩
    · have hdb' : db = s.db.switched := hdb
      have hrun := h.switched (s.afterSwitch db st) hm hmax hdb rfl rfl rfl rfl rfl rfl
      refine ⟨L, start, _, m, List.prefix_rfl, hrun,
        filed_saved _ hrun.contents hrun.below.1 ?_ rfl hnone hheld ?_⟩
      · show db.manifest.persisted = db.edit
        rw [hdb']
        rfl
      · intro he
        have he' : s.closing = some false := he
        rw [hcl] at he'
        cases he'
    · have hl := DB.latched_or hl
      have hrun := h.latched (s.afterSwitch db st) hl rfl rfl rfl rfl rfl h.worker
        (fun imm n p he => ⟨imm, p, he⟩) (Or.inl rfl) (hnw (by simp)) (hnc (by simp))
      exact ⟨L, start, floor, m, List.prefix_rfl, hrun,
        hf.stayed hl.agrees hl.persisted _ rfl rfl rfl hnone hheld⟩
  | publishFlush imm number result =>
    have hnone : s.inflight = none := Option.toList_eq_nil_iff.mp hinf
    have hheld : Held c db L s.dir := hleaves
    rcases hends with ⟨t, hres, hok, _, hdb⟩ | ⟨t, hres, hbad, hl⟩ | ⟨e, hres, hste, hdb⟩
    · have hst : st = .ok := hok
      subst hres
      have hdb' : db = s.db.flushed imm number t := hdb
      obtain ⟨start', hrun⟩ := h.flushed (s.afterPublishFlush db st) hm hdb rfl rfl rfl rfl
        (by simp only [Sys.afterPublishFlush, hst, if_true]) rfl
      refine ⟨L, start', floor, m, List.prefix_rfl, hrun,
        filed_saved _ hrun.contents hrun.below.1 ?_ rfl hnone hheld ?_⟩
      · show db.manifest.persisted = db.edit
        rw [hdb']
        rfl
      · intro he
        show db.activeMemtable = []
        rw [hdb']
        exact hf.still he
    · have hst : st ≠ .ok := hbad
      have hl := DB.latched_or (Or.inr hl)
      have hworker : (s.afterPublishFlush db st).worker = .idle := by
        simp only [Sys.afterPublishFlush, hst, if_false]
      have hrun := h.opened (s.afterPublishFlush db st) hl rfl rfl rfl rfl rfl
        (by rw [hworker]; trivial) (by rw [hworker]; intro _ _ _ he; cases he) (Or.inl rfl)
        (by rw [hworker]; simp) (hnc (by simp))
      have hold := hl.opened
      exact ⟨L, start, floor, m, List.prefix_rfl, hrun,
        hf.stayed hold.1 hold.2 _ rfl rfl rfl hnone hheld⟩
    · have hdb' : db = s.db.setBackgroundError e := hdb
      have hl : DB.Latched s.db db := hdb' ▸ DB.latched_setBackgroundError s.db e
      have hworker : (s.afterPublishFlush db st).worker = .wantCompact db.edit.walFileNumber ∨
          (s.afterPublishFlush db st).worker = .idle := by
        simp only [Sys.afterPublishFlush]
        split
        · exact Or.inl rfl
        · exact Or.inr rfl
      have hrun := h.latched (s.afterPublishFlush db st) hl rfl rfl rfl rfl rfl ?_ ?_
        (Or.inl rfl) ?_ (hnc (by simp))
      · exact ⟨L, start, floor, m, List.prefix_rfl, hrun,
          hf.stayed hl.agrees hl.persisted _ rfl rfl rfl hnone hheld⟩
      · rcases hworker with hw | hw <;> rw [hw]
        · exact hl.agrees.wal.le
        · trivial
      · rcases hworker with hw | hw <;> rw [hw] <;> intro _ _ _ he <;> cases he
      · rcases hworker with hw | hw <;> rw [hw] <;> simp
  | publishCompaction job output t =>
    have hnone : s.inflight = none := Option.toList_eq_nil_iff.mp hinf
    have hheld : Held c db L s.dir := hleaves
    rcases hends with ⟨hok, _, _, _, hdb⟩ | ⟨hbad, hl⟩
    · have hst : st = .ok := hok
      have hdb' : db = s.db.compacted job output t := hdb
      obtain ⟨m', hle, _, hrun⟩ := h.compacted ({ s with
        db := db
        main := none
        compactor := .removing (DB.removeInputs (s.db.sstables.filter (DB.isInput job.inputs))) })
        hm hdb rfl rfl rfl rfl rfl rfl
      refine ⟨L, start, floor, m', List.prefix_rfl, ?_⟩
      simp only [Sys.finish, Sys.afterPublishCompaction, hst, if_true]
      refine ⟨hrun, filed_saved _ hrun.contents hrun.below.1 ?_ rfl hnone hheld ?_⟩
      · show db.manifest.persisted = db.edit
        rw [hdb']
        rfl
      · intro he
        show db.activeMemtable = []
        rw [hdb']
        exact hf.still he
    · have hst : st ≠ .ok := hbad
      have hl := DB.latched_or hl
      have hrun := h.opened ({ s with
        db := db, main := none, compactor := .idle, worker := s.worker.compactionDone st }) hl rfl
        rfl rfl rfl rfl (h.worker.compactionDone st)
        (fun imm n p he => ⟨imm, p, building_of_compactionDone he⟩) (Or.inr rfl)
        (fun he => hnw (by simp) (publishing_of_compactionDone he)) (by simp)
      have hold := hl.opened
      refine ⟨L, start, floor, m, List.prefix_rfl, ?_⟩
      simp only [Sys.finish, Sys.afterPublishCompaction, hst, if_false]
      exact ⟨hrun, hf.stayed hold.1 hold.2 _ rfl rfl rfl hnone hheld⟩

end Ends

end KvMem
