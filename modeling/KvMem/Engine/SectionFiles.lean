import KvMem.Engine.Saving
import KvMem.Engine.Schedule

/-! # What each section leaves in the files

For every section of a running database: whenever the machine crashes in it, the
directory is recoverable, and when it ends the files hold what the database then
expects of them.
-/

namespace KvMem

open CrashStore RecordLog FileProg Manifest

variable {c : Prop} {db : DB} {L : Log} {start floor m : Nat} {dir : Dir} {w : Nat}
  {live : List Nat}

/-! ## The tables and the logs beside `MANIFEST` -/

def ActiveLog (c : Prop) (wal : Option Nat) (L : Log) (dir : Dir) : Prop :=
  ∀ a, wal = some a →
    (dir.slot (.wal a)).Exactly c (toCells (encodeAll Wal.encodeRecord (L.inLog a)))

def DB.liveTables (db : DB) : List Nat := db.sstables.map (·.fileNumber)

variable {T : List OpenTable} {n m' start' number a : Nat} {log : Bytes} {t : TableFile}

theorem stores_table (hlive : ∀ t ∈ T, t.fileNumber ∈ live) {t : OpenTable} (ht : t ∈ T) :
    Stores w live (.sst t.fileNumber) := Or.inr ⟨_, hlive t ht, rfl⟩

theorem stores_wal (hn : w ≤ n) : Stores w live (.wal n) := Or.inl ⟨n, hn, rfl⟩

/-- The part of the files a save does not touch. -/
def Beside (c : Prop) (T : List OpenTable) (w : Nat) (wal : Option Nat) (L : Log) (dir : Dir) :
    Prop :=
  Holds c T w L dir ∧ ActiveLog c wal L dir

theorem beside_framed {wal : Option Nat} (hlive : ∀ t ∈ T, t.fileNumber ∈ live)
    (hwal : ∀ a, wal = some a → w ≤ a) : Framed (Stores w live) (Beside c T w wal L) := by
  intro d d' hk h
  refine ⟨h.1.keeps hk (fun t ht => stores_table hlive ht) fun n hn => stores_wal hn, ?_⟩
  exact fun a ha => hk.exactly (stores_wal (hwal a ha)) (h.2 a ha)

theorem Held.beside (h : Held c db L dir) :
    Beside c db.sstables db.edit.walFileNumber db.wal L dir := ⟨h.holds, h.active⟩

theorem Held.framed (hlive : ∀ t ∈ db.sstables, t.fileNumber ∈ live)
    (hw : w ≤ db.edit.walFileNumber) (hwal : ∀ a, db.wal = some a → db.edit.walFileNumber ≤ a) :
    Framed (Guarded w live) (Held c db L) := by
  intro d d' hk h
  obtain ⟨log, hlog, hman⟩ := h.manifest
  have hst : ∀ n, Stores db.edit.walFileNumber live n → Guarded w live n := by
    rintro n (⟨i, hi, rfl⟩ | hn)
    · exact guarded_of_stores _ (stores_wal (hw.trans hi))
    · exact guarded_of_stores _ (Or.inr hn)
  obtain ⟨hholds, hactive⟩ := beside_framed hlive hwal d d' (hk.mono hst) h.beside
  exact ⟨⟨log, hlog, hk.exactly guarded_manifest hman⟩, hholds, hactive⟩

theorem Held.recoverable (hh : Held c db L dir) (h : Contents db L start floor m)
    (hs : Saved db L m db.manifest.persisted) (hlive : ∀ t ∈ db.sstables, t.fileNumber ∈ live)
    (hw : w ≤ db.edit.walFileNumber) : Recoverable c L.records [] w live dir := by
  obtain ⟨log, hlog, hman⟩ := hh.manifest
  obtain ⟨hle, hready⟩ := hh.holds.ready h hs (fun _ ht => ht) (Nat.le_refl _) hlive
  exact recoverable_of_always hlog hman.always ⟨by rw [hs.wal]; exact hw, hready⟩

theorem held_ret {ρ : Type} {Post : ρ → Dir → Prop} {r : ρ} (hh : Held c db L dir)
    (h : Contents db L start floor m) (hs : Saved db L m db.manifest.persisted)
    (hlive : ∀ t ∈ db.sstables, t.fileNumber ∈ live) (hw : w ≤ db.edit.walFileNumber)
    (hwal : ∀ a, db.wal = some a → db.edit.walFileNumber ≤ a)
    (hpost : ∀ d, Held c db L d → Post r d) :
    Safe (sectionRely c L.records [] w live) Post (.ret r) dir :=
  Safe.ret_intro (A := Held c db L) (fun d d' hd hk => Held.framed hlive hw hwal d d' hk hd) hh
    fun d hd _ => ⟨fun _ => hd.recoverable h hs hlive hw, hpost d hd⟩

/-! ## Saving a version -/

theorem saveManifest_safe {H I : List WALBatchRecord} {F : Dir → Prop}
    (hpath : db.manifest.path = .manifest) (hlog : Logged db.manifest.persisted log)
    (hwf : WfEdit db.edit) (hk : KeepsMeta db.manifest.persisted db.edit)
    (hF : Framed (Stores w live) F) (hold : ∀ d, F d → Ready c H I w live db.manifest.persisted d)
    (hnew : ∀ d, F d → Ready c H I w live db.edit d) (hd : F dir)
    (hm : (dir.slot .manifest).Exactly c (toCells log)) :
    Safe (sectionRely c H I w live)
      (fun res d => F d ∧
        ((res = (db.saved, .ok) ∧
            ∃ log', Logged db.edit log' ∧ (d.slot .manifest).Exactly c (toCells log')) ∨
          (res.2 ≠ .ok ∧ res.1 = db.setBackgroundError res.2 ∧
            (d.slot .manifest).Exactly c (toCells log))))
      db.saveManifest dir := by
  have hsave := (save_safe hpath hlog hwf hk hF hold hnew hd hm).and_ends
    (save_ends db.manifest db.edit)
  refine hsave.bind ?_
  rintro ⟨mf, st⟩ d _ ⟨⟨hd, hok, hbad⟩, hres⟩
  dsimp only at hok hbad hres
  rcases hres with ⟨rfl, rfl⟩ | ⟨hne, rfl⟩
  · obtain ⟨log', hlog', hm'⟩ := hok rfl
    refine section_ret hF guarded_of_stores guarded_manifest (lasting_exactly c (toCells log')) ?_
      ?_ hd hm'
    · exact fun d hd hm _ => recoverable_of_always hlog' hm.always (hnew d hd)
    · exact fun d hd hm => ⟨hd, Or.inl ⟨rfl, log', hlog', hm⟩⟩
  · refine section_ret hF guarded_of_stores guarded_manifest (lasting_exactly c (toCells log)) ?_
      ?_ hd (hbad hne)
    · exact fun d hd hm _ => recoverable_of_always hlog hm.always (hold d hd)
    · intro d hd hm
      refine ⟨hd, Or.inr ⟨hne, ?_, hm⟩⟩
      rw [if_pos hne]

theorem keepsMeta_add {old : VersionEdit} (metas : List SSTableMeta) (hord : Ordered old.sstables)
    (hsub : ∀ x ∈ metas, x ∈ old.sstables) {x : SSTableMeta}
    (hnew : ∀ y ∈ old.sstables, y.fileNumber ≠ x.fileNumber) {next : VersionEdit}
    (hnext : next.sstables = sortByNumber (metas ++ [x])) : KeepsMeta old next := by
  intro f hf g hg heq
  rw [hnext] at hg
  rcases mem_add.mp hg with hg | rfl
  · exact eq_of_number hord hf (hsub g hg) heq
  · exact absurd heq (hnew f hf)

/-! ## Publishing -/

/-- A version that is published: the new tables are there before it is saved. -/
theorem publish_safe (staged new : DB) {floor' : Nat} (h : Contents db L start floor m)
    (hs : Saved db L m db.manifest.persisted) (hpath : staged.manifest.path = .manifest)
    (hpers : staged.manifest.persisted = db.manifest.persisted) (hedit : staged.edit = new.edit)
    (hlog : Logged db.manifest.persisted log) (hnew : Contents new L start' floor' m')
    (hsnew : Saved new L m' new.edit) (hk : KeepsMeta db.manifest.persisted new.edit)
    (hT : ∀ t ∈ db.sstables, t ∈ T) (hT' : ∀ t ∈ new.sstables, t ∈ T)
    (hw : db.edit.walFileNumber ≤ new.edit.walFileNumber) (hlive : ∀ t ∈ T, t.fileNumber ∈ live)
    (hwal : ∀ a, db.wal = some a → db.edit.walFileNumber ≤ a)
    (hd : Beside c T db.edit.walFileNumber db.wal L dir)
    (hm : (dir.slot .manifest).Exactly c (toCells log)) :
    Safe (sectionRely c L.records [] db.edit.walFileNumber live)
      (fun res d => Beside c T db.edit.walFileNumber db.wal L d ∧
        ((res = (staged.saved, .ok) ∧
            ∃ log', Logged new.edit log' ∧ (d.slot .manifest).Exactly c (toCells log')) ∨
          (res.2 ≠ .ok ∧ res.1 = staged.setBackgroundError res.2 ∧
            (d.slot .manifest).Exactly c (toCells log))))
      staged.saveManifest dir := by
  rw [← hedit] at hk ⊢
  refine saveManifest_safe hpath (hpers.symm ▸ hlog) (hedit.symm ▸ hnew.edit) (hpers.symm ▸ hk)
    (beside_framed hlive hwal) ?_ ?_ hd hm
  · intro d hd
    rw [hpers]
    exact hd.1.ready h hs hT (Nat.le_refl _) hlive
  · intro d hd
    rw [hedit]
    exact hd.1.ready hnew hsnew hT' hw hlive

theorem publishFlush_files {imm : ImmutableMemTable} (h : Contents db L start floor m)
    (hs : Saved db L m db.manifest.persisted) (hpath : db.manifest.path = .manifest)
    (hh : Held c db L dir) (ht : FlushOk db imm number t)
    (hnew : Contents (db.flushed imm number t) L start' floor m)
    (hbelow : db.nextLiveWal < db.nextFileNumber) (hle : db.edit.walFileNumber ≤ db.nextLiveWal)
    (hactive : ∀ a, db.wal = some a → db.nextLiveWal ≤ a)
    (htable : (dir.slot (.sst number)).Exactly c [.table t]) :
    Safe (sectionRely c L.records [] db.edit.walFileNumber (db.liveTables ++ [number]))
      (fun res d => Held c res.1 L d) (db.publishFlush imm number (.ok t)) dir := by
  have hwal : ∀ a, db.wal = some a → db.edit.walFileNumber ≤ a :=
    fun a ha => hle.trans (hactive a ha)
  have hlive : ∀ x ∈ db.sstables ++ [db.handle number t],
      x.fileNumber ∈ db.liveTables ++ [number] := by
    intro x hx
    rcases List.mem_append.mp hx with hx | hx
    · exact List.mem_append_left _ (List.mem_map_of_mem hx)
    · rw [List.mem_singleton.mp hx]
      exact List.mem_append_right _ List.mem_cons_self
  have hliveOld : ∀ x ∈ db.sstables, x.fileNumber ∈ db.liveTables ++ [number] :=
    fun x hx => hlive x (List.mem_append_left _ hx)
  obtain ⟨log, hlog, hm⟩ := hh.manifest
  have hbeside : Beside c (db.sstables ++ [db.handle number t]) db.edit.walFileNumber db.wal L
      dir := by
    refine ⟨⟨?_, hh.holds.logs⟩, hh.active⟩
    intro x hx
    rcases List.mem_append.mp hx with hx | hx
    · exact hh.holds.tables x hx
    · rw [List.mem_singleton.mp hx]
      exact htable
  have hkeeps : KeepsMeta db.manifest.persisted (db.flushed imm number t).edit := by
    refine keepsMeta_add db.edit.sstables (by rw [hs.tables]; exact h.ordered) ?_ ?_ rfl
    · exact fun x hx => by rw [hs.tables]; exact hx
    · intro y hy
      rw [hs.tables] at hy
      exact ht.new y hy
  simp only [DB.publishFlush]
  split
  · exact held_ret hh h hs hliveOld (Nat.le_refl _) hwal fun d hd =>
      (hd.congr rfl rfl rfl rfl : Held c (db.withOpened number t) L d).latched
        (DB.latched_setBackgroundError _ _)
  · refine (publish_safe (db.stageFlush imm number t) (db.flushed imm number t) h hs hpath rfl
      rfl hlog hnew (hnew.saved hbelow) hkeeps
      (fun x hx => List.mem_append_left _ hx) (fun x hx => hx) hle hlive hwal hbeside hm).bind ?_
    rintro ⟨db', st⟩ d _ ⟨hd, ⟨hres, log', hlog', hm'⟩ | ⟨hne, hdb', hm'⟩⟩
    · simp only [Prod.mk.injEq] at hres
      obtain ⟨rfl, rfl⟩ := hres
      have hheld : Held c (db.flushed imm number t) L d :=
        ⟨⟨log', hlog', hm'⟩, ⟨hd.1.tables, fun n hn => hd.1.logs n (hle.trans hn)⟩, hd.2⟩
      exact held_ret hheld hnew (hnew.saved hbelow) hlive hle hactive fun d hd => hd
    · simp only at hne hdb'
      subst hdb'
      have hheld : Held c db L d :=
        ⟨⟨log, hlog, hm'⟩, ⟨fun x hx => hd.1.tables x (List.mem_append_left _ hx), hd.1.logs⟩, hd.2⟩
      rw [if_pos hne]
      refine held_ret hheld h hs hliveOld (Nat.le_refl _) hwal fun d hd => ?_
      have hback : ((db.stageFlush imm number t).setBackgroundError st).rollback db =
          (db.withOpened number t).setBackgroundError st :=
        DB.rollback_eq (db.stageFlush imm number t) (db.withOpened number t) st h.sorted
          rfl rfl rfl
      rw [hback, DB.setBackgroundError_twice]
      exact (hd.congr rfl rfl rfl rfl : Held c (db.withOpened number t) L d).latched
        (DB.latched_setBackgroundError _ _)

theorem publishCompaction_files {job : DB.CompactionJob} {output : List VersionedEntry}
    (h : Contents db L start floor m) (hs : Saved db L m db.manifest.persisted)
    (hpath : db.manifest.path = .manifest) (hh : Held c db L dir) (ho : OutputOk db job output t)
    (hnew : Contents (db.compacted job output t) L start floor m')
    (hbelow : db.edit.walFileNumber < db.nextFileNumber)
    (hwal : ∀ a, db.wal = some a → db.edit.walFileNumber ≤ a)
    (htable : (dir.slot (.sst job.number)).Exactly c [.table t]) :
    Safe (sectionRely c L.records [] db.edit.walFileNumber (db.liveTables ++ [job.number]))
      (fun res d => Held c res.1 L d) (db.publishCompaction job output t) dir := by
  have hlive : ∀ x ∈ db.sstables ++ [db.handle job.number t],
      x.fileNumber ∈ db.liveTables ++ [job.number] := by
    intro x hx
    rcases List.mem_append.mp hx with hx | hx
    · exact List.mem_append_left _ (List.mem_map_of_mem hx)
    · rw [List.mem_singleton.mp hx]
      exact List.mem_append_right _ List.mem_cons_self
  have hliveOld : ∀ x ∈ db.sstables, x.fileNumber ∈ db.liveTables ++ [job.number] :=
    fun x hx => hlive x (List.mem_append_left _ hx)
  have hopened : ∀ d, Held c db L d → Held c (db.withOpened job.number t) L d :=
    fun d hd => hd.congr rfl rfl rfl rfl
  -- the new table is in no version yet, so removing its file harms nothing
  have hremove : ∀ st : Status, Safe (sectionRely c L.records [] db.edit.walFileNumber
      (db.liveTables ++ [job.number])) (fun res d => Held c res.1 L d)
      (.op (.remove (.sst job.number)) fun _ => .ret (db.withOpened job.number t, st)) dir := by
    intro st
    have hexec : ∀ d, Held c db L d → Held c db L ((Op.remove (.sst job.number)).exec d) := by
      intro d hd
      have hlive' : ∀ x ∈ db.sstables, x.fileNumber ∈ db.liveTables :=
        fun x hx => List.mem_map_of_mem hx
      refine Held.framed hlive' (Nat.le_refl _) hwal d _ (Op.exec_keeps _ _ ?_) hd
      rintro n hn (rfl : n = .sst job.number)
      rcases hn with hn | hn | hn | ⟨i, _, hn⟩ | ⟨i, hi, hn⟩
      · cases hn
      · cases hn
      · cases hn
      · cases hn
      · have hnum : job.number = i := FileName.sst.inj hn
        obtain ⟨x, hx, hxi⟩ := List.mem_map.mp hi
        obtain ⟨y, hy, hyx, _⟩ := h.aligned.description hx
        exact ho.new y hy (hyx.trans (hxi.trans hnum.symm))
    refine Safe.op_intro (A := Held c db L)
      (fun d d' hd hk => Held.framed hliveOld (Nat.le_refl _) hwal d d' hk hd) hh ?_ ?_ ?_
    · exact fun d hd _ => ⟨fun _ => hd.recoverable h hs hliveOld (Nat.le_refl _), trivial⟩
    · exact fun d hd _ => held_ret (hexec d hd) h hs hliveOld (Nat.le_refl _) hwal hopened
    · exact fun hf => hf.elim
  obtain ⟨log, hlog, hm⟩ := hh.manifest
  have hbeside : Beside c (db.sstables ++ [db.handle job.number t]) db.edit.walFileNumber db.wal L
      dir := by
    refine ⟨⟨?_, hh.holds.logs⟩, hh.active⟩
    intro x hx
    rcases List.mem_append.mp hx with hx | hx
    · exact hh.holds.tables x hx
    · rw [List.mem_singleton.mp hx]
      exact htable
  have hkeeps : KeepsMeta db.manifest.persisted (db.compacted job output t).edit := by
    refine keepsMeta_add
      (db.edit.sstables.filter fun m => !Manifest.hasNumber job.inputs m.fileNumber)
      (by rw [hs.tables]; exact h.ordered) ?_ ?_ rfl
    · intro x hx
      rw [hs.tables]
      exact (List.mem_filter.mp hx).1
    · intro y hy
      rw [hs.tables] at hy
      exact ho.new y hy
  have hsub : ∀ x ∈ (db.compacted job output t).sstables,
      x ∈ db.sstables ++ [db.handle job.number t] := by
    intro x hx
    rcases List.mem_append.mp hx with hx | hx
    · exact List.mem_append_left _ (List.mem_filter.mp hx).1
    · exact List.mem_append_right _ hx
  rw [DB.publishCompaction]
  split
  · exact hremove _
  · split
    · exact hremove _
    · refine (publish_safe (db.stageCompaction job output t) (db.compacted job output t) h hs hpath
        rfl rfl hlog hnew (hnew.saved hbelow) hkeeps (fun x hx => List.mem_append_left _ hx) hsub
        (Nat.le_refl _) hlive hwal hbeside hm).bind ?_
      rintro ⟨db', st⟩ d _ ⟨hd, ⟨hres, log', hlog', hm'⟩ | ⟨hne, hdb', hm'⟩⟩
      · simp only [Prod.mk.injEq] at hres
        obtain ⟨rfl, rfl⟩ := hres
        have hheld : Held c (db.compacted job output t) L d :=
          ⟨⟨log', hlog', hm'⟩, ⟨fun x hx => hd.1.tables x (hsub x hx), hd.1.logs⟩, hd.2⟩
        exact held_ret hheld hnew (hnew.saved hbelow) (fun x hx => hlive x (hsub x hx))
          (Nat.le_refl _) hwal fun d hd => hd
      · simp only at hne hdb'
        subst hdb'
        have hheld : Held c db L d :=
          ⟨⟨log, hlog, hm'⟩, ⟨fun x hx => hd.1.tables x (List.mem_append_left _ hx), hd.1.logs⟩,
            hd.2⟩
        simp only [if_pos hne]
        refine held_ret hheld h hs hliveOld (Nat.le_refl _) hwal fun d hd => ?_
        have hback : ((db.stageCompaction job output t).setBackgroundError st).rollback db =
            (db.withOpened job.number t).setBackgroundError st :=
          DB.rollback_eq (db.stageCompaction job output t) (db.withOpened job.number t) st
            h.sorted rfl rfl rfl
        rw [hback]
        exact (hopened d hd).latched (DB.latched_setBackgroundError _ _)

/-! ## One log on its way -/

structure BesideLog (c : Prop) (db : DB) (L : Log) (log : Bytes) (a : Nat) (dir : Dir) : Prop where
  manifest : (dir.slot .manifest).Exactly c (toCells log)
  tables : ∀ t ∈ db.sstables, (dir.slot (.sst t.fileNumber)).Exactly c [.table t.table]
  logs : ∀ n, db.edit.walFileNumber ≤ n → n ≠ a → LogHolds c (dir.slot (.wal n)) (L.inLog n)
  active : ∀ n, db.wal = some n → n ≠ a →
    (dir.slot (.wal n)).Exactly c (toCells (encodeAll Wal.encodeRecord (L.inLog n)))

def OtherName (w : Nat) (live : List Nat) (a : Nat) (n : FileName) : Prop :=
  n = .manifest ∨ (Stores w live n ∧ n ≠ .wal a)

theorem guarded_of_other (n : FileName) (h : OtherName w live a n) : Guarded w live n := by
  rcases h with rfl | ⟨h, _⟩
  · exact guarded_manifest
  · exact guarded_of_stores n h

theorem besideLog_framed (hlive : ∀ t ∈ db.sstables, t.fileNumber ∈ live)
    (hwal : ∀ n, db.wal = some n → db.edit.walFileNumber ≤ n) :
    Framed (OtherName db.edit.walFileNumber live a) (BesideLog c db L log a) := by
  intro d d' hk h
  have hlogName : ∀ n, db.edit.walFileNumber ≤ n → n ≠ a →
      OtherName db.edit.walFileNumber live a (.wal n) :=
    fun n hn hne => Or.inr ⟨stores_wal hn, fun he => hne (FileName.wal.inj he)⟩
  refine ⟨hk.exactly (Or.inl rfl) h.manifest, ?_, ?_, ?_⟩
  · intro t ht
    exact hk.exactly (Or.inr ⟨stores_table hlive ht, by simp⟩) (h.tables t ht)
  · exact fun n hn hne => (h.logs n hn hne).keeps hk (hlogName n hn hne)
  · exact fun n hn hne => hk.exactly (hlogName n (hwal n hn) hne) (h.active n hn hne)

theorem Held.besideLog (h : Held c db L dir) (a : Nat) :
    ∃ log, Logged db.manifest.persisted log ∧ BesideLog c db L log a dir := by
  obtain ⟨log, hlog, hm⟩ := h.manifest
  exact ⟨log, hlog, hm, h.holds.tables, fun n hn _ => h.holds.logs n hn,
    fun n hn _ => h.active n hn⟩

theorem BesideLog.held (h : BesideLog c db L log a dir) (hlog : Logged db.manifest.persisted log)
    (ha : (dir.slot (.wal a)).Exactly c (toCells (encodeAll Wal.encodeRecord (L.inLog a)))) :
    Held c db L dir := by
  refine ⟨⟨log, hlog, h.manifest⟩, ⟨h.tables, fun n hn => ?_⟩, fun n hn => ?_⟩
  · by_cases hne : n = a
    · exact hne ▸ Or.inr ha
    · exact h.logs n hn hne
  · by_cases hne : n = a
    · exact hne ▸ ha
    · exact h.active n hn hne

/-- Whatever the one log may turn out to hold of the pending batch. -/
theorem BesideLog.recoverable {P : Log} (hb : BesideLog c db L log a dir)
    (h : Contents db L start floor m) (hs : Saved db L m db.manifest.persisted)
    (hlog : Logged db.manifest.persisted log) (hp : PendingOk db L P)
    (hlive : ∀ t ∈ db.sstables, t.fileNumber ∈ live) (hplace : ∀ p ∈ P, p.1 = a)
    (ha : WalHolds c (dir.slot (.wal a)) (L.inLog a) (Log.inLog P a)) :
    Recoverable c L.records P.records db.edit.walFileNumber live dir := by
  refine recoverable_of_always hlog hb.manifest.always ⟨hs.wal.ge, db.sstables, L, P, ?_, rfl, rfl,
    hlive⟩
  refine h.stored hs hp (fun t ht => (hb.tables t ht).always) fun n hn => ?_
  by_cases hne : n = a
  · exact hne ▸ ha
  · have hnone : Log.inLog P n = [] := by
      simp only [Log.inLog, Log.records, List.map_eq_nil_iff, List.filter_eq_nil_iff]
      intro p hp'
      simp [hplace p hp', Ne.symm hne]
    rw [hnone]
    exact (hb.logs n hn hne).walHolds

/-! ## Writing -/

theorem inLog_snoc (L : Log) (a : Nat) (r : WALBatchRecord) (n : Nat) :
    Log.inLog (L ++ [(a, r)]) n = L.inLog n ++ (if a = n then [r] else []) := by
  simp only [Log.inLog, Log.records, List.filter_append, List.map_append]
  by_cases h : a = n <;> simp [h]

theorem write_files {batch : WriteBatch} (h : Contents db L start floor m)
    (hs : Saved db L m db.manifest.persisted) (hh : Held c db L dir) (ha : db.wal = some a)
    (hwa : db.edit.walFileNumber ≤ a) (hplace : ∀ p ∈ L, p.1 ≤ a)
    (hr : Wal.Appendable ⟨db.lastSequence + 1, batch⟩) (hkeys : ∀ o ∈ batch, KeyOk o.key) :
    Safe (sectionRely c L.records [⟨db.lastSequence + 1, batch⟩] db.edit.walFileNumber db.liveTables)
      (fun res d => res.2 = .ok ∧ Held c res.1 (L ++ [(a, ⟨db.lastSequence + 1, batch⟩)]) d)
      (db.write batch) dir := by
  obtain ⟨log, hlog, hbeside⟩ := hh.besideLog a
  have hwal : ∀ n, db.wal = some n → db.edit.walFileNumber ≤ n := by
    intro n hn
    rw [ha] at hn
    cases hn
    exact hwa
  have hlive : ∀ t ∈ db.sstables, t.fileNumber ∈ db.liveTables := fun t ht => List.mem_map_of_mem ht
  have hF : Framed (OtherName db.edit.walFileNumber db.liveTables a) (BesideLog c db L log a) :=
    besideLog_framed hlive hwal
  have hguard : Guarded db.edit.walFileNumber db.liveTables (.wal a) :=
    guarded_of_stores _ (stores_wal hwa)
  have hno : ∀ n, n = FileName.wal a → ¬ OtherName db.edit.walFileNumber db.liveTables a n := by
    rintro n rfl (hn | ⟨_, hn⟩)
    · cases hn
    · exact hn rfl
  have hpend : PendingOk db L [(a, ⟨db.lastSequence + 1, batch⟩)] := by
    refine ⟨h.history.snoc hplace (fun p hp => Nat.lt_succ_of_le (h.last p hp)) hr hkeys, by simp,
      ?_, ?_⟩
    · intro p hp
      rw [List.mem_singleton.mp hp]
      exact hwa
    · intro p hp
      rw [List.mem_singleton.mp hp]
      exact Nat.lt_succ_self _
  have hfull : encodeAll Wal.encodeRecord (L.inLog a ++ [⟨db.lastSequence + 1, batch⟩]) =
      encodeAll Wal.encodeRecord (L.inLog a) ++ Wal.encodeRecord ⟨db.lastSequence + 1, batch⟩ := by
    simp
  have hpre : toCells (encodeAll Wal.encodeRecord (L.inLog a)) <+:
      toCells (encodeAll Wal.encodeRecord (L.inLog a ++ [⟨db.lastSequence + 1, batch⟩])) := by
    rw [hfull, toCells_append]
    exact List.prefix_append _ _
  have hcr : ∀ d, BesideLog c db L log a d →
      (d.slot (.wal a)).Within c (toCells (encodeAll Wal.encodeRecord (L.inLog a)))
        (toCells (encodeAll Wal.encodeRecord (L.inLog a ++ [⟨db.lastSequence + 1, batch⟩]))) →
      c → Recoverable c L.records [⟨db.lastSequence + 1, batch⟩] db.edit.walFileNumber
        db.liveTables d := by
    intro d hd hwithin _
    refine hd.recoverable h hs hlog hpend hlive (fun p hp => by rw [List.mem_singleton.mp hp]) ?_
    refine Or.inr ?_
    have hone : Log.inLog [(a, ⟨db.lastSequence + 1, batch⟩)] a =
        [⟨db.lastSequence + 1, batch⟩] := by
      simp [Log.inLog, Log.records]
    rwa [hone]
  have hcount : batch.count ≠ 0 := fun h0 => hr.nonempty (List.length_eq_zero_iff.mp h0)
  unfold DB.write appendBatch
  rw [ha, if_neg hcount, Wal.checkAppend_of_appendable hr]
  refine section_attempt (fun s => Tentative c False s
    (toCells (encodeAll Wal.encodeRecord (L.inLog a)))
    (toCells (encodeAll Wal.encodeRecord (L.inLog a ++ [⟨db.lastSequence + 1, batch⟩])))) hF
    guarded_of_other hguard (lasting_exactly c _) hno ?_ ?_ ?_ hbeside (hh.active a ha)
  · exact fun d hd hx => hcr d hd (hx.always.within.mono List.prefix_rfl hpre)
  · intro d hx
    rw [hfull, toCells_append]
    exact append_tentative (hx.tentative False) _
  · intro d hd hx
    refine section_attempt (fun s => s.Exactly c
      (toCells (encodeAll Wal.encodeRecord (L.inLog a ++ [⟨db.lastSequence + 1, batch⟩])))) hF
      guarded_of_other hguard (lasting_tentative c False _ _) hno ?_ ?_ ?_ hd hx
    · exact fun d hd hx => hcr d hd ((hx.grows hpre).within fun hf => hf)
    · exact fun d hx => (sync_tentative hx).exactly
    · intro d hd hx
      refine section_ret hF guarded_of_other hguard (lasting_exactly c _) ?_ ?_ hd hx
      · exact fun d hd hx => hcr d hd (hx.always.within.mono hpre List.prefix_rfl)
      · intro d hd hx
        refine ⟨rfl, ⟨log, hlog, hd.manifest⟩, ⟨hd.tables, ?_⟩, ?_⟩
        · intro n hn
          rw [inLog_snoc]
          by_cases hne : a = n
          · rw [if_pos hne, ← hne]
            exact Or.inr hx
          · rw [if_neg hne, List.append_nil]
            exact hd.logs n hn (Ne.symm hne)
        · intro n hn
          have hna : a = n := Option.some.inj (ha.symm.trans hn)
          rw [inLog_snoc, if_pos hna, ← hna]
          exact hx

/-! ## Switching -/

theorem inLog_of_places (h : ∀ p ∈ L, p.1 < n) : L.inLog n = [] := by
  simp only [Log.inLog, Log.records, List.map_eq_nil_iff, List.filter_eq_nil_iff, decide_eq_true_eq]
  intro p hp
  have := h p hp
  omega

theorem openWal_files (h : Contents db L start floor m) (hs : Saved db L m db.manifest.persisted)
    (hlog : Logged db.manifest.persisted log) (hwa : db.edit.walFileNumber ≤ a)
    (hempty : L.inLog a = []) (hwal : ∀ n, db.wal = some n → db.edit.walFileNumber ≤ n)
    (hd : BesideLog c db L log a dir) (hx : LogHolds c (dir.slot (.wal a)) []) :
    Safe (sectionRely c L.records [] db.edit.walFileNumber db.liveTables)
      (fun st d => st = .ok ∧ BesideLog c db L log a d ∧ (d.slot (.wal a)).Exactly c [])
      (openWal a) dir := by
  have hlive : ∀ t ∈ db.sstables, t.fileNumber ∈ db.liveTables := fun t ht => List.mem_map_of_mem ht
  have hF : Framed (OtherName db.edit.walFileNumber db.liveTables a) (BesideLog c db L log a) :=
    besideLog_framed hlive hwal
  have hguard : Guarded db.edit.walFileNumber db.liveTables (.wal a) :=
    guarded_of_stores _ (stores_wal hwa)
  have hno : ∀ n, n = FileName.wal a → ¬ OtherName db.edit.walFileNumber db.liveTables a n := by
    rintro n rfl (hn | ⟨_, hn⟩)
    · cases hn
    · exact hn rfl
  have hcr : ∀ d, BesideLog c db L log a d → (d.slot (.wal a)).Unwritten c → c →
      Recoverable c L.records [] db.edit.walFileNumber db.liveTables d := by
    intro d hd hun _
    refine hd.recoverable h hs hlog (pendingOk_nil h) hlive (by simp) (Or.inl ⟨hempty, rfl, hun⟩)
  have hunHolds : ∀ s : Slot Cell, LogHolds c s [] → s.Unwritten c := by
    rintro s (⟨_, hs⟩ | hs) o ho
    · exact Or.inl (hs.outcome ho)
    · exact Or.inr (hs.always o ho)
  refine section_attempt (fun s => Tentative c True s [] []) hF guarded_of_other hguard
    (lasting_logHolds c []) hno (fun d hd hx => hcr d hd (hunHolds _ hx)) ?_ ?_ hd hx
  · rintro d (⟨_, hgone⟩ | hex)
    · exact create_tentative_of_none hgone.1 fun hc o ho => (hgone.2 hc o ho).elim
    · exact create_tentative_of_exactly hex True
  · intro d hd hx
    refine section_attempt (fun s => s.Exactly c []) hF guarded_of_other hguard
      (lasting_tentative c True [] []) (fun n hn => hn.elim) ?_ ?_ ?_ hd hx
    · intro d hd hx
      refine hcr d hd fun o ho => ?_
      rcases hx.grows List.prefix_rfl o ho with ⟨_, hn⟩ | ⟨zs, rfl, _, hz⟩
      · exact Or.inl hn
      · rw [List.prefix_nil.mp hz]
        exact Or.inr rfl
    · exact fun d hx => Tentative.exactly (Tentative.dirSynced hx)
    · intro d hd hx
      refine section_ret hF guarded_of_other hguard (lasting_exactly c []) ?_ ?_ hd hx
      · exact fun d hd hx => hcr d hd fun o ho => Or.inr (hx.always o ho)
      · exact fun d hd hx => ⟨rfl, hd, hx⟩

theorem flushMemTable_leaves (h : Contents db L start floor m)
    (hs : Saved db L m db.manifest.persisted) (hpath : db.manifest.path = .manifest)
    (hh : Held c db L dir) (hplaces : ∀ p ∈ L, p.1 < db.nextFileNumber)
    (hfloor : db.activeMemtableOldestWalFileNumber = floor)
    (hbelow : db.edit.walFileNumber < db.nextFileNumber)
    (hwal : ∀ a, db.wal = some a → db.edit.walFileNumber ≤ a) :
    Safe (sectionRely c L.records [] db.edit.walFileNumber db.liveTables)
      (fun res d => ((res.2 = .ok → db.activeMemtable.size = 0) ∧ Held c db L d) ∨
        (res.2 = .ok ∧ db.activeMemtable.size ≠ 0 ∧ Held c db.switched L d))
      db.flushMemTable dir := by
  have hlive : ∀ t ∈ db.sstables, t.fileNumber ∈ db.liveTables := fun t ht => List.mem_map_of_mem ht
  rw [DB.flushMemTable]
  split
  · rename_i hsize
    exact held_ret hh h hs hlive (Nat.le_refl _) hwal fun d hd => Or.inl ⟨fun _ => hsize, hd⟩
  · rename_i hsize
    cases hal : db.allocateFileNumber with
    | error e =>
      have hne : e ≠ .ok := by
        unfold DB.allocateFileNumber at hal
        split at hal
        · cases hal
          simp
        · cases hal
      exact held_ret hh h hs hlive (Nat.le_refl _) hwal fun d hd =>
        Or.inl ⟨fun hok => absurd hok hne, hd⟩
    | ok pair =>
      obtain ⟨number, next⟩ := pair
      obtain ⟨rfl, hmax, rfl⟩ := DB.allocateFileNumber_ok hal
      have hnext := h.allocated hal
      have hempty := inLog_of_places hplaces
      obtain ⟨log, hlog, hbeside⟩ := hh.besideLog db.nextFileNumber
      have hx : LogHolds c (dir.slot (.wal db.nextFileNumber)) [] := by
        have hlogs := hh.holds.logs db.nextFileNumber (Nat.le_of_lt hbelow)
        rwa [hempty] at hlogs
      dsimp only
      refine (openWal_files h hs hlog (Nat.le_of_lt hbelow) hempty hwal hbeside hx).bind ?_
      rintro st d _ ⟨rfl, hd, hx⟩
      rw [if_neg (by simp)]
      have hheld : Held c db L d := hd.held hlog (by rw [hempty]; exact hx)
      have hnewLog : ActiveLog c (some db.nextFileNumber) L d := by
        intro n hn
        cases hn
        rw [hempty]
        exact hx
      have hF : Framed (Stores db.edit.walFileNumber db.liveTables) fun d =>
          Beside c db.sstables db.edit.walFileNumber db.wal L d ∧
            Beside c db.sstables db.edit.walFileNumber (some db.nextFileNumber) L d := by
        intro d d' hk hd
        refine ⟨beside_framed hlive hwal d d' hk hd.1, beside_framed hlive ?_ d d' hk hd.2⟩
        intro a ha
        cases ha
        exact Nat.le_of_lt hbelow
      have hkeeps : KeepsMeta db.manifest.persisted
          (db.setNextFileNumber (db.nextFileNumber + 1)).edit := by
        intro f hf g hg heq
        rw [hs.tables] at hf
        exact eq_of_number h.ordered hf hg heq
      have hsw := h.switched hplaces hfloor hmax
      have hswSaved := hsw.saved (Nat.lt_succ_of_lt hbelow)
      refine Safe.bind (saveManifest_safe hpath hlog hnext.edit hkeeps hF ?_ ?_
        ⟨hheld.beside, hheld.holds, hnewLog⟩ hd.manifest) ?_
      · exact fun d hd => hd.1.1.ready h hs (fun _ ht => ht) (Nat.le_refl _) hlive
      · exact fun d hd => hd.1.1.ready hsw hswSaved (fun _ ht => ht) (Nat.le_refl _) hlive
      · rintro ⟨db', st⟩ d _ ⟨hd, ⟨hres, log', hlog', hm'⟩ | ⟨hne, hdb', hm'⟩⟩
        · simp only [Prod.mk.injEq] at hres
          obtain ⟨rfl, rfl⟩ := hres
          have hswHeld : Held c db.switched L d := ⟨⟨log', hlog', hm'⟩, hd.2.1, hd.2.2⟩
          refine held_ret hswHeld hsw hswSaved hlive (Nat.le_refl _) ?_ fun d hd =>
            Or.inr ⟨rfl, hsize, hd⟩
          intro a ha
          cases ha
          exact Nat.le_of_lt hbelow
        · have hback : Held c db L d := ⟨⟨log, hlog, hm'⟩, hd.1.1, hd.1.2⟩
          simp only at hne
          simp only [if_pos hne]
          exact held_ret hback h hs hlive (Nat.le_refl _) hwal fun d hd =>
            Or.inl ⟨fun hok => absurd hok hne, hd⟩

theorem flushMemTable_files (h : Contents db L start floor m)
    (hs : Saved db L m db.manifest.persisted) (hpath : db.manifest.path = .manifest)
    (hh : Held c db L dir) (hplaces : ∀ p ∈ L, p.1 < db.nextFileNumber)
    (hfloor : db.activeMemtableOldestWalFileNumber = floor)
    (hbelow : db.edit.walFileNumber < db.nextFileNumber)
    (hwal : ∀ a, db.wal = some a → db.edit.walFileNumber ≤ a) :
    Safe (sectionRely c L.records [] db.edit.walFileNumber db.liveTables)
      (fun res d => Held c res.1 L d) db.flushMemTable dir := by
  refine ((flushMemTable_leaves h hs hpath hh hplaces hfloor hbelow hwal).and_ends
    (flushMemTable_ends h.sorted)).mono ?_
  rintro ⟨db', st⟩ d _ _ ⟨hd, hends⟩
  rcases hends with ⟨hok, hsize, hdb⟩ | ⟨hok, hsize, _, hdb⟩ | ⟨hbad, hl⟩
  · rcases hd with ⟨_, hd⟩ | ⟨_, hne, _⟩
    · exact hdb.symm ▸ hd
    · exact absurd hsize hne
  · rcases hd with ⟨himp, _⟩ | ⟨_, _, hd⟩
    · exact absurd (himp hok) hsize
    · exact hdb.symm ▸ hd
  · rcases hd with ⟨_, hd⟩ | ⟨hok, _, _⟩
    · exact hd.latched (DB.latched_or hl)
    · exact absurd hok hbad

/-! ## Closing -/

theorem removeWals_steps {P : Op FileName Cell → Prop} (ns : List Nat) {k : Prog Status}
    (hk : k.Steps P) (hns : ∀ n ∈ ns, P (.remove (.wal n))) : (removeWals ns k).Steps P := by
  induction ns with
  | nil => exact hk
  | cons n ns ih =>
    refine ⟨hns n List.mem_cons_self, fun b => ?_⟩
    cases b with
    | true => exact ih fun i hi => hns i (List.mem_cons_of_mem n hi)
    | false => trivial

theorem removeObsoleteWALFiles_steps (oldest : Nat) :
    (removeObsoleteWALFiles oldest).Steps fun o =>
      o = .syncDir ∨ ∃ n, n < oldest ∧ o = .remove (.wal n) := by
  intro d
  refine removeWals_steps _ ?_ ?_
  · split
    · trivial
    · refine ⟨Or.inl rfl, fun b => ?_⟩
      cases b <;> trivial
  · intro n hn
    exact Or.inr ⟨n, of_decide_eq_true (List.mem_filter.mp hn).2, rfl⟩

/-- Nothing is left for the next `Open` to replay. -/
structure Drained (db : DB) (L : Log) (e : VersionEdit) : Prop where
  logs : L.since e.walFileNumber = []
  sequence : e.lastSequence = db.lastSequence

theorem Contents.moveWal (h : Contents db L start floor m) {next : DB}
    (hal : db.allocateFileNumber = .ok (number, next)) (himm : db.immutables = [])
    (hsince : L.since floor = []) (hplaces : ∀ p ∈ L, p.1 < db.nextFileNumber) :
    Contents (next.moveWal number) L number number m := by
  have hnext := h.allocated hal
  obtain ⟨rfl, hmax, rfl⟩ := DB.allocateFileNumber_ok hal
  have hstart : start = floor := by
    have hq := h.queue
    rw [himm] at hq
    exact hq.nil_eq
  have hnil : L.since db.nextFileNumber = [] := by
    rw [Log.since, List.filter_eq_nil_iff]
    intro p hp
    have := hplaces p hp
    simp only [decide_eq_true_eq]
    omega
  have hpos := h.edit.next_pos
  have hle := h.edit.next_le
  refine { hnext with
    mem := ?_, queue := ?_, edit := ?_, walStart := Nat.le_refl _, walOldest := Nat.le_refl _,
    queueOldest := ?_, oldest := Nat.le_refl _, floorNext := Nat.le_succ _, view := ?_
    snapshots := ⟨hnext.snapshots.range, hnext.snapshots.order⟩ }
  · rw [hnil, ← hsince]
    exact h.mem
  · have hq : (db.setNextFileNumber (db.nextFileNumber + 1)).immutables = [] := himm
    show Queue _ L db.nextFileNumber (db.setNextFileNumber (db.nextFileNumber + 1)).immutables _
    rw [hq]
    exact Queue.nil _
  · exact { hnext.edit with wal_pos := hpos, wal_le := hle }
  · intro imm hin
    have hin' : imm ∈ db.immutables := hin
    rw [himm] at hin'
    cases hin'
  · have hview := h.view
    rw [hstart, hsince] at hview
    rw [hnil]
    exact hview

theorem removeObsoleteWALFiles_files (h : Contents db L start floor m) (hs : Saved db L m db.edit)
    (hlog : Logged db.edit log) (hw : w ≤ db.edit.walFileNumber)
    (hlive : ∀ t ∈ db.sstables, t.fileNumber ∈ live)
    (hm : (dir.slot .manifest).Exactly c (toCells log))
    (hd : Holds c db.sstables db.edit.walFileNumber L dir) (f : Status → DB) :
    Safe (sectionRely c L.records [] w live)
      (fun _ d => Resting c L.records [] d db.edit log [] db.sstables L [])
      (removeObsoleteWALFiles db.edit.walFileNumber >>= fun st => .ret (f st, st)) dir := by
  let keep : FileName → Prop := fun n => n = .manifest ∨ Stores db.edit.walFileNumber live n
  have hguard : ∀ n, keep n → Guarded w live n := by
    rintro n (rfl | ⟨i, hi, rfl⟩ | hn)
    · exact guarded_manifest
    · exact guarded_of_stores _ (stores_wal (hw.trans hi))
    · exact guarded_of_stores _ (Or.inr hn)
  let F : Dir → Prop := fun d => (d.slot .manifest).Exactly c (toCells log) ∧
    Holds c db.sstables db.edit.walFileNumber L d
  have hF : Framed keep F := by
    intro d d' hk hd
    refine ⟨hk.exactly (Or.inl rfl) hd.1, hd.2.keeps hk ?_ ?_⟩
    · exact fun t ht => Or.inr (stores_table hlive ht)
    · exact fun n hn => Or.inr (stores_wal hn)
  have hst : Stable (sectionRely c L.records [] w live) F :=
    fun d d' hd hk => hF d d' (hk.mono hguard) hd
  have hcr : ∀ d, F d → c → Recoverable c L.records [] w live d := by
    intro d hd _
    obtain ⟨_, hready⟩ := hd.2.ready h hs (fun _ ht => ht) (Nat.le_refl _) hlive
    exact recoverable_of_always hlog hd.1.always ⟨hw, hready⟩
  refine Safe.bind (Safe.of_steps hst (fun d hd _ => hcr d hd) ?_
    (removeObsoleteWALFiles_steps _) ⟨hm, hd⟩) ?_
  · intro o ho d hd _
    have hno : ∀ n, o.Touches n → ¬ keep n := by
      rcases ho with rfl | ⟨i, hi, rfl⟩
      · exact fun n hn => hn.elim
      · rintro n rfl (hn | ⟨j, hj, hn⟩ | ⟨j, _, hn⟩)
        · cases hn
        · have := FileName.wal.inj hn
          omega
        · cases hn
    refine ⟨trivial, hF.exec hno hd, fun d' hf => ?_⟩
    exact hF d d' (hf.keeps fun n hn htn => hno n htn hn) hd
  · intro st d _ hd
    refine Safe.ret_intro hst hd fun d hd _ => ⟨hcr d hd, hlog, Tail.nil _ _, ?_, ?_, hd.2.tables,
      ?_, rfl, rfl⟩
    · rw [List.append_nil]
      exact hd.1
    · exact hd.2.stored h hs (fun _ ht => ht) (Nat.le_refl _)
    · exact fun n hn => (hd.2.logs n hn).firm

theorem endClose_files {moved : Bool} (h : Contents db L start floor m)
    (hs : Saved db L m db.manifest.persisted) (hpath : db.manifest.path = .manifest)
    (hh : Held c db L dir) (hplaces : ∀ p ∈ L, p.1 < db.nextFileNumber)
    (hbelow : db.edit.walFileNumber < db.nextFileNumber)
    (hwal : ∀ a, db.wal = some a → db.edit.walFileNumber ≤ a)
    (hmoved : moved = true → L.since floor = [])
    (hclean : moved = false → db.immutables = [] → Drained db L db.manifest.persisted) :
    Safe (sectionRely c L.records [] db.edit.walFileNumber db.liveTables)
      (fun res d => ∃ e log tail T, Resting c L.records [] d e log tail T L [] ∧
        (res.2 = .ok → Drained db L e))
      (db.endClose moved) dir := by
  have hlive : ∀ t ∈ db.sstables, t.fileNumber ∈ db.liveTables := fun t ht => List.mem_map_of_mem ht
  -- the files as they are, for an answer that is an error or needs no new version
  have hstay : ∀ {d : Dir} (db' : DB) (st : Status), Held c db L d →
      (st = .ok → Drained db L db.manifest.persisted) →
      Safe (sectionRely c L.records [] db.edit.walFileNumber db.liveTables)
        (fun res d => ∃ e log tail T, Resting c L.records [] d e log tail T L [] ∧
          (res.2 = .ok → Drained db L e)) (.ret (db', st)) d := by
    intro d db' st hd hdr
    refine held_ret hd h hs hlive (Nat.le_refl _) hwal fun d hd => ?_
    obtain ⟨log, hlog, hm⟩ := hd.manifest
    refine ⟨_, log, [], db.sstables, ⟨hlog, Tail.nil _ _, by rwa [List.append_nil],
      hd.holds.stored h hs (fun _ ht => ht) (Nat.le_refl _), hd.holds.tables, ?_, rfl, rfl⟩, hdr⟩
    intro n hn
    rw [hs.wal] at hn
    exact (hd.holds.logs n hn).firm
  rw [DB.endClose]
  split
  · rename_i hcond
    obtain ⟨hok, hmv⟩ := hcond
    have himm := DB.drained_of_closeStatus hok
    cases hal : db.allocateFileNumber with
    | error e =>
      refine hstay _ _ hh fun he => ?_
      unfold DB.allocateFileNumber at hal
      split at hal <;> cases hal
      cases he
    | ok pair =>
      obtain ⟨number, next⟩ := pair
      have hnew := h.moveWal hal himm (hmoved hmv) hplaces
      obtain ⟨rfl, hmax, rfl⟩ := DB.allocateFileNumber_ok hal
      have hsnew := hnew.saved (Nat.lt_succ_self _)
      have hkeeps : KeepsMeta db.manifest.persisted
          ((db.setNextFileNumber (db.nextFileNumber + 1)).moveWal db.nextFileNumber).edit := by
        intro f hf g hg heq
        rw [hs.tables] at hf
        exact eq_of_number h.ordered hf hg heq
      obtain ⟨log, hlog, hm⟩ := hh.manifest
      dsimp only
      refine Safe.bind (publish_safe _ _ h hs hpath rfl rfl hlog hnew hsnew hkeeps
        (fun _ ht => ht) (fun _ ht => ht) (Nat.le_of_lt hbelow) hlive hwal hh.beside hm) ?_
      rintro ⟨db', st⟩ d _ ⟨hd, ⟨hres, log', hlog', hm'⟩ | ⟨hne, hdb', hm'⟩⟩
      · simp only [Prod.mk.injEq] at hres
        obtain ⟨rfl, rfl⟩ := hres
        rw [if_neg (by simp)]
        refine (removeObsoleteWALFiles_files hnew hsnew hlog' (Nat.le_of_lt hbelow) hlive hm'
          ⟨hd.1.tables, fun n hn => hd.1.logs n ((Nat.le_of_lt hbelow).trans hn)⟩ _).mono ?_
        intro res d _ _ hrest
        refine ⟨_, log', [], db.sstables, hrest, fun _ => ⟨?_, rfl⟩⟩
        show L.since db.nextFileNumber = []
        rw [Log.since, List.filter_eq_nil_iff]
        intro p hp
        have := hplaces p hp
        simp only [decide_eq_true_eq]
        omega
      · simp only at hne
        simp only [if_pos hne]
        exact hstay _ _ ⟨⟨log, hlog, hm'⟩, hd.1, hd.2⟩ fun he => absurd he hne
  · rename_i hcond
    refine hstay _ _ hh fun hok => ?_
    have hmv : moved = false := by
      cases moved with
      | false => rfl
      | true => exact absurd ⟨hok, rfl⟩ hcond
    exact hclean hmv (DB.drained_of_closeStatus hok)

end KvMem
