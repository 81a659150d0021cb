import KvMem.Engine.Ambient
import KvMem.Engine.Sections
import KvMem.Storage.MergeDamage

/-! # The programs of the threads

What each program may do to the files, whatever fails: a build writes the two names
of its table, and renames only to a free name; a compaction removes its inputs; a
sweep removes old logs; a section of the lock holder writes the logs, `MANIFEST` and
`CURRENT`.
-/

namespace KvMem

open CrashStore

/-! ## Building a table -/

def buildRely (j : Nat) : Rely FileName Cell where
  fault := fun _ => True
  may := fun o dir => Allowed o dir ∧ (∀ n, o.Touches n → n = .sst j ∨ n = .sstTmp j) ∧
    ∀ a, o = .rename a (.sst j) → dir.exists (.sst j) = false
  keep := fun n => n = .sst j ∨ n = .sstTmp j
  ambient := Ambient
  crash := fun _ => True

section Build

variable {j : Nat} {dir : Dir}

variable {d : Dir} {st : Status}

theorem build_keeps_data {d' : Dir} (h : Keeps (buildRely j).keep d d') :
    (d'.slot (.sst j)).data = (d.slot (.sst j)).data ∧
      (d'.slot (.sstTmp j)).data = (d.slot (.sstTmp j)).data :=
  ⟨h.data (Or.inl rfl), h.data (Or.inr rfl)⟩

def Staged (j : Nat) (P : Option (Data Cell) → Prop) (d : Dir) : Prop :=
  d.exists (.sst j) = false ∧ P (d.slot (.sstTmp j)).data

theorem staged_stable (P : Option (Data Cell) → Prop) : Stable (buildRely j) (Staged j P) := by
  intro d d' h hk
  obtain ⟨h1, h2⟩ := build_keeps_data hk
  refine ⟨?_, h2 ▸ h.2⟩
  have hex := h.1
  simp only [FS.exists, h1] at hex ⊢
  exact hex

theorem build_may_tmp {o : Op FileName Cell} (ha : Allowed o d)
    (ht : ∀ n, o.Touches n → n = .sstTmp j) (hr : ∀ a, o ≠ .rename a (.sst j)) :
    (buildRely j).crash d ∧ (buildRely j).may o d :=
  ⟨trivial, ha, fun n hn => Or.inr (ht n hn), fun a he => absurd he (hr a)⟩

theorem build_fail {Q : Status → Dir → Prop} (hQ : ∀ st d, st ≠ .ok → Q st d) (hne : st ≠ .ok)
    (d : Dir) : Safe (buildRely j) Q (.ret st) d :=
  safe_ret_free fun d' _ => ⟨trivial, hQ st d' hne⟩

theorem build_fail_remove {Q : Status → Dir → Prop} (hQ : ∀ st d, st ≠ .ok → Q st d)
    (hne : st ≠ .ok) (d : Dir) :
    Safe (buildRely j) Q (.op (.remove (.sstTmp j)) fun _ => .ret st) d := by
  apply Safe.op_intro (A := fun _ => True) (fun _ _ _ _ => trivial) trivial
  · intro d' _ _
    exact build_may_tmp trivial (fun n hn => hn) (fun a => by simp)
  · exact fun d' _ _ => build_fail hQ hne _
  · exact fun _ _ d'' _ _ _ => build_fail hQ hne d''

theorem durable_stable (t : TableFile) :
    Stable (buildRely j) fun d => (d.slot (.sst j)).Durable [.table t] := by
  intro d d' hd hk
  exact hk.durable (Or.inl rfl) hd

/-- A build that succeeds leaves the complete table, durably. -/
theorem createFromEntries_safe {entries : List VersionedEntry} (blockSize bits : Nat)
    (hj : 1 ≤ j ∧ j < maxUInt64) (hk : ∀ e ∈ entries, KeyOk e.key)
    (hnew : dir.exists (.sst j) = false) :
    Safe (buildRely j) (fun st d => st = .ok →
        (d.slot (.sst j)).Durable [.table (SSTable.tableOf entries blockSize bits)])
      (createFromEntries j entries blockSize bits) dir := by
  have hQ : ∀ (st : Status) (d : Dir), st ≠ .ok → (st = .ok →
      (d.slot (.sst j)).Durable [.table (SSTable.tableOf entries blockSize bits)]) :=
    fun st d hne h => absurd h hne
  have hplain : FileName.Plain (.sstTmp j) := ⟨hj, by simp, by simp⟩
  rw [createFromEntries]
  cases hc : SSTable.checkCreate entries bits with
  | notFound m | ioError m | corruption m | invalidArgument m => exact build_fail hQ (by simp) dir
  | ok =>
    have hok : TableOk (SSTable.tableOf entries blockSize bits) := by
      refine ⟨SSTable.tableOf_laid _ _ _, ?_⟩
      rw [SSTable.tableOf_entries]
      exact hk
    dsimp only
    refine safe_attempt (staged_stable fun _ => True) ⟨hnew, trivial⟩
      (fun d _ _ => build_may_tmp hplain (fun n hn => hn) (by simp)) ?_
      (fun _ _ d' _ _ _ => build_fail hQ (by simp) d')
    intro d hd _
    refine safe_attempt (staged_stable fun x => ∃ ys, x = some ⟨ys, []⟩)
      ⟨((Op.reset _).exec_exists d (by simp [Op.Touches])).trans hd.1, Op.reset_data d _⟩
      (fun d _ _ => build_may_tmp hplain (fun n hn => hn) (by simp)) ?_
      (fun _ _ d' _ _ _ => build_fail hQ (by simp) d')
    rintro d ⟨hex, ys, hy⟩ _
    have happ := Op.append_data [Cell.table (SSTable.tableOf entries blockSize bits)] hy
    refine safe_attempt (staged_stable fun x => ∃ ys,
        x = some ⟨ys, [Cell.table (SSTable.tableOf entries blockSize bits)]⟩)
      ⟨((Op.append _ _).exec_exists d (by simp [Op.Touches])).trans hex, ys, happ⟩
      (fun d _ _ => build_may_tmp trivial (fun n hn => hn) (by simp)) ?_
      (fun _ _ d' _ _ _ => build_fail_remove hQ (by simp) d')
    rintro d ⟨hex, ys, hy⟩ _
    refine safe_attempt (staged_stable fun x =>
        x = some ⟨[Cell.table (SSTable.tableOf entries blockSize bits)],
          [Cell.table (SSTable.tableOf entries blockSize bits)]⟩)
      ⟨((Op.sync _).exec_exists d (by simp [Op.Touches])).trans hex, Op.sync_data hy⟩
      (fun d hd _ => ⟨trivial, ⟨_, hd.2, hj, _, rfl, hok⟩, fun n hn => hn.symm,
        fun a _ => hd.1⟩) ?_
      (fun _ _ d' _ _ _ => build_fail_remove hQ (by simp) d')
    rintro d ⟨hex, hy⟩ _
    refine safe_attempt
      (A := fun d => (d.slot (.sst j)).data =
        some ⟨[Cell.table (SSTable.tableOf entries blockSize bits)],
          [Cell.table (SSTable.tableOf entries blockSize bits)]⟩)
      (fun d d' hd hk' => (build_keeps_data hk').1.trans hd) (Op.rename_data hy)
      (fun d _ _ => ⟨trivial, trivial, fun n hn => hn.elim, fun a he => by cases he⟩) ?_
      (fun _ _ d' _ _ _ => build_fail hQ (by simp) d')
    intro d hd _
    refine Safe.ret_intro (durable_stable (SSTable.tableOf entries blockSize bits)) ?_
      (fun d hd _ => ⟨trivial, fun _ => hd⟩)
    exact Op.syncDir_is (b := fun _ => True) ⟨hd, fun _ _ => trivial⟩

end Build

variable {R : Rely FileName Cell} {Q : Status → Dir → Prop}

theorem openTable_safe {path : FileName} (t : TableFile) {dir : Dir} {A : Dir → Prop}
    (hA : Stable R A) (h : A dir) (hc : ∀ d, A d → R.ambient d → R.crash d ∧ R.may (.probe path) d)
    (hread : ∀ d, A d → d.read path = some [.table t]) :
    Safe R (fun res d => A d ∧ ((¬ R.fault (.probe path)) → res = .ok t) ∧
      ∀ t', res = .ok t' → t' = t) (openTable path) dir := by
  refine safe_attempt hA h hc ?_ ?_
  · intro d hd _
    refine Safe.look_intro hA hd ?_
    intro d' hd' ha'
    refine ⟨(hc d' hd' ha').1, ?_⟩
    rw [hread d' hd']
    refine Safe.ret_intro hA hd' ?_
    intro d'' hd'' ha''
    exact ⟨(hc d'' hd'' ha'').1, hd'', fun _ => rfl, fun t' he => (Except.ok.inj he).symm⟩
  · intro hfault d d' hd _ hfs
    have hsame : d' = d := by
      rcases hfs with rfl | rfl | ⟨n, xs, ys, he, _⟩
      · rfl
      · rfl
      · cases he
    subst hsame
    refine Safe.ret_intro hA hd ?_
    intro d'' hd'' ha''
    exact ⟨(hc d'' hd'' ha'').1, hd'', fun hno => absurd hfault hno, fun t' he => by cases he⟩

section BuildPrograms

variable {j : Nat} {dir : Dir}

theorem openTable_build (t : TableFile) (h : (dir.slot (.sst j)).Durable [.table t]) :
    Safe (buildRely j) (fun res d => (d.slot (.sst j)).Durable [.table t] ∧
      ∀ t', res = .ok t' → t' = t) (openTable (.sst j)) dir := by
  refine (openTable_safe t (durable_stable t) h ?_ ?_).mono ?_
  · exact fun d _ _ => ⟨trivial, trivial, fun n hn => hn.elim, fun a he => by cases he⟩
  · intro d hd
    rw [FS.read_of_is hd]
    rfl
  · exact fun res d _ _ hr => ⟨hr.1, hr.2.2⟩

variable {o : Options}

/-- What a flush build returns is the table of the memtable, and is durable. -/
theorem flushImmutableMemTable_safe {entries : List VersionedEntry} (hj : 1 ≤ j ∧ j < maxUInt64)
    (hk : ∀ e ∈ entries, KeyOk e.key) (hnew : dir.exists (.sst j) = false) :
    Safe (buildRely j) (fun res d => ∀ t, res = .ok t →
        (d.slot (.sst j)).Durable [.table t] ∧
          t = SSTable.tableOf entries o.blockSize o.bloomBitsPerKey)
      (DB.flushImmutableMemTable o j entries) dir := by
  apply (createFromEntries_safe o.blockSize o.bloomBitsPerKey hj hk hnew).bind
  intro st d _ hst
  split
  · exact safe_ret_free fun d' _ => ⟨trivial, fun t he => by cases he⟩
  · rename_i hok
    rw [not_not] at hok
    refine (openTable_build _ (hst hok)).mono ?_
    intro res d' _ _ hr t he
    rw [hr.2 t he]
    exact ⟨hr.1, rfl⟩

theorem readInputs_safe (ts : List OpenTable) (hnew : dir.exists (.sst j) = false) :
    Safe (buildRely j) (fun _ d => d.exists (.sst j) = false) (DB.readInputs ts) dir := by
  induction ts generalizing dir with
  | nil =>
    exact Safe.ret_intro (staged_stable fun _ => True) ⟨hnew, trivial⟩
      fun d hd _ => ⟨trivial, hd.1⟩
  | cons t ts ih =>
    refine safe_attempt (staged_stable fun _ => True) ⟨hnew, trivial⟩
      (fun d _ _ => ⟨trivial, trivial, fun n hn => hn.elim, fun a he => by cases he⟩) ?_ ?_
    · exact fun d hd _ => ih hd.1
    · intro _ d d' hd _ hfs
      have hsame : d' = d := by
        rcases hfs with rfl | rfl | ⟨n, xs, ys, he, _⟩
        · rfl
        · rfl
        · cases he
      subst hsame
      exact Safe.ret_intro (staged_stable fun _ => True) hd fun d hd _ => ⟨trivial, hd.1⟩

theorem build_remove {ρ : Type} {Q : Except Status ρ → Dir → Prop} (hQ : ∀ e d, Q (.error e) d)
    (e : Status) (d : Dir) :
    Safe (buildRely j) Q (.op (.remove (.sst j)) fun _ => .ret (.error e)) d := by
  apply Safe.op_intro (A := fun _ => True) (fun _ _ _ _ => trivial) trivial
  · exact fun d' _ _ => ⟨trivial, trivial, fun n hn => Or.inl hn, fun a he => by cases he⟩
  · exact fun d' _ _ => safe_ret_free fun d'' _ => ⟨trivial, hQ e d''⟩
  · exact fun _ _ d'' _ _ _ => safe_ret_free fun d'' _ => ⟨trivial, hQ e d''⟩

/-- What a compaction build returns is the table of the merged inputs, and is
durable. -/
theorem buildCompaction_safe {job : DB.CompactionJob} (hj : 1 ≤ job.number ∧ job.number < maxUInt64)
    (hk : ∀ h ∈ job.tables, ∀ e ∈ h.table.entries, KeyOk e.key)
    (hread : ∀ h ∈ job.tables, TableFile.Reader.stored.FailsIf True h.table)
    (hnew : dir.exists (.sst job.number) = false) :
    Safe (buildRely job.number) (fun res d => ∀ output t, res = .ok (output, t) →
        (d.slot (.sst job.number)).Durable [.table t] ∧
          t = SSTable.tableOf output o.blockSize o.bloomBitsPerKey ∧
          Compaction.mergeTables TableFile.Reader.plain (job.tables.map (·.table))
            job.minSnapshot job.targetLevel = .ok output)
      (DB.buildCompaction o job) dir := by
  apply (readInputs_safe job.tables hnew).bind
  intro res d _ hfree
  cases res with
  | error e => exact safe_ret_free fun d' _ => ⟨trivial, fun _ _ he => by cases he⟩
  | ok u =>
    dsimp only
    have hinputs : ∀ t ∈ job.tables.map (·.table), TableFile.Reader.stored.FailsIf True t :=
      List.forall_mem_map.mpr hread
    have hmerge := Compaction.mergeTables_damaged hinputs job.minSnapshot job.targetLevel
    cases hm : Compaction.mergeTables TableFile.Reader.stored (job.tables.map (·.table))
        job.minSnapshot job.targetLevel with
    | error e => exact safe_ret_free fun d' _ => ⟨trivial, fun _ _ he => by cases he⟩
    | ok output =>
      rw [hm] at hmerge
      have hplain := (hmerge.resolve_right (by rintro ⟨_, e, he⟩; cases he)).symm
      have hkeys : ∀ e ∈ output, KeyOk e.key := by
        intro e he
        obtain ⟨t, ht, het⟩ := Compaction.mergeTables_subset hplain e he
        obtain ⟨h, hh, rfl⟩ := List.mem_map.mp ht
        exact hk h hh e het
      apply (createFromEntries_safe o.blockSize o.bloomBitsPerKey hj hkeys hfree).bind
      intro st d _ hst
      split
      · exact build_remove (fun e d _ _ he => by cases he) st d
      · rename_i hok
        rw [not_not] at hok
        apply (openTable_build _ (hst hok)).bind
        intro res d _ hr
        cases res with
        | error e => exact build_remove (fun e d _ _ he => by cases he) e d
        | ok t =>
          have ht := hr.2 t rfl
          refine Safe.ret_intro (durable_stable t) (ht ▸ hr.1) ?_
          rintro d' hd' _
          refine ⟨trivial, ?_⟩
          intro output' t' he
          simp only [Except.ok.injEq, Prod.mk.injEq] at he
          obtain ⟨rfl, rfl⟩ := he
          exact ⟨hd', ht, hplain⟩

end BuildPrograms

/-! ## Removing files -/

def removeRely (ns : List Nat) : Rely FileName Cell where
  fault := fun _ => True
  may := fun o _ => ∃ n ∈ ns, o = .remove (.sst n)
  keep := fun _ => False
  ambient := Ambient
  crash := fun _ => True

theorem removeInputs_safe (ts : List OpenTable) (ns : List Nat) (dir : Dir)
    (h : ∀ t ∈ ts, ∃ n ∈ ns, t.filePath = .sst n) :
    Safe (removeRely ns) (fun _ _ => True) (DB.removeInputs ts) dir := by
  induction ts generalizing dir with
  | nil => exact safe_ret_free fun d' _ => ⟨trivial, trivial⟩
  | cons t ts ih =>
    obtain ⟨n, hn, hp⟩ := h t List.mem_cons_self
    refine safe_attempt_free (fun d _ => ⟨trivial, n, hn, by rw [hp]⟩) ?_ ?_
    · exact fun d => ih d fun t' ht' => h t' (List.mem_cons_of_mem t ht')
    · exact fun d => safe_ret_free fun d' _ => ⟨trivial, trivial⟩

def sweepRely (oldest : Nat) : Rely FileName Cell where
  fault := fun _ => True
  may := fun o _ => o = .syncDir ∨ ∃ n, n < oldest ∧ o = .remove (.wal n)
  keep := fun _ => False
  ambient := Ambient
  crash := fun _ => True

theorem removeWals_safe (ns : List Nat) {k : Prog Status} (dir : Dir)
    (hc : ∀ d, R.ambient d → R.crash d)
    (hm : ∀ n ∈ ns, ∀ d, R.ambient d → R.may (.remove (.wal n)) d) (hk : ∀ d, Safe R Q k d)
    (hf : ∀ d, Safe R Q (.ret (.ioError "failed to remove file")) d) :
    Safe R Q (removeWals ns k) dir := by
  induction ns generalizing dir with
  | nil => exact hk dir
  | cons n ns ih =>
    refine safe_attempt_free (fun d ha => ⟨hc d ha, hm n List.mem_cons_self d ha⟩) ?_ hf
    exact fun d => ih d fun n' hn' => hm n' (List.mem_cons_of_mem n hn')

theorem removeObsoleteWALFiles_free (oldest : Nat) (dir : Dir) (hc : ∀ d, R.ambient d → R.crash d)
    (hm : ∀ n, n < oldest → ∀ d, R.ambient d → R.may (.remove (.wal n)) d)
    (hs : ∀ d, R.ambient d → R.may .syncDir d) (hq : ∀ st d, R.ambient d → Q st d) :
    Safe R Q (removeObsoleteWALFiles oldest) dir := by
  have hret : ∀ (st : Status) (d : Dir), Safe R Q (.ret st) d :=
    fun st d => safe_ret_free fun d' ha => ⟨hc d' ha, hq st d' ha⟩
  intro d _ ha
  refine ⟨hc d ha, ?_⟩
  apply removeWals_safe _ d hc
  · intro n hn d' ha'
    exact hm n (by simpa using (List.mem_filter.mp hn).2) d' ha'
  · intro d'
    split
    · exact hret _ d'
    · exact safe_attempt_free (fun d'' ha'' => ⟨hc d'' ha'', hs d'' ha''⟩) (hret _) (hret _)
  · exact hret _

theorem sweep_safe (oldest : Nat) (dir : Dir) :
    Safe (sweepRely oldest) (fun _ _ => True) (removeObsoleteWALFiles oldest) dir :=
  removeObsoleteWALFiles_free oldest dir (fun _ _ => trivial)
    (fun n hn _ _ => Or.inr ⟨n, hn, rfl⟩) (fun _ _ => Or.inl rfl) (fun _ _ _ => trivial)

/-! ## Sections -/

def mainName (k : Section) : FileName → Prop
  | .current | .currentTmp | .manifest | .wal _ => True
  | .sst n =>
    match k with
    | .publishCompaction job _ _ => n = job.number
    | _ => False
  | .sstTmp _ | .other _ => False

def EmptyWal (n : Nat) (dir : Dir) : Prop :=
  dir.read (.wal n) = none ∨ dir.read (.wal n) = some []

def mainRely (k : Section) (next : Nat) : Rely FileName Cell where
  fault := fun _ => True
  may := fun o dir => Allowed o dir ∧ (∀ n, o.Touches n → mainName k n) ∧
    (∀ n, o.Touches (.sst n) → o = .remove (.sst n)) ∧
    ∀ n, next ≤ n → o.Touches (.wal n) → o = .create (.wal n) ∧ EmptyWal n dir
  keep := fun n => n = .current ∨ n = .currentTmp ∨ n = .manifest ∨ ∃ i, next ≤ i ∧ n = .wal i
  ambient := Ambient
  crash := fun _ => True

section Main

variable {k : Section} {next : Nat} {ρ : Type} {dir : Dir}

def anyResult (ρ : Type) : ρ → Dir → Prop := fun _ _ => True

theorem main_ret (r : ρ) (d : Dir) : Safe (mainRely k next) (anyResult ρ) (.ret r) d :=
  safe_ret_free fun _ _ => ⟨trivial, trivial⟩

variable {d : Dir} {o : Op FileName Cell} {db : DB}

theorem main_may (ha : Allowed o d)
    (ht : ∀ n, o.Touches n → n = .current ∨ n = .currentTmp ∨ n = .manifest) :
    (mainRely k next).crash d ∧ (mainRely k next).may o d := by
  refine ⟨trivial, ha, ?_, ?_, ?_⟩
  · intro n hn
    rcases ht n hn with rfl | rfl | rfl <;> trivial
  · intro n hn
    rcases ht _ hn with h | h | h <;> cases h
  · intro _ _ hn
    rcases ht _ hn with h | h | h <;> cases h

theorem main_syncDir (d : Dir) :
    (mainRely k next).crash d ∧ (mainRely k next).may .syncDir d :=
  main_may trivial fun _ hn => hn.elim

theorem persistEditRecord_any (persisted edit : VersionEdit) :
    Safe (mainRely k next) (anyResult Status)
      (Manifest.persistEditRecord .manifest persisted edit) dir := by
  have hplain : FileName.Plain .manifest := ⟨trivial, by simp, by simp⟩
  simp only [Manifest.persistEditRecord]
  split
  · exact main_ret _ dir
  · refine safe_attempt_free
      (fun d _ => main_may hplain fun n hn => Or.inr (Or.inr hn)) ?_ (main_ret _)
    intro d
    refine safe_attempt_free
      (fun d _ => main_may hplain fun n hn => Or.inr (Or.inr hn)) ?_ (main_ret _)
    intro d
    exact safe_attempt_free
      (fun d _ => main_may trivial fun n hn => Or.inr (Or.inr hn)) (main_ret _) (main_ret _)

theorem tmp_stable (P : Option (Data Cell) → Prop) :
    Stable (mainRely k next) fun d => P (d.slot .currentTmp).data := by
  intro d d' hd hk
  have hdata := hk.data (n := .currentTmp) (Or.inr (Or.inl rfl))
  rw [hdata]
  exact hd

theorem main_remove_tmp (st : Status) (d : Dir) :
    Safe (mainRely k next) (anyResult Status) (.op (.remove .currentTmp) fun _ => .ret st) d := by
  apply Safe.op_intro (A := fun _ => True) (fun _ _ _ _ => trivial) trivial
  · exact fun d' _ _ => main_may trivial fun n hn => Or.inr (Or.inl hn)
  · exact fun d' _ _ => main_ret st _
  · exact fun _ _ d'' _ _ _ => main_ret st d''

theorem writeCurrentFile_any :
    Safe (mainRely k next) (anyResult Status) (Manifest.writeCurrentFile .manifest) dir := by
  have hplain : FileName.Plain .currentTmp := ⟨trivial, by simp, by simp⟩
  refine safe_attempt (tmp_stable fun _ => True) trivial
    (fun d _ _ => main_may hplain fun n hn => Or.inr (Or.inl hn)) ?_
    (fun _ _ d' _ _ _ => main_ret _ d')
  intro d _ _
  refine safe_attempt (tmp_stable fun x => ∃ ys, x = some ⟨ys, []⟩) (Op.reset_data d _)
    (fun d _ _ => main_may hplain fun n hn => Or.inr (Or.inl hn)) ?_
    (fun _ _ d' _ _ _ => main_ret _ d')
  rintro d ⟨ys, hy⟩ _
  have happ := Op.append_data (toCells (Manifest.currentBytes .manifest)) hy
  refine safe_attempt (tmp_stable fun x => ∃ ys,
      x = some ⟨ys, toCells (Manifest.currentBytes .manifest)⟩) ⟨ys, happ⟩
    (fun d _ _ => main_may trivial fun n hn => Or.inr (Or.inl hn)) ?_
    (fun _ _ d' _ _ _ => main_remove_tmp _ d')
  rintro d ⟨ys, hy⟩ _
  refine safe_attempt (tmp_stable fun x => x = some ⟨toCells (Manifest.currentBytes .manifest),
      toCells (Manifest.currentBytes .manifest)⟩) (Op.sync_data hy)
    (fun d hd _ => main_may ⟨_, hd, rfl⟩ fun n hn => hn.elim (fun h => Or.inr (Or.inl h)) Or.inl) ?_
    (fun _ _ d' _ _ _ => main_remove_tmp _ d')
  intro d _ _
  exact safe_attempt_free (fun d _ => main_syncDir d) (main_ret _) (main_ret _)

theorem save_any {m : ManifestState} (hm : m.path = .manifest) (edit : VersionEdit) :
    Safe (mainRely k next) (anyResult _) (Manifest.save m edit) dir := by
  intro d _ _
  refine ⟨trivial, ?_⟩
  dsimp only
  rw [hm]
  apply (persistEditRecord_any m.persisted edit).bind
  intro st d _ _
  split
  · exact main_ret _ d
  · refine safe_attempt_free (fun d _ => main_syncDir d) ?_ (main_ret _)
    intro d
    split
    · apply (main_ret (k := k) Status.ok d).bind
      intro st d _ _
      split
      · exact main_ret _ d
      · exact main_ret _ d
    · apply (writeCurrentFile_any (k := k)).bind
      intro st d _ _
      split
      · exact main_ret _ d
      · exact main_ret _ d

theorem saveManifest_any (hm : db.manifest.path = .manifest) :
    Safe (mainRely k next) (anyResult _) db.saveManifest dir := by
  apply (save_any hm db.edit).bind
  rintro ⟨m, st⟩ d _ _
  exact main_ret _ d

theorem main_may_wal {n : Nat} (ha : Allowed o d) (ht : ∀ m, o.Touches m → m = .wal n)
    (hn : n < next) : (mainRely k next).crash d ∧ (mainRely k next).may o d := by
  refine ⟨trivial, ha, ?_, ?_, ?_⟩
  · intro m hm
    rw [ht m hm]
    trivial
  · intro m hm
    cases ht _ hm
  · intro m hle hm
    have he := ht _ hm
    simp only [FileName.wal.injEq] at he
    omega

theorem write_any (batch : WriteBatch) (hw : ∀ n, db.wal = some n → 1 ≤ n ∧ n < next)
    (hsome : db.wal.isSome = true) (hnext : next ≤ maxUInt64) :
    Safe (mainRely k next) (anyResult _) (db.write batch) dir := by
  obtain ⟨n, hn⟩ := Option.isSome_iff_exists.mp hsome
  obtain ⟨hpos, hlt⟩ := hw n hn
  have hplain : FileName.Plain (.wal n) := ⟨⟨hpos, by omega⟩, by simp, by simp⟩
  have happend : Safe (mainRely k next) (anyResult Status)
      (appendBatch (db.wal.getD 0) batch (db.lastSequence + 1)) dir := by
    rw [hn, Option.getD_some, appendBatch]
    split
    · exact main_ret _ dir
    · split
      · refine safe_attempt_free (fun d _ => main_may_wal hplain (fun m hm => hm) hlt) ?_
          (main_ret _)
        intro d
        exact safe_attempt_free (fun d _ => main_may_wal trivial (fun m hm => hm) hlt) (main_ret _)
          (main_ret _)
      · exact main_ret _ dir
  apply happend.bind
  intro st d _ _
  split
  · exact main_ret _ d
  · exact main_ret _ d

section

variable (hm : db.manifest.path = .manifest)

include hm

/-- The new log of a switch is empty when it is opened. -/
theorem flushMemTable_any (hpos : 1 ≤ db.nextFileNumber)
    (hle : db.nextFileNumber ≤ maxUInt64) (hempty : EmptyWal db.nextFileNumber dir) :
    Safe (mainRely k db.nextFileNumber) (anyResult _) db.flushMemTable dir := by
  rw [DB.flushMemTable]
  split
  · exact main_ret _ dir
  · simp only [DB.allocateFileNumber]
    by_cases hmax : db.nextFileNumber = maxUInt64
    · rw [if_pos hmax]
      exact main_ret _ dir
    · rw [if_neg hmax]
      have hplain : FileName.Plain (.wal db.nextFileNumber) := ⟨⟨hpos, by omega⟩, by simp, by simp⟩
      have hopen : Safe (mainRely k db.nextFileNumber) (anyResult Status)
          (openWal db.nextFileNumber) dir := by
        refine safe_attempt (A := EmptyWal db.nextFileNumber) ?_ hempty ?_ ?_
          (fun _ _ d' _ _ _ => main_ret _ d')
        · intro d d' hd hk
          have hr := hk.read (Or.inr (Or.inr (Or.inr ⟨db.nextFileNumber, Nat.le_refl _, rfl⟩)))
          simp only [EmptyWal, hr]
          exact hd
        · intro d hd _
          refine ⟨trivial, hplain, ?_, ?_, ?_⟩
          · intro n hn
            rw [show n = .wal db.nextFileNumber from hn]
            trivial
          · intro n hn
            cases (show FileName.sst n = .wal db.nextFileNumber from hn)
          · intro n _ hn
            have he : FileName.wal n = .wal db.nextFileNumber := hn
            cases he
            exact ⟨rfl, hd⟩
        · intro d _ _
          exact safe_attempt_free (fun d _ => main_syncDir d) (main_ret _) (main_ret _)
      apply hopen.bind
      intro st d _ _
      split
      · exact main_ret _ d
      · refine (saveManifest_any (k := k) ?_).bind ?_
        · exact hm
        · rintro ⟨db', st'⟩ d _ _
          dsimp only
          split
          · exact main_ret _ d
          · exact main_ret _ d

theorem publishFlush_any (imm : ImmutableMemTable)
    (number : Nat) (result : Except Status TableFile) :
    Safe (mainRely k next) (anyResult _) (db.publishFlush imm number result) dir := by
  cases result with
  | error e => exact main_ret _ dir
  | ok t =>
    simp only [DB.publishFlush]
    split
    · exact main_ret _ dir
    · refine (saveManifest_any (k := k) ?_).bind ?_
      · exact hm
      · rintro ⟨db', st'⟩ d _ _
        dsimp only
        split
        · exact main_ret _ d
        · exact main_ret _ d

theorem publishCompaction_any (job : DB.CompactionJob)
    (output : List VersionedEntry) (t : TableFile) :
    Safe (mainRely (.publishCompaction job output t) next) (anyResult _)
      (db.publishCompaction job output t) dir := by
  have hremove : ∀ (r : DB × Status), Safe (mainRely (.publishCompaction job output t) next)
      (anyResult _) (.op (.remove (.sst job.number)) fun _ => .ret r) dir := by
    intro r
    apply Safe.op_intro (A := fun _ => True) (fun _ _ _ _ => trivial) trivial
    · intro d _ _
      refine ⟨trivial, trivial, ?_, ?_, ?_⟩
      · intro n hn
        rw [show n = .sst job.number from hn]
        exact rfl
      · intro n hn
        rw [show FileName.sst n = .sst job.number from hn]
      · intro n _ hn
        cases (show FileName.wal n = .sst job.number from hn)
    · exact fun d _ _ => main_ret r _
    · exact fun _ _ d'' _ _ _ => main_ret r d''
  rw [DB.publishCompaction]
  split
  · exact hremove _
  · split
    · exact hremove _
    · refine (saveManifest_any ?_).bind ?_
      · exact hm
      · rintro ⟨db', st'⟩ d _ _
        dsimp only
        split
        · exact main_ret _ d
        · exact main_ret _ d

theorem endClose_any (moved : Bool) :
    Safe (mainRely k db.nextFileNumber) (anyResult _) (db.endClose moved) dir := by
  rw [DB.endClose]
  split
  · simp only [DB.allocateFileNumber]
    by_cases hmax : db.nextFileNumber = maxUInt64
    · rw [if_pos hmax]
      exact main_ret _ dir
    · rw [if_neg hmax]
      refine (saveManifest_any (k := k) ?_).bind ?_
      · exact hm
      · rintro ⟨db', st'⟩ d _ _
        dsimp only
        split
        · exact main_ret _ d
        · refine Safe.bind (Q := anyResult Status) ?_ fun st d _ _ => main_ret _ d
          refine removeObsoleteWALFiles_free _ d (fun _ _ => trivial) ?_
            (fun d' _ => (main_syncDir d').2) (fun _ _ _ => trivial)
          intro n hn d' _
          exact (main_may_wal (o := .remove (.wal n)) trivial (fun m hm' => hm') hn).2
  · exact main_ret _ dir

end

end Main

end KvMem
