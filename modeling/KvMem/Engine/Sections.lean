import KvMem.Engine.System

/-! # How a section can end

For every section the state it returns, whatever its file steps answer: the new
state when it succeeds, and the old one but for the latched error (and the table
object already made) when it fails.
-/

namespace KvMem

open CrashStore

variable {db : DB}

namespace DB

/-- Only the latched error may change. -/
def Latched (db db' : DB) : Prop := ∃ st, db' = { db with backgroundStatus := st } ∧
  (db.backgroundStatus ≠ .ok → st = db.backgroundStatus)

theorem Latched.refl (db : DB) : Latched db db := ⟨db.backgroundStatus, rfl, fun _ => rfl⟩

theorem latched_setBackgroundError (db : DB) (st : Status) :
    Latched db (db.setBackgroundError st) := by
  unfold setBackgroundError
  split
  · rename_i h
    exact ⟨st, rfl, fun hne => absurd h hne⟩
  · exact Latched.refl db

theorem latched_or {db' : DB} {st : Status} (h : db' = db ∨ db' = db.setBackgroundError st) :
    Latched db db' := by
  rcases h with rfl | rfl
  · exact Latched.refl db'
  · exact latched_setBackgroundError db st

@[simp] theorem setBackgroundError_twice (db : DB) (st : Status) :
    (db.setBackgroundError st).setBackgroundError st = db.setBackgroundError st := by
  unfold setBackgroundError
  split
  · split <;> rfl
  · rfl

def saved (db : DB) : DB := { db with manifest := { db.manifest with persisted := db.edit } }

end DB

open DB FileProg

theorem save_ends (m : ManifestState) (e : VersionEdit) :
    (Manifest.save m e).Ends fun r =>
      (r.2 = .ok ∧ r.1 = { m with edit := e, persisted := e }) ∨ (r.2 ≠ .ok ∧ r.1 = m) := by
  intro dir
  apply Ends.bind (ends_true _)
  intro status _
  split
  · rename_i h
    exact Or.inr ⟨h, rfl⟩
  · intro b
    cases b with
    | false => exact Or.inr ⟨by simp, rfl⟩
    | true =>
      apply Ends.bind (ends_true _)
      intro status' _
      split
      · rename_i h
        exact Or.inr ⟨h, rfl⟩
      · exact Or.inl ⟨rfl, rfl⟩

theorem saveManifest_ends (db : DB) :
    db.saveManifest.Ends fun r =>
      (r.2 = .ok ∧ r.1 = db.saved) ∨ (r.2 ≠ .ok ∧ r.1 = db.setBackgroundError r.2) := by
  apply Ends.bind (save_ends db.manifest db.edit)
  rintro ⟨m, status⟩ (⟨hok, hm⟩ | ⟨hne, hm⟩)
  · simp only at hok hm
    subst hok hm
    exact Or.inl ⟨rfl, rfl⟩
  · simp only at hne hm
    subst hm
    refine Or.inr ⟨hne, ?_⟩
    simp [hne]

/-! ## Appending -/

theorem write_ends (db : DB) (batch : WriteBatch) :
    (db.write batch).Ends fun r =>
      (r.2 = .ok ∧ r.1 = (db.setMemtable db.active
        (applyBatch batch (db.lastSequence + 1) db.activeMemtable)).setLastSequence
          (db.lastSequence + batch.count)) ∨
      (r.2 ≠ .ok ∧ r.1 = if r.2.isInvalidArgument then db else db.setBackgroundError r.2) := by
  apply Ends.bind (ends_true _)
  intro status _
  split
  · rename_i h
    exact Or.inr ⟨h, rfl⟩
  · exact Or.inl ⟨rfl, rfl⟩

/-! ## Switching -/

namespace DB

def switched (db : DB) : DB :=
  { (db.setNextFileNumber (db.nextFileNumber + 1)).saved with
    immutables := db.immutables ++ [⟨db.active, db.activeMemtableOldestWalFileNumber⟩]
    mems := db.mems ++ [[]]
    active := db.mems.length
    activeWalFileNumber := db.nextFileNumber
    activeMemtableOldestWalFileNumber := db.nextFileNumber
    wal := some db.nextFileNumber }

theorem setCurrentEdit_sorted (db : DB) {e : VersionEdit}
    (hsort : Manifest.Sorted e.sstables) :
    db.setCurrentEdit e = { db with manifest := { db.manifest with edit := e } } := by
  rw [setCurrentEdit, show Manifest.sortByNumber e.sstables = _ from hsort]

end DB

theorem flushMemTable_ends (hsort : Manifest.Sorted db.edit.sstables) :
    db.flushMemTable.Ends fun r =>
      (r.2 = .ok ∧ db.activeMemtable.size = 0 ∧ r.1 = db) ∨
      (r.2 = .ok ∧ db.activeMemtable.size ≠ 0 ∧ db.nextFileNumber ≠ maxUInt64 ∧
        r.1 = db.switched) ∨
      (r.2 ≠ .ok ∧ (r.1 = db ∨ r.1 = db.setBackgroundError r.2)) := by
  rw [flushMemTable]
  split
  · rename_i h
    exact Or.inl ⟨rfl, h, rfl⟩
  · rename_i hsize
    simp only [allocateFileNumber]
    by_cases hmax : db.nextFileNumber = maxUInt64
    · rw [if_pos hmax]
      exact Or.inr (Or.inr ⟨by simp, Or.inl rfl⟩)
    · rw [if_neg hmax]
      apply Ends.bind (ends_true _)
      intro status _
      split
      · rename_i h
        refine Or.inr (Or.inr ⟨h, Or.inl ?_⟩)
        dsimp only
        rw [setCurrentEdit_sorted _ hsort]
        rfl
      · apply Ends.bind (saveManifest_ends _)
        rintro ⟨db', status'⟩ (⟨hok, hd⟩ | ⟨hne, hd⟩)
        · simp only at hok hd
          subst hok hd
          exact Or.inr (Or.inl ⟨rfl, hsize, hmax, rfl⟩)
        · simp only at hne hd
          subst hd
          rw [if_pos hne]
          refine Or.inr (Or.inr ⟨hne, Or.inr ?_⟩)
          dsimp only
          unfold setBackgroundError
          split
          · rename_i hb
            have hb : db.backgroundStatus = .ok := hb
            rw [setCurrentEdit_sorted _ hsort, if_pos hb]
            rfl
          · rename_i hb
            have hb : db.backgroundStatus ≠ .ok := hb
            rw [setCurrentEdit_sorted _ hsort, if_neg hb]
            rfl

/-! ## Publishing a flush -/

namespace DB

def flushedEdit (db : DB) (imm : ImmutableMemTable) (number : Nat) (t : TableFile) :
    VersionEdit :=
  { db.edit with
    sstables := Manifest.sortByNumber
      (db.edit.sstables ++ [flushMeta number (db.memtable imm.memtable) t])
    walFileNumber := db.nextLiveWal }

def flushed (db : DB) (imm : ImmutableMemTable) (number : Nat) (t : TableFile) : DB :=
  { db.withOpened number t with
    sstables := db.sstables ++ [db.handle number t]
    manifest := { db.manifest with
      edit := db.flushedEdit imm number t, persisted := db.flushedEdit imm number t }
    immutables := db.immutables.tail }

/-- A failed save leaves nothing of what was staged but the latched error. -/
theorem rollback_eq (staged base : DB) (st : Status)
    (hsort : Manifest.Sorted base.edit.sstables)
    (h : { staged with sstables := base.sstables, manifest := base.manifest } = base)
    (hp : staged.manifest.path = base.manifest.path)
    (hq : staged.manifest.persisted = base.manifest.persisted) :
    (staged.setBackgroundError st).rollback base = base.setBackgroundError st := by
  have hm : ({ staged.manifest with edit := base.edit } : ManifestState) = base.manifest := by
    cases hs : staged.manifest
    rw [hs] at hp hq
    simp only at hp hq
    rw [hp, hq]
    rfl
  have hb : staged.backgroundStatus = base.backgroundStatus := by rw [← h]
  rw [rollback, setCurrentEdit_sorted _ hsort]
  unfold setBackgroundError
  by_cases hok : staged.backgroundStatus = .ok
  · rw [if_pos hok, if_pos (hb ▸ hok)]
    dsimp only
    rw [hm]
    conv_rhs => rw [← h]
  · rw [if_neg hok, if_neg (hb ▸ hok)]
    dsimp only
    rw [hm]
    exact h

end DB

theorem publishFlush_ends (hsort : Manifest.Sorted db.edit.sstables) (imm : ImmutableMemTable)
    (number : Nat) (result : Except Status TableFile) :
    (db.publishFlush imm number result).Ends fun r =>
      (∃ t, result = .ok t ∧ r.2 = .ok ∧
        db.immutables.head?.map (·.walFileNumber) = some imm.walFileNumber ∧
        r.1 = db.flushed imm number t) ∨
      (∃ t, result = .ok t ∧ r.2 ≠ .ok ∧ r.1 = (db.withOpened number t).setBackgroundError r.2) ∨
      (∃ e, result = .error e ∧ r.2 = e ∧ r.1 = db.setBackgroundError e) := by
  cases result with
  | error e => exact Or.inr (Or.inr ⟨e, rfl, rfl, rfl⟩)
  | ok t =>
    simp only [publishFlush]
    split
    · exact Or.inr (Or.inl ⟨t, rfl, by simp, rfl⟩)
    · rename_i hq
      rw [not_not] at hq
      apply Ends.bind (saveManifest_ends _)
      rintro ⟨db', status'⟩ (⟨hok, hd⟩ | ⟨hne, hd⟩)
      · simp only at hok hd
        subst hok hd
        exact Or.inl ⟨t, rfl, rfl, hq, rfl⟩
      · simp only at hne hd
        subst hd
        rw [if_pos hne]
        refine Or.inr (Or.inl ⟨t, rfl, hne, ?_⟩)
        have hback : ((db.stageFlush imm number t).setBackgroundError status').rollback db =
            (db.withOpened number t).setBackgroundError status' :=
          rollback_eq (db.stageFlush imm number t) (db.withOpened number t) status' hsort
            rfl rfl rfl
        dsimp only
        rw [hback, setBackgroundError_twice]

/-! ## Publishing a compaction -/

namespace DB

def compactedEdit (db : DB) (job : CompactionJob) (output : List VersionedEntry) (t : TableFile) :
    VersionEdit :=
  { db.edit with
    sstables := Manifest.sortByNumber
      ((db.edit.sstables.filter fun m => !Manifest.hasNumber job.inputs m.fileNumber) ++
        [compactionMeta job output t]) }

def compacted (db : DB) (job : CompactionJob) (output : List VersionedEntry) (t : TableFile) : DB :=
  { db.withOpened job.number t with
    sstables := (db.sstables.filter fun h => !isInput job.inputs h) ++ [db.handle job.number t]
    manifest := { db.manifest with
      edit := db.compactedEdit job output t, persisted := db.compactedEdit job output t } }

def StillLive (db : DB) (job : CompactionJob) : Prop :=
  ∀ m ∈ job.inputs, Manifest.hasNumber db.edit.sstables m.fileNumber = true

end DB

theorem publishCompaction_ends (hsort : Manifest.Sorted db.edit.sstables) (job : CompactionJob)
    (output : List VersionedEntry) (t : TableFile) :
    (db.publishCompaction job output t).Ends fun r =>
      (r.2 = .ok ∧ db.closed = false ∧ db.lifecycleGeneration = job.generation ∧
        db.StillLive job ∧ r.1 = db.compacted job output t) ∨
      (r.2 ≠ .ok ∧ (r.1 = db.withOpened job.number t ∨
        r.1 = (db.withOpened job.number t).setBackgroundError r.2)) := by
  rw [publishCompaction]
  split
  · exact fun b => Or.inr ⟨by simp, Or.inl rfl⟩
  · rename_i hgen
    split
    · exact fun b => Or.inr ⟨by simp, Or.inl rfl⟩
    · rename_i hlive
      apply Ends.bind (saveManifest_ends _)
      rintro ⟨db', status'⟩ (⟨hok, hd⟩ | ⟨hne, hd⟩)
      · simp only at hok hd
        subst hok hd
        simp only [not_or, Bool.not_eq_true, not_not] at hgen
        refine Or.inl ⟨rfl, hgen.1, hgen.2, ?_, rfl⟩
        intro m hm
        by_contra hno
        apply hlive
        rw [List.any_eq_true]
        exact ⟨m, hm, by simpa using hno⟩
      · simp only at hne hd
        subst hd
        have hback : ((db.stageCompaction job output t).setBackgroundError status').rollback db =
            (db.withOpened job.number t).setBackgroundError status' :=
          rollback_eq (db.stageCompaction job output t) (db.withOpened job.number t) status'
            hsort rfl rfl rfl
        simp only [if_pos hne]
        exact Or.inr ⟨hne, Or.inr hback⟩

/-! ## Closing -/

theorem DB.finishClose_eq (db : DB) (st : Status) : ∃ b, db.finishClose st = { db with
    backgroundStatus := b, closed := true, wal := none
    snapshots := db.snapshots.map fun s => { s with active := false } } := by
  unfold finishClose setBackgroundError
  split
  · split
    · exact ⟨st, rfl⟩
    · exact ⟨db.backgroundStatus, rfl⟩
  · exact ⟨db.backgroundStatus, rfl⟩

theorem DB.drained_of_closeStatus (h : db.closeStatus = .ok) : db.immutables = [] := by
  by_contra hne
  unfold closeStatus at h
  split at h
  · cases h
  · rename_i hcond
    exact hcond ⟨h, hne⟩

/-- What a `Close` that has ended leaves of the database `db`. -/
structure DB.Closes (db : DB) (r : DB × Status) : Prop where
  closed : r.1.closed = true
  snapshots : ∀ s ∈ r.1.snapshots, s.active = false
  opened : r.1.opened = db.opened
  cache : r.1.cache = db.cache
  tables : r.1.edit.sstables = db.edit.sstables
  drained : r.2 = .ok → r.1.immutables = []

theorem endClose_ends (db : DB) (moved : Bool) : (db.endClose moved).Ends db.Closes := by
  have hfin : ∀ (db' : DB) (st : Status), db'.opened = db.opened → db'.cache = db.cache →
      db'.edit.sstables = db.edit.sstables → (st = .ok → db'.immutables = []) →
      db.Closes (db'.finishClose st, st) := by
    intro db' st ho hca ht hd
    obtain ⟨b, hb⟩ := db'.finishClose_eq st
    rw [hb]
    refine ⟨rfl, fun s hs => ?_, ho, hca, ht, hd⟩
    obtain ⟨s', _, rfl⟩ := List.mem_map.mp hs
    rfl
  simp only [endClose]
  split
  · rename_i hcond
    have hdrained := drained_of_closeStatus hcond.1
    simp only [allocateFileNumber]
    by_cases hmax : db.nextFileNumber = maxUInt64
    · rw [if_pos hmax]
      exact hfin db _ rfl rfl rfl fun _ => hdrained
    · rw [if_neg hmax]
      apply Ends.bind (saveManifest_ends _)
      rintro ⟨db', status'⟩ (⟨hok, hd⟩ | ⟨hne, hd⟩)
      · simp only at hok hd
        subst hok hd
        rw [if_neg (by simp)]
        apply Ends.bind (ends_true _)
        intro st _
        exact hfin _ st rfl rfl rfl fun _ => hdrained
      · simp only at hne hd
        subst hd
        rw [if_pos hne]
        obtain ⟨b, hb, _⟩ := latched_setBackgroundError
          ((db.setNextFileNumber (db.nextFileNumber + 1)).moveWal db.nextFileNumber) status'
        rw [hb]
        exact hfin _ status' rfl rfl rfl fun hok => absurd hok hne
  · exact hfin db _ rfl rfl rfl drained_of_closeStatus

end KvMem
