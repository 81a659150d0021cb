import KvMem.Engine.Database

/-! # Rejected writes

`Write` as one call, from its first check to the memtable switch. It can fail before
the log is touched, while the record is appended, and after the memtable has the batch.
Only the first kind of failure is an invalid argument, so a caller who is told so may
correct the batch and try again.
-/

namespace KvMem

open CrashStore FileProg

namespace DB

def fullWrite (db : DB) (batch : WriteBatch) : Prog (DB × Status) :=
  if db.backgroundStatus ≠ .ok then .ret (db, db.backgroundStatus)
  else if db.closed ∨ db.wal = none then .ret (db, .ioError "database is not open")
  else if batch.count = 0 then .ret (db, .ok)
  else if db.checkWrite batch ≠ .ok then .ret (db, db.checkWrite batch)
  else
    db.write batch >>= fun (db, status) =>
    if status ≠ .ok then .ret (db, status)
    else if db.needsSwitch then db.flushMemTable
    else .ret (db, .ok)

end DB

/-! ## Failures after the checks -/

def NoRejection {ρ : Type} (status : ρ → Status) (p : Prog ρ) : Prop :=
  p.Ends fun r => (status r).isInvalidArgument = false

theorem persistEditRecord_noRejection (path : FileName) (persisted edit : VersionEdit) :
    NoRejection id (Manifest.persistEditRecord path persisted edit) := by
  unfold Manifest.persistEditRecord NoRejection
  dsimp only
  split
  · exact rfl
  · rintro (_ | _)
    · exact rfl
    · rintro (_ | _)
      · exact rfl
      · rintro (_ | _)
        · exact rfl
        · exact rfl

theorem writeCurrentFile_noRejection (path : FileName) :
    NoRejection id (Manifest.writeCurrentFile path) := by
  rintro (_ | _)
  · exact rfl
  · rintro (_ | _)
    · exact rfl
    · rintro (_ | _)
      · exact fun _ => rfl
      · rintro (_ | _)
        · exact fun _ => rfl
        · rintro (_ | _)
          · exact rfl
          · exact rfl

theorem save_noRejection (m : ManifestState) (e : VersionEdit) :
    NoRejection Prod.snd (Manifest.save m e) := by
  intro dir
  apply Ends.bind (persistEditRecord_noRejection _ _ _)
  intro status hs
  split
  · exact hs
  · rintro (_ | _)
    · exact rfl
    · have hcurrent : NoRejection id
          (if dir.exists .current then .ret .ok else Manifest.writeCurrentFile m.path) := by
        split
        · exact rfl
        · exact writeCurrentFile_noRejection m.path
      apply Ends.bind hcurrent
      intro status' hs'
      split
      · exact hs'
      · exact rfl

theorem saveManifest_noRejection (db : DB) : NoRejection Prod.snd db.saveManifest := by
  apply Ends.bind (save_noRejection _ _)
  intro r hr
  exact hr

theorem flushMemTable_noRejection (db : DB) : NoRejection Prod.snd db.flushMemTable := by
  unfold DB.flushMemTable
  split
  · exact rfl
  · unfold DB.allocateFileNumber
    split
    · rename_i h
      split at h
      · cases h
        exact rfl
      · cases h
    · have hopen : ∀ n, NoRejection id (openWal n) := by
        rintro n (_ | _)
        · exact rfl
        · rintro (_ | _)
          · exact rfl
          · exact rfl
      apply Ends.bind (hopen _)
      intro status hs
      split
      · exact hs
      · apply Ends.bind (saveManifest_noRejection _)
        rintro ⟨saved, status'⟩ hr
        dsimp only
        split
        · exact hr
        · exact rfl

variable {batch : WriteBatch} {db : DB}

/-- Behind its checks `Write` rejects a batch only before it has touched the log. -/
theorem write_cases (db : DB) (hne : batch.count ≠ 0) :
    (∃ st, st ≠ .ok ∧ db.write batch =
        .ret (if st.isInvalidArgument then db else db.setBackgroundError st, st)) ∨
      NoRejection Prod.snd (db.write batch) := by
  unfold DB.write appendBatch
  rw [if_neg hne]
  split
  · right
    rintro (_ | _)
    · exact rfl
    · rintro (_ | _)
      · exact rfl
      · exact rfl
  · rename_i st hst
    left
    refine ⟨Wal.checkAppend batch (db.lastSequence + 1), hst, ?_⟩
    rw [ret_bind, if_pos hst]

theorem fullWrite_rejected {db' : DB} {st : Status} {steps : List (Op FileName Cell)}
    (h : Trace (db.fullWrite batch) steps (db', st)) (hst : st.isInvalidArgument = true) :
    steps = [] ∧ db' = db := by
  unfold DB.fullWrite at h
  split at h
  · cases h
    exact ⟨rfl, rfl⟩
  split at h
  · cases h
    exact ⟨rfl, rfl⟩
  split at h
  · cases h
    exact ⟨rfl, rfl⟩
  split at h
  · cases h
    exact ⟨rfl, rfl⟩
  rename_i hne _
  rcases write_cases db hne with ⟨st', hne', heq⟩ | hnever
  · rw [heq, ret_bind] at h
    dsimp only at h
    rw [if_pos hne'] at h
    cases h
    rw [if_pos hst]
    exact ⟨rfl, rfl⟩
  · -- a failed append or a failed switch is no rejection
    exfalso
    have hend : NoRejection Prod.snd (db.write batch >>= fun (db, status) =>
        if status ≠ .ok then .ret (db, status)
        else if db.needsSwitch then db.flushMemTable else .ret (db, .ok)) := by
      apply Ends.bind hnever
      rintro ⟨db₁, st₁⟩ h₁
      dsimp only
      split
      · exact h₁
      · split
        · exact flushMemTable_noRejection db₁
        · exact rfl
    have := hend.trace h
    rw [hst] at this
    cases this

/-! ## What is rejected -/

/-- An operation whose key `Write` does not take: empty, or with a tab, a newline or a
NUL in it. -/
def BadKey (o : WriteBatchOperation) : Prop :=
  o.key = [] ∨ 9 ∈ o.key ∨ 10 ∈ o.key ∨ 0 ∈ o.key

theorem validateKey_of_bad {o : WriteBatchOperation} (h : BadKey o) : validateKey o.key ≠ .ok := by
  unfold validateKey
  by_cases hnil : o.key = []
  · rw [if_pos hnil]
    simp
  · rw [if_neg hnil, if_pos (h.resolve_left hnil)]
    simp

theorem validateKey_cases (key : Bytes) :
    validateKey key = .ok ∨ ∃ message, validateKey key = .invalidArgument message := by
  unfold validateKey
  split
  · exact Or.inr ⟨_, rfl⟩
  · split
    · exact Or.inr ⟨_, rfl⟩
    · exact Or.inl rfl

theorem validateEncoding_cases (batch : WriteBatch) :
    batch.validateEncoding = .ok ∨
      ∃ message, batch.validateEncoding = .invalidArgument message := by
  unfold WriteBatch.validateEncoding
  split
  · exact Or.inr ⟨_, rfl⟩
  · generalize 0 = size
    induction batch generalizing size with
    | nil => exact Or.inl rfl
    | cons o ops ih =>
      rename_i hcount
      have hcount' : ¬ WriteBatch.count ops > maxUInt32 := by
        simp only [WriteBatch.count, List.length_cons] at hcount ⊢
        omega
      rw [WriteBatch.validateSizes]
      split
      · exact Or.inr ⟨_, rfl⟩
      · dsimp only
        split
        · exact Or.inr ⟨_, rfl⟩
        · exact ih hcount' _

theorem checkWrite_cases (hb : db.backgroundStatus = .ok) (hc : db.closed = false)
    (hw : db.wal ≠ none) (batch : WriteBatch) :
    db.checkWrite batch = .ok ∨ ∃ message, db.checkWrite batch = .invalidArgument message := by
  unfold DB.checkWrite
  rw [if_neg (by simp [hb]), if_neg (by simp [hc, hw])]
  split
  · exact Or.inr ⟨_, rfl⟩
  split
  · rename_i hne
    exact (validateEncoding_cases batch).imp_left fun h => absurd h hne
  split
  · exact Or.inr ⟨_, rfl⟩
  split
  · exact validateKey_cases _
  · exact Or.inl rfl

theorem checkWrite_ok (h : db.checkWrite batch = .ok) :
    (∀ o ∈ batch, validateKey o.key = .ok) ∧ batch.encode.length ≤ maxUInt32 ∧
      batch.count ≤ maxUInt64 - db.lastSequence := by
  unfold DB.checkWrite at h
  split at h
  · rename_i hb
    exact absurd h hb
  split at h
  · cases h
  split at h
  · cases h
  split at h
  · rename_i hne
    exact absurd h hne
  rename_i hvalid
  split at h
  · cases h
  rename_i hcount
  split at h
  · rename_i o ho
    have hbad := List.find?_some ho
    simp only [ne_eq, decide_eq_true_eq] at hbad
    exact absurd h hbad
  · rename_i hnone
    refine ⟨fun o ho => ?_, (WriteBatch.validateEncoding_iff batch).mp (not_not.mp hvalid),
      Nat.le_of_not_lt hcount⟩
    by_contra hne
    have := List.find?_eq_none.mp hnone o ho
    simp only [ne_eq, decide_eq_true_eq] at this
    exact this hne

/-- What `Write` must reject: a bad key at any position, an encoding that does not fit a
log record, or more operations than sequence numbers are left. -/
def Unwritable (db : DB) (batch : WriteBatch) : Prop :=
  (∃ o ∈ batch, BadKey o) ∨
    maxUInt32 < (batch.map fun o => 9 + o.key.length + o.value.length).sum ∨
    (db.lastSequence ≤ maxUInt64 ∧ maxUInt64 < db.lastSequence + batch.count)

theorem count_ne_zero_of_unwritable (h : Unwritable db batch) : batch.count ≠ 0 := by
  intro h0
  have hnil : batch = [] := List.eq_nil_of_length_eq_zero h0
  subst hnil
  rcases h with ⟨o, ho, _⟩ | hsize | ⟨hlast, hseq⟩
  · cases ho
  · simp at hsize
  · simp only [WriteBatch.count, List.length_nil] at hseq
    omega

/-- Rejected writes change nothing: a `Write` that returns an invalid argument has made
no file step, so the logs and the manifest are byte for byte as before, and it returns the
database, memtables, queue, last sequence and latched error included, as it was. On an
open and healthy database every batch that must be rejected is. -/
theorem fullWrite_invalidArgument (db : DB) (batch : WriteBatch) :
    (∀ steps db' st, Trace (db.fullWrite batch) steps (db', st) → st.isInvalidArgument = true →
      steps = [] ∧ db' = db) ∧
    (db.backgroundStatus = .ok → db.closed = false → db.wal ≠ none → Unwritable db batch →
      ∃ message, db.fullWrite batch = .ret (db, .invalidArgument message)) := by
  refine ⟨fun steps db' st h hst => fullWrite_rejected h hst, ?_⟩
  intro hb hc hw hbad
  rcases checkWrite_cases hb hc hw batch with hok | ⟨message, hmessage⟩
  · obtain ⟨hkeys, hsize, hcount⟩ := checkWrite_ok hok
    rw [WriteBatch.encode_length] at hsize
    exfalso
    rcases hbad with ⟨o, ho, hkey⟩ | hlong | ⟨hlast, hseq⟩
    · exact validateKey_of_bad hkey (hkeys o ho)
    · omega
    · omega
  · refine ⟨message, ?_⟩
    rw [DB.fullWrite, if_neg (by simp [hb]), if_neg (by simp [hc, hw]),
      if_neg (count_ne_zero_of_unwritable hbad), hmessage, if_pos (by simp)]

end KvMem
