import KvMem.Engine.Guarantees

/-! # Publications in memory

A memtable switch, the publication of a flush and that of a compaction stage their change in
memory, save `MANIFEST` and take the change back when that fails. What a failed one leaves,
and that the open tables are those of the version, holds in every run: whatever fails, after
crashes, and after the loss of the closed files.
-/

namespace KvMem

open CrashStore FileProg

variable {F : Faults} {s s' : Sys}

/-- The open tables are those of the version. -/
def DB.Numbered (db : DB) : Prop :=
  (db.sstables.map (·.fileNumber)).Perm (db.edit.sstables.map (·.fileNumber))

/-- The version is sorted, and an open database has its tables open. -/
structure DB.Paired (db : DB) : Prop where
  sorted : Manifest.Sorted db.edit.sstables
  tables : db.closed = false → db.Numbered

/-! ## Opening -/

namespace Manifest

theorem scan_sorted {next : Bytes → RecordLog.Front Byte Bytes Status} {fuel : Nat}
    {xs tail : Bytes} {s s' : VersionEdit × Bool} (hs : Sorted s.1.sstables)
    (h : RecordLog.scan next replayRecord fuel xs s = .ok (s', tail)) : Sorted s'.1.sstables := by
  induction fuel generalizing xs s with
  | zero =>
    cases h
    exact hs
  | succ fuel ih =>
    rw [RecordLog.scan] at h
    split at h
    · cases h
      exact hs
    · cases h
      exact hs
    · cases h
    · split at h
      · cases h
      · rename_i s'' hstep
        refine ih ?_ h
        -- every record ends with a sort
        unfold replayRecord parseEditPayload at hstep
        split at hstep
        · cases hstep
        · rename_i hparse
          split at hparse
          · cases hparse
          · split at hparse
            · cases hparse
            · cases hparse
              cases hstep
              exact sorted_sortByNumber _

theorem replayLog_sorted {contents tail : Bytes} {e : VersionEdit}
    (h : replayLog contents = .ok (e, tail)) : Sorted e.sstables := by
  unfold replayLog at h
  split at h
  · cases h
  · rename_i hscan
    split at h
    · cases h
      exact scan_sorted (s := ({}, false)) rfl hscan
    · cases h

theorem loadEditLog_ends (path : FileName) :
    (loadEditLog path).Ends fun r => ∀ e, r = .ok e → Sorted e.sstables := by
  have hbad : ∀ st : Status, ∀ e : VersionEdit, Except.error st = Except.ok e →
      Sorted e.sstables := fun _ _ h => by cases h
  rintro (_ | _)
  · exact hbad _
  · intro dir
    dsimp only
    split
    · exact hbad _
    · split
      · exact hbad _
      · rename_i e tail hreplay
        have hfinish : ∀ d : Dir, Ends (fun r => ∀ e, r = .ok e → Sorted e.sstables)
            (if e.sstables.all fun f => d.exists f.filePath then .ret (.ok e)
              else .ret (.error (.ioError "MANIFEST references missing SSTable")) :
                Prog (Except Status VersionEdit)) := by
          intro d
          split
          · rintro e' he
            cases he
            exact replayLog_sorted hreplay
          · exact hbad _
        split
        · exact hfinish
        · rintro (_ | _)
          · exact hbad _
          · rintro (_ | _)
            · exact hbad _
            · rintro (_ | _)
              · exact hbad _
              · exact hfinish

theorem load_ends : load.Ends fun r => ∀ m, r = .ok m → Sorted m.edit.sstables := by
  have hbad : ∀ st : Status, ∀ m : ManifestState, Except.error st = Except.ok m →
      Sorted m.edit.sstables := fun _ _ h => by cases h
  unfold load
  intro dir
  dsimp only
  split
  · rintro (_ | _)
    · exact hbad _
    · intro dir
      dsimp only
      split
      · exact hbad _
      · split
        · exact hbad _
        · split
          · apply Ends.bind (loadEditLog_ends _)
            rintro (e | edit) hedit
            · exact hbad e
            · rintro m hm
              cases hm
              exact hedit edit rfl
          · exact hbad _
  · rintro (_ | _)
    · exact hbad _
    · intro dir
      dsimp only
      split
      · exact hbad _
      · split
        · exact hbad _
        · apply Ends.bind (loadEditLog_ends _)
          rintro (e | edit) hedit
          · exact hbad e
          · rintro m hm
            cases hm
            exact hedit edit rfl

end Manifest

namespace DB

/-- A stage of `Open`: the version is sorted, and behind a success `Q` holds. -/
def Stage (Q : DB → Prop) (res : DB × Status) : Prop :=
  Manifest.Sorted res.1.edit.sstables ∧ (res.2 = .ok → Q res.1)

variable {Q : DB → Prop} {db db' : DB}

theorem Stage.failed {st : Status} (h : Manifest.Sorted db.edit.sstables) (hst : st ≠ .ok) :
    Stage Q (db, st) :=
  ⟨h, fun hok => absurd hok hst⟩

theorem andThen_ends {R : DB → Prop} {p : Prog (DB × Status)} {k : DB → Prog (DB × Status)}
    (h : p.Ends (Stage Q))
    (hk : ∀ db, Manifest.Sorted db.edit.sstables → Q db → (k db).Ends (Stage R)) :
    (andThen p k).Ends (Stage R) := by
  apply Ends.bind h
  rintro ⟨db, status⟩ ⟨hsort, hq⟩
  dsimp only
  split
  · rename_i hst
    exact Stage.failed hsort hst
  · rename_i hst
    exact hk db hsort (hq (not_not.mp hst))

theorem recoverTables_ends (ns : List Nat) (acc : RecoveredTables) :
    (recoverTables ns acc).Ends fun r => ∀ found, r = .ok found →
      found.metas.map (·.fileNumber) = acc.metas.map (·.fileNumber) ++ ns ∧
      found.db.sstables = acc.db.sstables ∧ found.db.manifest = acc.db.manifest := by
  induction ns generalizing acc with
  | nil =>
    rintro found hf
    cases hf
    exact ⟨(List.append_nil _).symm, rfl, rfl⟩
  | cons n ns ih =>
    apply Ends.bind (ends_true _)
    rintro (e | t) _
    · intro found hf
      cases hf
    · refine (ih _).mono fun r hr found hf => ?_
      obtain ⟨hm, hs, hman⟩ := hr found hf
      refine ⟨?_, hs, hman⟩
      rw [hm]
      simp

theorem loadOrRecoverManifest_ends (hsort : Manifest.Sorted db.edit.sstables)
    (hnone : db.sstables = []) :
    db.loadOrRecoverManifest.Ends (Stage fun db' => db'.sstables = []) := by
  unfold loadOrRecoverManifest
  intro dir
  dsimp only
  split
  · apply Ends.bind Manifest.load_ends
    rintro (e | m) hm
    · exact ⟨hsort, fun _ => hnone⟩
    · exact ⟨hm m rfl, fun _ => hnone⟩
  · intro dir
    dsimp only
    apply Ends.bind (recoverTables_ends _ _)
    rintro (e | found) hfound
    · exact ⟨hsort, fun _ => hnone⟩
    · obtain ⟨hmetas, hs, hman⟩ := hfound found rfl
      have hkept : Manifest.Sorted found.db.edit.sstables := by
        rw [edit, hman]
        exact hsort
      dsimp only
      generalize (if walNumbers dir = [] then 1 else maxOf (walNumbers dir)) = maxWal
      split
      · exact ⟨hkept, fun _ => hs.trans hnone⟩
      · apply Ends.bind (save_ends _ _)
        rintro ⟨m, status⟩ (⟨_, hm⟩ | ⟨_, hm⟩)
        · refine ⟨?_, fun _ => hs.trans hnone⟩
          rw [show m = _ from hm]
          have hle : (found.metas.map (·.fileNumber)).Pairwise (· ≤ ·) := by
            rw [hmetas]
            exact List.pairwise_insertionSort _ _
          exact (List.pairwise_map.mp hle).insertionSort_eq
        · refine ⟨?_, fun _ => hs.trans hnone⟩
          rw [show m = _ from hm]
          exact hkept

theorem openTable_ends (path : FileName) :
    (openTable path).Ends fun r => ∀ e, r = .error e → e ≠ .ok := by
  rintro (_ | _)
  · rintro e he
    cases he
    simp
  · intro dir
    dsimp only
    split
    · rintro e he
      cases he
      simp
    · split
      · rintro e he
        cases he
        simp
      · rintro e he
        cases he

theorem openSSTables_ends (metas : List SSTableMeta) (hsort : Manifest.Sorted db.edit.sstables) :
    (openSSTables metas db).Ends (Stage fun db' => db'.edit = db.edit ∧
      db'.sstables.map (·.fileNumber) =
        db.sstables.map (·.fileNumber) ++ metas.map (·.fileNumber)) := by
  induction metas generalizing db with
  | nil => exact ⟨hsort, fun _ => ⟨rfl, (List.append_nil _).symm⟩⟩
  | cons m metas ih =>
    apply Ends.bind (openTable_ends _)
    rintro (e | t) he
    · exact Stage.failed hsort (he e rfl)
    · dsimp only
      refine Ends.mono (ih hsort) ?_
      rintro r ⟨hsorted, hr⟩
      refine ⟨hsorted, fun hok => ?_⟩
      obtain ⟨hedit, hn⟩ := hr hok
      refine ⟨hedit, ?_⟩
      rw [hn]
      simp

theorem recover_ends (hsort : Manifest.Sorted db.edit.sstables) (h : db.Numbered) :
    db.recover.Ends (Stage Numbered) := by
  unfold recover
  intro dir
  dsimp only
  split
  · exact ⟨hsort, fun _ => h⟩
  · split
    · apply Ends.bind (ends_true _)
      rintro (e | r) _
      · exact ⟨hsort, fun _ => h⟩
      · exact ⟨hsort, fun _ => h⟩
    · apply Ends.bind (ends_true _)
      rintro (e | r) _
      · exact ⟨hsort, fun _ => h⟩
      · exact ⟨hsort, fun _ => h⟩

theorem settleNextFileNumber_ends (hsort : Manifest.Sorted db.edit.sstables) (h : db.Numbered) :
    db.settleNextFileNumber.Ends (Stage Numbered) := by
  unfold settleNextFileNumber
  split
  · refine (saveManifest_ends _).mono ?_
    rintro ⟨db', status⟩ (⟨_, rfl⟩ | ⟨hne, hdb⟩)
    · exact ⟨hsort, fun _ => h⟩
    · obtain ⟨b, hb, _⟩ := latched_setBackgroundError (db.setNextFileNumber
        (db.activeWalFileNumber + 1)) status
      rw [hb] at hdb
      rw [show db' = _ from hdb]
      exact Stage.failed hsort hne
  · exact ⟨hsort, fun _ => h⟩

theorem startWal_ends (hsort : Manifest.Sorted db.edit.sstables) (h : db.Numbered) :
    db.startWal.Ends (Stage Numbered) := by
  apply Ends.bind (ends_true _)
  intro status _
  split
  · exact ⟨hsort, fun _ => h⟩
  · exact ⟨hsort, fun _ => h⟩

theorem open_ends (db : DB) : db.open.Ends fun res => res.1.Paired := by
  have hunlocked : db.openUnlocked.Ends (Stage Numbered) := by
    refine andThen_ends (loadOrRecoverManifest_ends rfl rfl) fun db hsort hnone => ?_
    refine andThen_ends (openSSTables_ends _ hsort) fun db' hsort' hopened => ?_
    have hnumbers : db'.Numbered := by
      rw [Numbered, hopened.1, hopened.2, hnone]
      exact List.Perm.refl _
    exact andThen_ends (recover_ends hsort' hnumbers) fun db hsort h =>
      andThen_ends (settleNextFileNumber_ends hsort h) fun db hsort h => startWal_ends hsort h
  apply Ends.bind hunlocked
  rintro ⟨db', status⟩ ⟨hsort, hok⟩
  dsimp only
  split
  · exact ⟨hsort, fun hopen => by cases hopen⟩
  · rename_i hst
    exact ⟨hsort, fun _ => hok (not_not.mp hst)⟩

/-! ## Sections -/

theorem Paired.latched (h : db.Paired) (hl : Latched db db') : db'.Paired := by
  obtain ⟨b, rfl, _⟩ := hl
  exact ⟨h.sorted, h.tables⟩

theorem Paired.setBackgroundError (h : db.Paired) (status : Status) :
    (db.setBackgroundError status).Paired :=
  h.latched (latched_setBackgroundError db status)

theorem Paired.withOpened (h : db.Paired) (number : Nat) (t : TableFile) :
    (db.withOpened number t).Paired :=
  ⟨h.sorted, h.tables⟩

/-- A section that publishes adds one table to both lists, and removes the same ones from
both. -/
theorem Paired.publish (h : db.Paired) (keep : Nat → Bool) (file : SSTableMeta) (t : OpenTable)
    (hopen : db'.closed = db.closed) (hnumber : t.fileNumber = file.fileNumber)
    (htables : db'.sstables = (db.sstables.filter fun x => keep x.fileNumber) ++ [t])
    (hedit : db'.edit.sstables = Manifest.sortByNumber
      ((db.edit.sstables.filter fun x => keep x.fileNumber) ++ [file])) : db'.Paired := by
  refine ⟨hedit ▸ Manifest.sorted_sortByNumber _, fun ho => ?_⟩
  have hperm := (h.tables (hopen ▸ ho)).filter keep
  rw [List.filter_map, List.filter_map] at hperm
  rw [Numbered, htables, hedit]
  refine List.Perm.trans ?_ ((List.perm_insertionSort _ _).map _).symm
  rw [List.map_append, List.map_append, List.map_singleton, List.map_singleton, hnumber]
  exact hperm.append_right _

end DB

variable {k : Section}

theorem Section.Result.paired {db : DB} {res : DB × Status} (h : k.Result db res) (hdb : db.Paired)
    (hk : k ≠ .opening) : res.1.Paired := by
  obtain ⟨db', status⟩ := res
  cases k with
  | opening => exact absurd rfl hk
  | writing r =>
    rcases h with ⟨_, rfl⟩ | ⟨_, hleft⟩
    · exact ⟨hdb.sorted, hdb.tables⟩
    · rw [show db' = _ from hleft]
      split
      · exact hdb
      · exact hdb.setBackgroundError status
  | switching =>
    rcases h with ⟨_, _, rfl⟩ | ⟨_, _, _, rfl⟩ | ⟨_, hleft⟩
    · exact hdb
    · exact ⟨hdb.sorted, hdb.tables⟩
    · exact hdb.latched (DB.latched_or hleft)
  | publishFlush imm number result =>
    rcases h with ⟨t, _, _, _, rfl⟩ | ⟨t, _, _, hleft⟩ | ⟨e, _, _, hleft⟩
    · refine hdb.publish (fun _ => true) (DB.flushMeta number (db.memtable imm.memtable) t)
        (db.handle number t) rfl rfl ?_ ?_
      · rw [List.filter_true]
        rfl
      · rw [List.filter_true]
        rfl
    · rw [show db' = _ from hleft]
      exact (hdb.withOpened number t).setBackgroundError status
    · rw [show db' = _ from hleft]
      exact hdb.setBackgroundError e
  | publishCompaction job output t =>
    rcases h with ⟨_, _, _, _, rfl⟩ | ⟨_, hleft⟩
    · exact hdb.publish (fun n => !Manifest.hasNumber job.inputs n)
        (DB.compactionMeta job output t) (db.handle job.number t) rfl rfl rfl rfl
    · exact (hdb.withOpened job.number t).latched (DB.latched_or hleft)
  | closing moved =>
    refine ⟨?_, fun ho => ?_⟩
    · rw [h.tables]
      exact hdb.sorted
    · rw [show db'.closed = true from h.closed] at ho
      cases ho

/-! ## Whole runs -/

/-- The database is paired, also behind an `Open` that is running, and every section ends as
its kind does. -/
structure Sys.Paired (s : Sys) : Prop where
  db : s.db.Paired
  main : ∀ k p, s.main = some (k, p) →
    p.Ends fun res => k.Result s.db res ∧ (k = .opening → res.1.Paired)

theorem Sys.Paired.quiet (h : s.Paired) (hdb : s'.db = s.db) (hm : s'.main = s.main) : s'.Paired := by
  refine ⟨hdb ▸ h.db, fun k p he => ?_⟩
  rw [hdb]
  exact h.main k p (hm ▸ he)

theorem Sys.paired_of_idle (hdb : s.db.Paired) (hm : s.main = none) : s.Paired :=
  ⟨hdb, fun k p he => by rw [hm] at he; cases he⟩

theorem Sys.paired_of_begin {p : Prog (DB × Status)} (hdb : s.db.Paired) (hm : s.main = some (k, p))
    (hk : k ≠ .opening) (h : p.Ends (k.Result s.db)) : s.Paired := by
  refine ⟨hdb, fun k' p' he => ?_⟩
  rw [hm] at he
  cases he
  exact h.mono fun res hres => ⟨hres, fun he => absurd he hk⟩

theorem Sys.Paired.step (h : s.Paired) (hs : Step F s s') : s'.Paired := by
  have hallocated : ∀ {number : Nat} {next : DB}, s.db.allocateFileNumber = .ok (number, next) →
      next.Paired := by
    intro number next ha
    obtain ⟨_, _, rfl⟩ := DB.allocateFileNumber_ok ha
    exact ⟨h.db.sorted, h.db.tables⟩
  cases hs with
  | openBegin hm hc hok =>
    refine ⟨h.db, fun k p he => ?_⟩
    cases he
    exact (DB.open_ends s.db).mono fun res hres => ⟨trivial, fun _ => hres⟩
  | writeBegin batch hm hcl hne hok =>
    exact Sys.paired_of_begin h.db rfl (by simp) (write_ends s.db batch)
  | mainStep k p p' dir hm hp =>
    refine ⟨h.db, fun k' q he => ?_⟩
    cases he
    exact (h.main k p hm).step hp
  | mainEnd k db status hm =>
    obtain ⟨hres, hopen⟩ := h.main _ _ hm
    have hdb : db.Paired := by
      by_cases hk : k = .opening
      · exact hopen hk
      · exact hres.paired h.db hk
    have hnext : (s.finish k db status).db.Paired := by rwa [finish_db]
    rcases (finish_spec s k db status).1.2 with hnone | hswitch
    · exact Sys.paired_of_idle hnext hnone
    · refine Sys.paired_of_begin hnext hswitch (by simp) ?_
      rw [finish_db]
      exact flushMemTable_ends hdb.sorted
  | flushStart imm rest number next hm hw hi hb ha => exact Sys.paired_of_idle (hallocated ha) hm
  | flushExhausted e hm hw hi hb ha => exact Sys.paired_of_idle (h.db.setBackgroundError e) hm
  | publishFlushBegin imm number result hm hw =>
    exact Sys.paired_of_begin h.db rfl (by simp) (publishFlush_ends h.db.sorted imm number result)
  | compactBegin oldest attempts job next hm hw hc hn hs =>
    exact Sys.paired_of_idle (hallocated (startCompaction_ok hs).number) hm
  | compactPublic job next hm hc hl hs =>
    exact Sys.paired_of_idle (hallocated (startCompaction_ok hs).number) hm
  | compactFailed oldest status hm hw =>
    exact Sys.paired_of_idle (h.db.setBackgroundError status) hm
  | sweepEnd oldest status hm hw =>
    refine Sys.paired_of_idle ?_ hm
    dsimp only
    split
    · exact h.db.setBackgroundError status
    · exact h.db
  | publishCompactionBegin job output t hm hc =>
    exact Sys.paired_of_begin h.db rfl (by simp)
      (publishCompaction_ends h.db.sorted job output t)
  | closeBegin hm hcl ho =>
    refine Sys.paired_of_idle ?_ hm
    dsimp only
    unfold DB.beginClose
    split
    · exact ⟨h.db.sorted, h.db.tables⟩
    · exact h.db
  | closeEnd moved hm hcl hw hc =>
    exact Sys.paired_of_begin h.db rfl (by simp) (endClose_ends s.db moved)
  | snapshot hm =>
    refine Sys.paired_of_idle ?_ hm
    dsimp only
    unfold DB.getSnapshot
    split
    · exact h.db
    · exact ⟨h.db.sorted, h.db.tables⟩
  | release i hm => exact Sys.paired_of_idle ⟨h.db.sorted, h.db.tables⟩ hm
  | construct o hm hc => exact Sys.paired_of_idle ⟨rfl, fun _ => List.Perm.refl _⟩ hm
  | crash dir o hc hd => exact Sys.paired_of_idle ⟨rfl, fun _ => List.Perm.refl _⟩ rfl
  | _ => exact h.quiet rfl rfl

theorem Reachable.paired (h : Reachable F s) : s.Paired :=
  h.invariant (fun _ => Sys.paired_of_idle ⟨rfl, fun _ => List.Perm.refl _⟩ rfl)
    fun _ _ _ hi hs => hi.step hs

/-- The sections that change the version. -/
def Section.Publishes : Section → Prop
  | .switching | .publishFlush _ _ _ | .publishCompaction _ _ _ => True
  | _ => False

/-- In every run, whatever fails: the open tables are those of the version, and a switch or a
publication that fails leaves the version, the tables, the queue, the memtables and the log as
they were when its section began. Only the latched error may be new, and the object of a table
that was built. Reads do not see either. -/
theorem publication_all_or_nothing (h : Reachable F s) :
    (s.db.closed = false → s.db.Numbered) ∧
    ∀ k db status, k.Publishes → s.main = some (k, .ret (db, status)) → status ≠ .ok →
      (∃ made b, (s.finish k db status).db =
        { s.db with opened := s.db.opened ++ made, backgroundStatus := b }) ∧
      ∀ raw key snapshot,
        (s.finish k db status).db.get raw key snapshot = s.db.get raw key snapshot ∧
        (s.finish k db status).db.newIterator snapshot = s.db.newIterator snapshot := by
  refine ⟨h.paired.db.tables, fun k db status hk hm hst => ?_⟩
  rw [finish_db]
  suffices hleft : ∃ made b, db =
      { s.db with opened := s.db.opened ++ made, backgroundStatus := b } by
    refine ⟨hleft, fun raw key snapshot => ?_⟩
    obtain ⟨made, b, rfl⟩ := hleft
    exact ⟨rfl, rfl⟩
  have hlatched : ∀ {db' : DB}, DB.Latched s.db db' → ∃ made b, db' =
      { s.db with opened := s.db.opened ++ made, backgroundStatus := b } := by
    rintro db' ⟨b, rfl, _⟩
    exact ⟨[], b, by rw [List.append_nil]⟩
  have hmade : ∀ {db' : DB} (number : Nat) (t : TableFile),
      DB.Latched (s.db.withOpened number t) db' → ∃ made b, db' =
        { s.db with opened := s.db.opened ++ made, backgroundStatus := b } := by
    rintro db' number t ⟨b, rfl, _⟩
    exact ⟨[s.db.handle number t], b, rfl⟩
  have hres : k.Result s.db (db, status) := (h.paired.main _ _ hm).1
  cases k with
  | opening | writing r | closing moved => exact hk.elim
  | switching =>
    rcases hres with ⟨hok, _⟩ | ⟨hok, _⟩ | ⟨_, hdb⟩
    · exact absurd hok hst
    · exact absurd hok hst
    · exact hlatched (DB.latched_or hdb)
  | publishFlush imm number result =>
    rcases hres with ⟨t, _, hok, _⟩ | ⟨t, _, _, hdb⟩ | ⟨e, _, _, hdb⟩
    · exact absurd hok hst
    · exact hmade number t (DB.latched_or (Or.inr hdb))
    · exact hlatched (DB.latched_or (Or.inr hdb))
  | publishCompaction job output t =>
    rcases hres with ⟨hok, _⟩ | ⟨_, hdb⟩
    · exact absurd hok hst
    · exact hmade job.number t (DB.latched_or hdb)

theorem publication_all_or_nothing_switch : ∃ db,
    Sys.switchStopped.ran.main =
      some (.switching, .ret (db, .ioError "failed to open WAL for append")) ∧
    ∃ made b, db = { Sys.switchStopped.ran.db with
      opened := Sys.switchStopped.ran.db.opened ++ made, backgroundStatus := b } := by
  obtain ⟨db, hm⟩ := Sys.ran_switching Sys.runs_end.1
  have hleft := (publication_all_or_nothing Sys.switchStopped_reachable).2 .switching _ _ trivial hm
    (by simp)
  rw [finish_db] at hleft
  exact ⟨db, hm, hleft.1⟩

end KvMem
