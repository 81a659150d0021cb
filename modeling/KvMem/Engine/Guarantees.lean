import KvMem.Engine.EditLog
import KvMem.Engine.Reads

/-! # What callers can rely on

The results about whole runs: what has been acknowledged stays, a crash takes a batch
wholly or not at all, a database that has been open opens again, and a read answers for
the moment at which it pinned its view.
-/

namespace KvMem

open Versions CrashStore FileProg RecordLog

variable {F : Faults} {s s' : Sys} {L : Log} {start floor m : Nat}

/-! ## Opening -/

variable {db : DB} {k : Section} {r floor' m' start' : Nat} {L' : Log}

theorem Reachable.opening_ends (hF : F.Steady) (h : Reachable F s) {status : Status}
    (hm : s.main = some (.opening, .ret (db, status))) :
    OpenEnds F.crash False s.history s.inflight.toList s.db (db, status) s.dir := by
  rcases h.alive hF with ⟨L, start, floor, m, hrun, _⟩ | hdown
  · exact absurd (hrun.main _ _ hm).sound id
  · exact (hdown.main _ _ hm).2.done hdown.ambient

theorem finish_opening (s : Sys) (db : DB) :
    s.finish .opening db .ok = { s with
      db := db, main := none, caches := Function.update s.caches db.cache db.blockCache
      worker := .idle
      history := (s.history ++ s.inflight.toList).filter fun r => r.last ≤ db.lastSequence
      inflight := none } := rfl

/-- The machine crashes once the first `Open` has created `MANIFEST`, and the next `Open` fails,
although nothing but the crash has happened. -/
theorem open_refuses_first_crash : Reachable Faults.crashOnly Sys.refused.ran ∧
    ∃ db, Sys.refused.ran.main =
      some (.opening, .ret (db, .corruption "MANIFEST is not a record edit log")) :=
  ⟨Sys.refused_reachable trivial, _, Sys.runs_end.2.2.2.2 ▸ Sys.refused_main⟩

/-- `Open` succeeds, whatever crashes and failing builds of the background threads there have
been, unless a crash in the first `Open` of all has left a part of the first record of
`MANIFEST` and nothing else. A database that has been open opens again. -/
theorem open_succeeds (hF : F.Steady) (h : Reachable F s) {db : DB} {status : Status}
    (hm : s.main = some (.opening, .ret (db, status))) :
    (status = .ok ∨ s.history = [] ∧ s.inflight = none ∧
      (∀ n, n ≠ .manifest → s.dir.read n = none) ∧
      ∃ part, part <+: firstLog ∧ part ≠ firstLog ∧ s.dir.read .manifest = some (toCells part)) ∧
    ∀ s₀, Reachable F s₀ → s₀.db.closed = false → Relation.ReflTransGen (Step F) s₀ s →
      status = .ok := by
  refine ⟨?_, fun s₀ hr ho hs => ?_⟩
  · rcases h.opening_ends hF hm with ⟨hok, _⟩ | ⟨_, _, _, _, hhist, hinf, htorn⟩
    · exact Or.inl hok
    · obtain ⟨part, hpart, hne, hx⟩ := htorn.manifest
      refine Or.inr ⟨hhist, Option.toList_eq_nil_iff.mp hinf, fun n hn => ?_, part, hpart, hne, hx.1⟩
      rw [FS.read, (htorn.others n hn).1]
      rfl
  · rcases (steps_alive (b := True) hF (Or.inl (hr.serving hF ho)) hs).1 with
      ⟨L, start, floor, m, hrun, _⟩ | hdown
    · exact absurd (hrun.main _ _ hm).sound id
    · rcases (hdown.main _ _ hm).2.done hdown.ambient with ⟨hok, _⟩ | ⟨_, _, _, hfirst, _⟩
      · exact hok
      · exact absurd trivial hfirst

theorem open_succeeds_crashed : Sys.recovered.2 = .ok :=
  (open_succeeds Faults.crashes_steady
    ((Sys.layered_reachable _).steps Sys.reopening_ran_steps) Sys.recovered_main).2 Sys.layered
      (Sys.layered_reachable _) Sys.layered_takes.isOpen Sys.reopening_ran_steps

/-! ## Sequence numbers -/

theorem step_increasing (hF : F.Steady) (h : Reachable F s) (hs : Step F s s')
    (hinc : s.history.Pairwise fun a b => a.last < b.sequence) :
    s'.history.Pairwise fun a b => a.last < b.sequence := by
  cases hs with
  | mainEnd k db status hm =>
    rcases (finish_spec s k db status).2 with heq | ⟨rfl, rfl⟩ | ⟨r, rfl, rfl, heq⟩
    · rw [heq]
      exact hinc
    · rcases h.opening_ends hF hm with ⟨_, L, floor, m, hre⟩ | ⟨hne, _⟩
      · rw [finish_opening]
        show ((s.history ++ s.inflight.toList).filter _).Pairwise _
        rw [← hre.records, Log.records, List.pairwise_map]
        exact hre.contents.history.increasing
      · exact absurd rfl hne
    · rw [heq]
      refine List.pairwise_append.mpr ⟨hinc, List.pairwise_singleton _ _, ?_⟩
      intro a ha b hb
      rw [List.mem_singleton.mp hb]
      rcases h.alive hF with ⟨L, start, floor, m, hrun, _⟩ | hdown
      · have hseq := (hrun.main _ _ hm).sound.2.1
        rw [← hrun.records] at ha
        obtain ⟨p, hp, rfl⟩ := List.mem_map.mp ha
        have := hrun.contents.last p hp
        omega
      · exact absurd (hdown.main _ _ hm).1 (by simp)
  | _ => exact hinc

/-- Every committed batch has sequence numbers of its own, above those of all batches before
it, over the whole life of the directory; and the next ones are not used yet. -/
theorem sequences_increase (hF : F.Steady) (h : Reachable F s) :
    (s.history.Pairwise fun a b => a.last < b.sequence) ∧
      (s.db.closed = false → ∀ r ∈ s.history, 1 ≤ r.sequence ∧ r.last ≤ s.db.lastSequence) := by
  refine ⟨?_, fun ho r hr => ?_⟩
  · induction h with
    | init o => exact List.Pairwise.nil
    | step hr hs ih => exact step_increasing hF hr hs ih
  · obtain ⟨L, start, floor, m, hrun, _⟩ := h.serving hF ho
    rw [← hrun.records] at hr
    obtain ⟨p, hp, rfl⟩ := List.mem_map.mp hr
    exact ⟨(hrun.contents.history.appendable p hp).positive, hrun.contents.last p hp⟩

theorem sequences_increase_layered : Sys.layered.history.length = 2 ∧
    (Sys.layered.history.Pairwise fun a b => a.last < b.sequence) ∧
      ∀ r ∈ Sys.layered.history, 1 ≤ r.sequence ∧ r.last ≤ Sys.layered.db.lastSequence := by
  have hseq := sequences_increase Faults.crashes_steady (Sys.layered_reachable Faults.crashes)
  exact ⟨Sys.layered_has.2.1, hseq.1, hseq.2 Sys.layered_takes.isOpen⟩

/-! ## One open period -/

namespace DB

/-- `db'` is a later state of the open database `db`: memtables that are no longer active are
final, the active one gains versions behind the last sequence only, and file numbers only
grow. -/
structure Follows (db db' : DB) : Prop where
  active : db.active ≤ db'.active
  sequence : db.lastSequence ≤ db'.lastSequence
  older : ∀ i < db.active, db'.memtable i = db.memtable i
  current : ∀ key r, r ≤ db.lastSequence →
    (db'.memtable db.active).get key r = (db.memtable db.active).get key r
  numbers : db.nextFileNumber ≤ db'.nextFileNumber

variable {db db' db'' : DB}

theorem Follows.trans (h : Follows db db') (h' : Follows db' db'') : Follows db db'' := by
  refine ⟨h.active.trans h'.active, h.sequence.trans h'.sequence, ?_, ?_,
    h.numbers.trans h'.numbers⟩
  · intro i hi
    rw [h'.older i (hi.trans_le h.active), h.older i hi]
  · intro key r hr
    rw [← h.current key r hr]
    rcases Nat.lt_or_eq_of_le h.active with hlt | heq
    · rw [h'.older _ hlt]
    · rw [heq]
      exact h'.current key r (hr.trans h.sequence)

theorem follows_of_eq (hmems : db'.mems = db.mems) (hact : db'.active = db.active)
    (hseq : db'.lastSequence = db.lastSequence) (hnum : db.nextFileNumber ≤ db'.nextFileNumber) :
    Follows db db' := by
  have hmem : ∀ i, db'.memtable i = db.memtable i := fun i => by rw [memtable, hmems, memtable]
  exact ⟨hact.ge, hseq.ge, fun i _ => hmem i, fun key r _ => by rw [hmem], hnum⟩

theorem Follows.refl (db : DB) : Follows db db := follows_of_eq rfl rfl rfl le_rfl

theorem follows_setBackgroundError (db : DB) (status : Status) :
    Follows db (db.setBackgroundError status) := by
  unfold setBackgroundError
  split
  · exact follows_of_eq rfl rfl rfl le_rfl
  · exact Follows.refl db

theorem follows_withOpened (db : DB) (number : Nat) (t : TableFile) :
    Follows db (db.withOpened number t) :=
  follows_of_eq rfl rfl rfl le_rfl

theorem follows_append (hlast : db.active + 1 = db.mems.length)
    (hmems : db'.mems = db.mems ++ [[]]) (hact : db'.active = db.mems.length)
    (hseq : db'.lastSequence = db.lastSequence) (hnum : db.nextFileNumber ≤ db'.nextFileNumber) :
    Follows db db' := by
  have hlt : ∀ i ≤ db.active, db'.memtable i = db.memtable i := by
    intro i hi
    rw [memtable, hmems, getD_append_left (by omega), memtable]
  exact ⟨by omega, hseq.ge, fun i hi => hlt i hi.le, fun key r _ => by rw [hlt _ le_rfl], hnum⟩

theorem follows_write (hlast : db.active + 1 = db.mems.length)
    (hstrict : StrictRun db.activeMemtable) (batch : WriteBatch) :
    Follows db ((db.setMemtable db.active
      (applyBatch batch (db.lastSequence + 1) db.activeMemtable)).setLastSequence
        (db.lastSequence + batch.count)) := by
  refine ⟨le_rfl, Nat.le_add_right _ _, ?_, ?_, le_rfl⟩
  · intro i hi
    show (db.mems.set db.active _).getD i [] = db.mems.getD i []
    rw [List.getD_eq_getElem?_getD, List.getElem?_set_ne (by omega), List.getD_eq_getElem?_getD]
  · intro key r hr
    have hset := activeMemtable_setMemtable hlast
      (applyBatch batch (db.lastSequence + 1) db.activeMemtable)
    show ((db.setMemtable db.active _).activeMemtable).get key r = _
    rw [hset, applyBatch_get hstrict batch (by omega)]
    rfl

end DB

theorem Section.Result.follows {res : DB × Status} (h : k.Result db res)
    (hlast : db.active + 1 = db.mems.length) (hstrict : StrictRun db.activeMemtable)
    (hk : k ≠ .opening) (ho : res.1.closed = false) : db.Follows res.1 := by
  obtain ⟨db', status⟩ := res
  cases k with
  | opening => exact absurd rfl hk
  | writing r =>
    rcases h with ⟨_, rfl⟩ | ⟨_, hdb⟩
    · exact DB.follows_write hlast hstrict r.batch
    · rw [show db' = _ from hdb]
      split
      · exact DB.Follows.refl db
      · exact DB.follows_setBackgroundError db status
  | switching =>
    rcases h with ⟨_, _, rfl⟩ | ⟨_, _, _, rfl⟩ | ⟨_, rfl | hdb⟩
    · exact DB.Follows.refl db'
    · exact DB.follows_append hlast rfl rfl rfl (Nat.le_succ _)
    · exact DB.Follows.refl db'
    · rw [show db' = _ from hdb]
      exact DB.follows_setBackgroundError db status
  | publishFlush imm number result =>
    rcases h with ⟨t, _, _, _, rfl⟩ | ⟨t, _, _, hdb⟩ | ⟨e, _, _, rfl⟩
    · exact DB.follows_of_eq rfl rfl rfl le_rfl
    · rw [show db' = _ from hdb]
      exact (DB.follows_withOpened db number t).trans (DB.follows_setBackgroundError _ status)
    · exact DB.follows_setBackgroundError db e
  | publishCompaction job output t =>
    rcases h with ⟨_, _, _, _, rfl⟩ | ⟨_, rfl | hdb⟩
    · exact DB.follows_of_eq rfl rfl rfl le_rfl
    · exact DB.follows_withOpened db job.number t
    · rw [show db' = _ from hdb]
      exact (DB.follows_withOpened db job.number t).trans
        (DB.follows_setBackgroundError _ status)
  | closing moved =>
    have hclosed : db'.closed = true := h.1
    rw [show db'.closed = false from ho] at hclosed
    cases hclosed

theorem Running.follows_step (h : Running s L start floor m) (hs : Step F s s')
    (ho : s'.db.closed = false) : s.db.Follows s'.db := by
  have hallocate : ∀ {number : Nat} {next : DB},
      s.db.allocateFileNumber = .ok (number, next) → s.db.Follows next := by
    intro number next ha
    obtain ⟨_, _, rfl⟩ := DB.allocateFileNumber_ok ha
    exact DB.follows_of_eq rfl rfl rfl (Nat.le_succ _)
  cases hs with
  | mainEnd k db status hm =>
    have hsec := h.main _ _ hm
    rw [finish_db] at ho ⊢
    refine Section.Result.follows hsec.ends h.contents.active h.contents.mem.strict ?_ ho
    rintro rfl
    exact hsec.sound
  | flushStart imm rest number next hm hw hi hb ha => exact hallocate ha
  | flushExhausted e hm hw hi hb ha => exact DB.follows_setBackgroundError s.db e
  | compactBegin oldest attempts job next hm hw hc hn hs =>
    exact hallocate (startCompaction_ok hs).number
  | compactPublic job next hm hc hl hs => exact hallocate (startCompaction_ok hs).number
  | compactFailed oldest status hm hw => exact DB.follows_setBackgroundError s.db status
  | sweepEnd oldest status hm hw =>
    dsimp only
    split
    · exact DB.follows_setBackgroundError s.db status
    · exact DB.Follows.refl s.db
  | closeBegin hm hcl ho =>
    show s.db.Follows s.db.beginClose.1
    unfold DB.beginClose
    split
    · exact DB.follows_append h.contents.active rfl rfl rfl le_rfl
    · exact DB.Follows.refl s.db
  | snapshot hm =>
    show s.db.Follows s.db.getSnapshot
    unfold DB.getSnapshot
    split
    · exact DB.Follows.refl s.db
    · exact DB.follows_of_eq rfl rfl rfl le_rfl
  | release i hm => exact DB.follows_of_eq rfl rfl rfl le_rfl
  | construct o hm hc =>
    rw [h.isOpen] at hc
    cases hc
  | crash dir o hc hd => cases ho
  | _ => exact DB.Follows.refl s.db

theorem OpenState.follows (h : OpenState F s) (hs : OpenRun F s s') :
    s.db.Follows s'.db ∧ OpenState F s' := by
  induction hs with
  | refl => exact ⟨DB.Follows.refl s.db, h⟩
  | @tail b c _ hstep ih =>
    obtain ⟨hfollow, hopen⟩ := ih
    obtain ⟨L, start, floor, m, hrun⟩ := hopen.running
    exact ⟨hfollow.trans (hrun.follows_step hstep.1 hstep.2), hopen.step hstep.1 hstep.2⟩

/-! ## Pinned views -/

theorem lookupMems_congr {mems mems' : List MemTable} {key : Bytes} {is : List Nat}
    (h : ∀ i ∈ is, (mems'.getD i []).get key r = (mems.getD i []).get key r) :
    DB.lookupMems mems' key r is = DB.lookupMems mems key r is := by
  induction is with
  | nil => rfl
  | cons i is ih =>
    rw [DB.lookupMems, DB.lookupMems, h i List.mem_cons_self,
      ih fun j hj => h j (List.mem_cons_of_mem i hj)]

/-- `Get` answers with the newest version of the whole history at its sequence. It pins a view
under the lock and searches it without: whatever happens to the open database until the search
runs, the answer is that of the history when the view was pinned. -/
theorem get_answers_history (h : OpenState F s) {snapshot : Option Nat} {p : DB.Pinned}
    (hp : s.db.pin snapshot = .ok p) (hs : OpenRun F s s') {key : Bytes}
    (hkey : validateKey key = .ok) :
    p.readSequence = s.db.readSequence snapshot ∧
    (∀ raw, s.db.get raw key snapshot = DB.lookup raw s.db.mems p key ∧
      DB.lookup raw s'.db.mems p key = DB.lookup raw s.db.mems p key) ∧
    ∀ failing raw, s.db.ReadsFiles failing raw →
      Answers failing (DB.lookup raw s'.db.mems p key) (visible s.versions key p.readSequence) := by
  obtain ⟨L, start, floor, m, hrun⟩ := h.running
  have hfollow := (h.follows hs).1
  have hv : s.db.validateReadOptions snapshot = .ok := by
    unfold DB.pin at hp
    split at hp
    · assumption
    · cases hp
  have hpin := hp
  rw [DB.pin_eq hv] at hpin
  have hsame : ∀ raw, DB.lookup raw s'.db.mems p key = DB.lookup raw s.db.mems p key := by
    intro raw
    rw [← Except.ok.inj hpin, DB.lookup, DB.lookup, lookupMems_congr fun i hi => ?_]
    rcases List.mem_cons.mp hi with rfl | hi
    · exact hfollow.current key _ (hrun.contents.readSequence hv).1
    · obtain ⟨imm, himm, rfl⟩ := List.mem_map.mp (List.mem_reverse.mp hi)
      have hold := hfollow.older imm.memtable (hrun.contents.queued imm himm)
      exact congrArg (fun mem : MemTable => mem.get key _) hold
  refine ⟨?_, fun raw => ⟨?_, hsame raw⟩, fun failing raw hraw => ?_⟩
  · rw [← Except.ok.inj hpin]
  · rw [DB.get, hkey, hp]
  · rw [hsame, ← Except.ok.inj hpin]
    exact hrun.lookup_answers hv hraw key (DB.pin_eq hv)

theorem Sys.rewritten_reads : Sys.snapped.db.validateReadOptions none = .ok ∧
    visible Sys.snapped.versions (ascii "k") (Sys.snapped.db.readSequence none) =
      some (ascii "v") ∧
    Sys.snapped.db.nextFileNumber < Sys.rewritten.db.nextFileNumber ∧
    ¬ Sys.rewritten.db.nextFileNumber = maxUInt64 := by
  decide +kernel

theorem DB.getSnapshot_sstables (db : DB) : db.getSnapshot.sstables = db.sstables := by
  unfold DB.getSnapshot
  split <;> rfl

theorem Sys.snapped_sstables : Sys.snapped.db.sstables = Sys.layered.db.sstables :=
  DB.getSnapshot_sstables Sys.layered.db

theorem get_answers_history_rewritten :
    ∃ p, Sys.snapped.db.pin none = .ok p ∧
      DB.lookup DB.fileReads Sys.rewritten.db.mems p (ascii "k") = .ok (ascii "v") := by
  obtain ⟨hv, hshown, _⟩ := Sys.rewritten_reads
  obtain ⟨p, hp, hseq⟩ := DB.pin_readSequence hv
  rw [← hseq] at hshown
  have hraw : Sys.snapped.db.ReadsFiles False DB.fileReads := by
    refine DB.readsFiles fun t ht => Sys.layered_fits t ?_
    rwa [Sys.snapped_sstables] at ht
  have hanswer := (get_answers_history (Sys.snapped_openState Faults.all) hp Sys.rewritten_steps
    (show validateKey (ascii "k") = .ok by decide)).2.2 False DB.fileReads hraw
  exact ⟨p, hp, (hanswer.ok_iff _).mpr hshown⟩

/-! ## Versions -/

/-- Every version is well formed: above level 0 tables with entries are apart, every table
has an object whose contents its description fits, and numbers are below the counter. -/
theorem version_wellFormed (h : OpenState F s) :
    Compaction.LevelsOk s.db.edit.sstables ∧ Manifest.Ordered s.db.edit.sstables ∧
      Aligned s.db.edit.sstables s.db.sstables ∧ (∀ t ∈ s.db.sstables, HandleOk t) ∧
      ∀ x ∈ s.db.edit.sstables, x.fileNumber < s.db.nextFileNumber := by
  obtain ⟨L, start, floor, m, hrun⟩ := h.running
  exact ⟨hrun.contents.levels, hrun.contents.ordered, hrun.contents.aligned,
    hrun.contents.handles, hrun.tables⟩

theorem version_wellFormed_layered : Sys.layered.db.edit.sstables.map (·.level) = [1, 1] ∧
    Compaction.LevelsOk Sys.layered.db.edit.sstables ∧
      Aligned Sys.layered.db.edit.sstables Sys.layered.db.sstables := by
  obtain ⟨hlevels, _, haligned, _⟩ := version_wellFormed (Sys.layered_openState Faults.all)
  exact ⟨Sys.layered_has.2.2.1, hlevels, haligned⟩

/-! ## Files -/

/-- Between the sections of an open period the counter of file numbers does not fall, and
whenever a number is handed out, no table and no log with records has it or a later one. A
switch that fails gives its number back before it ends. -/
theorem handed_numbers_new (h : OpenState F s) (hs : OpenRun F s s') {number : Nat}
    {next : DB} (ha : s'.db.allocateFileNumber = .ok (number, next)) :
    s.db.nextFileNumber ≤ number ∧ number < next.nextFileNumber ∧
      (∀ x ∈ s'.db.edit.sstables, x.fileNumber < number) ∧
      ∀ n, number ≤ n → s'.dir.exists (.sst n) = false ∧ EmptyWal n s'.dir := by
  obtain ⟨hfollow, hopen⟩ := h.follows hs
  obtain ⟨L, start, floor, m, hrun⟩ := hopen.running
  obtain ⟨rfl, _, rfl⟩ := DB.allocateFileNumber_ok ha
  exact ⟨hfollow.numbers, Nat.lt_succ_self _, hrun.tables, hrun.unused⟩

theorem handed_numbers_new_rewritten :
    Sys.snapped.db.nextFileNumber < Sys.rewritten.db.nextFileNumber ∧
      Sys.rewritten.dir.exists (.sst Sys.rewritten.db.nextFileNumber) = false := by
  have hlimits := Sys.rewritten_reads.2.2
  have hnumber : Sys.rewritten.db.allocateFileNumber = .ok _ := if_neg hlimits.2
  obtain ⟨_, _, _, hnone⟩ :=
    handed_numbers_new (Sys.snapped_openState Faults.all) Sys.rewritten_steps hnumber
  exact ⟨hlimits.1, (hnone _ le_rfl).1⟩

/-! ## Closing -/

end KvMem
