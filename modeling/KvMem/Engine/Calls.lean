import KvMem.Engine.Runs

/-! # Calls that run alone

The calls of a caller who is alone, as functions on the state: `Open`, `Write`, `Compact` and
`Close`, and the work of the background threads between them. Each is a run of the system, so
the states they lead to are reachable.
-/

namespace KvMem

open CrashStore FileProg

variable {s s' : Sys} {F : Faults}

/-! ## Sections that run alone -/

/-- The running section goes through its file steps, with nothing else happening. -/
def Sys.ran (s : Sys) : Sys :=
  match s.main with
  | none => s
  | some (k, p) => { s with dir := (runOk p s.dir).1, main := some (k, .ret (runOk p s.dir).2) }

def Sys.complete (s : Sys) : Sys :=
  match s.main with
  | none => s
  | some (k, p) => s.ran.finish k (runOk p s.dir).2.1 (runOk p s.dir).2.2

theorem Sys.ran_main {k : Section} {p : Prog (DB × Status)} (hm : s.main = some (k, p)) :
    s.ran.main = some (k, .ret ((runOk p s.dir).2.1, (runOk p s.dir).2.2)) := by
  unfold Sys.ran
  rw [hm]

variable {P : DB → Prop}

/-- A thread whose program goes through, with nothing else happening. -/
theorem runOk_lift {ρ : Type} {fault : Op FileName Cell → Prop} (p : Prog ρ) (dir : Dir)
    (f : Dir → Prog ρ → Sys) (h : ∀ d q d' q', ProgStep fault d q d' q' → Step F (f d q) (f d' q'))
    (hP : ∀ d q, P (f d q).db) :
    Relation.ReflTransGen (fun a b => Step F a b ∧ P b.db) (f dir p)
      (f (runOk p dir).1 (.ret (runOk p dir).2)) := by
  have hlift := Relation.ReflTransGen.lift (fun x : Dir × Prog ρ => f x.1 x.2)
    (p := fun a b => Step F a b ∧ P b.db) fun _ _ hstep => ⟨h _ _ _ _ hstep, hP _ _⟩
  exact hlift _ _ (runOk_steps p dir)

theorem Sys.ran_steps (F : Faults) (s : Sys) (hP : P s.db) :
    Relation.ReflTransGen (fun a b => Step F a b ∧ P b.db) s s.ran := by
  unfold Sys.ran
  split
  · exact Relation.ReflTransGen.refl
  · rename_i k p hm
    have hsteps := runOk_lift (F := F) p s.dir (fun d q => { s with dir := d, main := some (k, q) })
      (fun d q d' q' hq => Step.mainStep { s with dir := d, main := some (k, q) } k q q' d' rfl hq)
      (fun _ _ => hP)
    have hstart : s = { s with dir := s.dir, main := some (k, p) } := by rw [← hm]
    rwa [← hstart] at hsteps

theorem Sys.complete_steps (F : Faults) (s : Sys) (hP : P s.db) (hend : P s.complete.db) :
    Relation.ReflTransGen (fun a b => Step F a b ∧ P b.db) s s.complete := by
  have hran := Sys.ran_steps F s hP
  unfold Sys.complete at hend ⊢
  split at hend
  · exact Relation.ReflTransGen.refl
  · rename_i k p hm
    exact hran.tail ⟨Step.mainEnd s.ran k _ _ (Sys.ran_main hm), hend⟩

theorem steps_of_where (h : Relation.ReflTransGen (fun a b => Step F a b ∧ P b.db) s s') :
    Relation.ReflTransGen (Step F) s s' := by
  have hmono : Relation.ReflTransGen (fun a b => Step F a b ∧ P b.db) ≤
      Relation.ReflTransGen (Step F) := Relation.ReflTransGen.mono fun _ _ hstep => hstep.1
  exact hmono s s' h

theorem steps_of_open (h : OpenRun F s s') : Relation.ReflTransGen (Step F) s s' :=
  steps_of_where (P := fun db => db.closed = false) h

theorem Sys.ran_run (F : Faults) (s : Sys) : Relation.ReflTransGen (Step F) s s.ran := by
  have hran := Sys.ran_steps F s (P := fun _ => True) trivial
  exact steps_of_where (P := fun _ => True) hran

theorem Sys.complete_run (F : Faults) (s : Sys) : Relation.ReflTransGen (Step F) s s.complete := by
  have hrun := Sys.complete_steps F s (P := fun _ => True) trivial trivial
  exact steps_of_where (P := fun _ => True) hrun

def Sys.callOpen (s : Sys) : Sys :=
  Sys.complete { s with present := true, main := some (.opening, s.db.open) }

def Sys.callWrite (s : Sys) (batch : WriteBatch) : Sys :=
  Sys.complete { s with
    main := some (.writing ⟨s.db.lastSequence + 1, batch⟩, s.db.write batch)
    inflight := some ⟨s.db.lastSequence + 1, batch⟩ }

theorem Sys.callOpen_steps (hm : s.main = none) (hc : s.db.closed = true)
    (hok : DB.checkOpen s.db.options s.present = .ok) :
    Relation.ReflTransGen (Step F) s s.callOpen :=
  Relation.ReflTransGen.head (Step.openBegin s hm hc hok) (Sys.complete_run F _)

/-- The open database runs no section and lets the batch in. -/
def Sys.Takes (s : Sys) (batch : WriteBatch) : Prop :=
  s.main.isNone ∧ s.closing.isNone ∧ s.db.closed = false ∧ s.db.checkWrite batch = .ok

instance (s : Sys) (batch : WriteBatch) : Decidable (s.Takes batch) :=
  inferInstanceAs (Decidable (_ ∧ _))

section

variable {batch : WriteBatch}

theorem Sys.Takes.main (h : s.Takes batch) : s.main = none := Option.isNone_iff_eq_none.mp h.1

theorem Sys.Takes.isOpen (h : s.Takes batch) : s.db.closed = false := h.2.2.1

theorem Sys.Takes.step (h : s.Takes batch) (hne : batch ≠ []) :
    Step F s { s with
      main := some (.writing ⟨s.db.lastSequence + 1, batch⟩, s.db.write batch)
      inflight := some ⟨s.db.lastSequence + 1, batch⟩ } :=
  Step.writeBegin s batch h.main (Option.isNone_iff_eq_none.mp h.2.1) hne h.2.2.2

theorem Sys.callWrite_steps (h : s.Takes batch) (hne : batch ≠ [])
    (hend : (s.callWrite batch).db.closed = false) : OpenRun F s (s.callWrite batch) :=
  Relation.ReflTransGen.head ⟨h.step hne, h.isOpen⟩
    (Sys.complete_steps F _ (P := fun db => db.closed = false) h.isOpen hend)

theorem Sys.callWrite_run (h : s.Takes batch) (hne : batch ≠ []) :
    Relation.ReflTransGen (Step F) s (s.callWrite batch) :=
  Relation.ReflTransGen.head (h.step hne) (Sys.complete_run F _)

end

/-! ## Sections that stop or fail -/

/-- Everything may fail but the closed files. -/
def Faults.all : Faults := ⟨fun _ _ => True, fun _ => True, True, False⟩

/-- What a failed operation leaves here: of an append the first `m` cells. -/
def failedAt (m : Nat) : Op FileName Cell → Dir → Dir
  | .append f xs, dir => (Op.append f (xs.take m)).exec dir
  | _, dir => dir

/-- A program behind `n` file operations that succeed and, with `cut`, one that fails. -/
def stoppedAfter {ρ : Type} (cut : Option Nat) : Nat → Prog ρ → Dir → Dir × Prog ρ
  | _, .ret r, dir => (dir, .ret r)
  | n, .look k, dir => stoppedAfter cut n (k dir) dir
  | n + 1, .op o k, dir => stoppedAfter cut n (k true) (o.exec dir)
  | 0, .op o k, dir =>
    match cut with
    | none => (dir, .op o k)
    | some m => (failedAt m o dir, k false)

def Sys.stopAfter (s : Sys) (cut : Option Nat) (n : Nat) : Sys :=
  match s.main with
  | none => s
  | some (k, p) =>
    { s with
      dir := (stoppedAfter cut n p s.dir).1
      main := some (k, (stoppedAfter cut n p s.dir).2) }

theorem failedAt_fails (m : Nat) (o : Op FileName Cell) (dir : Dir) :
    o.Fails dir (failedAt m o dir) := by
  cases o with
  | append f xs => exact Or.inr (Or.inr ⟨f, xs, xs.take m, rfl, List.take_prefix m xs, rfl⟩)
  | _ => exact Or.inl rfl

theorem Sys.stopAfter_steps (s : Sys) (cut : Option Nat) (n : Nat)
    (hcut : cut = none ∨ ∀ k o, F.section_ k o) (hP : P s.db) :
    Relation.ReflTransGen (fun a b => Step F a b ∧ P b.db) s (s.stopAfter cut n) := by
  unfold Sys.stopAfter
  split
  · exact Relation.ReflTransGen.refl
  · rename_i k p hm
    induction p generalizing s n with
    | ret r =>
      have hsame : s = { s with dir := s.dir, main := some (k, .ret r) } := by rw [← hm]
      cases n <;> rw [stoppedAfter, ← hsame]
    | look f ih =>
      have hstep : Step F s { s with dir := s.dir, main := some (k, f s.dir) } :=
        Step.mainStep s k _ _ s.dir hm (ProgStep.look f s.dir)
      have hrest := ih s.dir { s with dir := s.dir, main := some (k, f s.dir) } n hP rfl
      cases n <;> exact Relation.ReflTransGen.head ⟨hstep, hP⟩ hrest
    | op o f ih =>
      cases n with
      | succ n =>
        have hstep := Step.mainStep (F := F) s k _ _ _ hm (ProgStep.exec o f s.dir)
        exact Relation.ReflTransGen.head ⟨hstep, hP⟩
          (ih true { s with dir := o.exec s.dir, main := some (k, f true) } n hP rfl)
      | zero =>
        cases cut with
        | none =>
          have hsame : s = { s with dir := s.dir, main := some (k, .op o f) } := by rw [← hm]
          rw [stoppedAfter, ← hsame]
        | some m =>
          have hfault := hcut.resolve_left (Option.some_ne_none m)
          exact Relation.ReflTransGen.single ⟨Step.mainStep s k _ _ _ hm
            (ProgStep.fail o f s.dir _ (hfault k o) (failedAt_fails m o s.dir)), hP⟩

/-! ## The background threads -/

/-- The next piece of work of the worker, when nobody else is at work. -/
def Sys.workerOn (s : Sys) : Sys :=
  match s.worker with
  | .idle =>
    match s.db.immutables, s.db.allocateFileNumber with
    | [], _ => if s.closing.isSome = true then { s with worker := .stopped } else s
    | imm :: _, .ok (number, next) =>
      if s.db.backgroundStatus = .ok then
        { s with
          db := next
          worker := .building imm number
            (DB.flushImmutableMemTable s.db.options number (s.db.memtable imm.memtable)) }
      else s
    | _ :: _, .error _ => s
  | .building imm number p =>
    let built := runOk p s.dir
    { s with
      dir := built.1
      main := some (.publishFlush imm number built.2, s.db.publishFlush imm number built.2)
      worker := .publishing }
  | .wantCompact oldest => { s with worker := .compacting oldest 4 }
  | .compacting oldest _ =>
    if s.db.needsCompaction = false then
      { s with worker := .sweeping oldest (removeObsoleteWALFiles oldest) }
    else s
  | .sweeping _ p =>
    let swept := runOk p s.dir
    { s with
      dir := swept.1
      db := if swept.2 ≠ .ok then s.db.setBackgroundError swept.2 else s.db
      worker := .idle }
  | .stopped =>
    match s.closing with
    | some moved => { s with main := some (.closing moved, s.db.endClose moved) }
    | none => s
  | _ => s

/-- The next piece of work, when every file operation succeeds. -/
def Sys.workOn (s : Sys) : Sys :=
  if s.main.isSome = true then s.complete
  else
    match s.compactor with
    | .building job p =>
      let built := runOk p s.dir
      match built.2 with
      | .error status =>
        { s with
          dir := built.1, compactor := .idle, worker := s.worker.compactionDone status }
      | .ok (output, t) =>
        { s with
          dir := built.1
          main := some (.publishCompaction job output t, s.db.publishCompaction job output t)
          compactor := .publishing }
    | .removing p =>
      let removed := runOk p s.dir
      { s with
        dir := removed.1, compactor := .idle, worker := s.worker.compactionDone removed.2 }
    | .publishing => s
    | .idle => s.workerOn

/-- Some pieces of work, up to the one that would close the database. -/
def Sys.settle : Nat → Sys → Sys
  | 0, s => s
  | n + 1, s => if s.workOn.db.closed = true then s else settle n s.workOn

section

variable (hm : s.main = none) (hc : s.compactor = .idle) (ho : s.db.closed = false)

include hm hc ho

theorem Sys.workerOn_steps : OpenRun F s s.workerOn := by
  unfold Sys.workerOn
  split
  · rename_i hw
    split
    · rename_i hi
      split
      · rename_i hcl
        exact Relation.ReflTransGen.single
          ⟨Step.workerStop s hm hw (Or.inl ⟨hi, hcl⟩), ho⟩
      · exact Relation.ReflTransGen.refl
    · rename_i imm rest number next hi ha
      split
      · rename_i hb
        refine Relation.ReflTransGen.single ⟨Step.flushStart s imm rest number next hm hw hi hb ha, ?_⟩
        obtain ⟨_, _, rfl⟩ := DB.allocateFileNumber_ok ha
        exact ho
      · exact Relation.ReflTransGen.refl
    · exact Relation.ReflTransGen.refl
  · rename_i imm number p hw
    have hbuild := runOk_lift (F := F) p s.dir
      (fun d q => { s with dir := d, worker := .building imm number q })
      (fun d q d' q' hq => Step.flushStep { s with dir := d, worker := .building imm number q }
        imm number q q' d' rfl hq) (P := fun db => db.closed = false) (fun _ _ => ho)
    have hstart : s = { s with dir := s.dir, worker := .building imm number p } := by rw [← hw]
    rw [← hstart] at hbuild
    exact hbuild.tail ⟨Step.publishFlushBegin { s with
      dir := (runOk p s.dir).1, worker := .building imm number (.ret (runOk p s.dir).2) } imm number
        _ hm rfl, ho⟩
  · rename_i oldest hw
    exact Relation.ReflTransGen.single ⟨Step.compactLock s oldest hw hc, ho⟩
  · rename_i oldest attempts hw
    split
    · rename_i hn
      exact Relation.ReflTransGen.single
        ⟨Step.compactEnough s oldest attempts hm hw hc (Or.inr (Or.inr hn)), ho⟩
    · exact Relation.ReflTransGen.refl
  · rename_i oldest p hw
    have hsweep := runOk_lift (F := F) p s.dir
      (fun d q => { s with dir := d, worker := .sweeping oldest q })
      (fun d q d' q' hq => Step.sweepStep { s with dir := d, worker := .sweeping oldest q }
        oldest q q' d' rfl hq) (P := fun db => db.closed = false) (fun _ _ => ho)
    have hstart : s = { s with dir := s.dir, worker := .sweeping oldest p } := by rw [← hw]
    rw [← hstart] at hsweep
    refine hsweep.tail ⟨Step.sweepEnd { s with
      dir := (runOk p s.dir).1, worker := .sweeping oldest (.ret (runOk p s.dir).2) } oldest _ hm rfl,
        ?_⟩
    dsimp only
    split
    · unfold DB.setBackgroundError
      split
      · exact ho
      · exact ho
    · exact ho
  · rename_i hw
    split
    · rename_i moved hcl
      exact Relation.ReflTransGen.single ⟨Step.closeEnd s moved hm hcl hw hc, ho⟩
    · exact Relation.ReflTransGen.refl
  · exact Relation.ReflTransGen.refl

end

theorem Sys.workOn_steps (ho : s.db.closed = false) (hend : s.workOn.db.closed = false) :
    OpenRun F s s.workOn := by
  unfold Sys.workOn at hend ⊢
  by_cases hmain : s.main.isSome = true
  · rw [if_pos hmain] at hend ⊢
    exact Sys.complete_steps F s (P := fun db => db.closed = false) ho hend
  · rw [if_neg hmain]
    have hm : s.main = none := by simpa using hmain
    split
    · rename_i job p hc
      have hbuild := runOk_lift (F := F) p s.dir
        (fun d q => { s with dir := d, compactor := .building job q })
        (fun d q d' q' hq => Step.buildStep { s with dir := d, compactor := .building job q }
          job q q' d' rfl hq) (P := fun db => db.closed = false) (fun _ _ => ho)
      have hstart : s = { s with dir := s.dir, compactor := .building job p } := by rw [← hc]
      rw [← hstart] at hbuild
      dsimp only
      generalize runOk p s.dir = built at hbuild
      obtain ⟨dir, result⟩ := built
      cases result with
      | error status =>
        exact hbuild.tail ⟨Step.buildFailed { s with
          dir := dir, compactor := .building job (.ret (.error status)) } job status rfl, ho⟩
      | ok out =>
        exact hbuild.tail ⟨Step.publishCompactionBegin { s with
          dir := dir, compactor := .building job (.ret (.ok out)) } job out.1 out.2 hm rfl, ho⟩
    · rename_i p hc
      have hremove := runOk_lift (F := F) p s.dir
        (fun d q => { s with dir := d, compactor := .removing q })
        (fun d q d' q' hq => Step.removeStep { s with dir := d, compactor := .removing q }
          q q' d' rfl hq) (P := fun db => db.closed = false) (fun _ _ => ho)
      have hstart : s = { s with dir := s.dir, compactor := .removing p } := by rw [← hc]
      rw [← hstart] at hremove
      exact hremove.tail ⟨Step.removeEnd { s with
        dir := (runOk p s.dir).1, compactor := .removing (.ret (runOk p s.dir).2) } _ rfl, ho⟩
    · exact Relation.ReflTransGen.refl
    · rename_i hc
      exact Sys.workerOn_steps hm hc ho

theorem Sys.settle_steps (n : Nat) (ho : s.db.closed = false) : OpenRun F s (s.settle n) := by
  induction n generalizing s with
  | zero => exact Relation.ReflTransGen.refl
  | succ n ih =>
    rw [Sys.settle]
    split
    · exact Relation.ReflTransGen.refl
    · rename_i hopen
      have hend : s.workOn.db.closed = false := by simpa using hopen
      exact (Sys.workOn_steps ho hend).trans (ih hend)

/-! ## Compact and Close -/

def Compactor.isIdle : Compactor → Bool
  | .idle => true
  | _ => false

theorem Compactor.eq_idle {c : Compactor} (h : c.isIdle = true) : c = .idle := by
  cases c with
  | idle => rfl
  | _ => cases h

def Sys.callCompact (s : Sys) : Sys :=
  if s.main.isNone = true ∧ s.compactor.isIdle = true ∧ s.worker.locksCompaction = false then
    match s.db.startCompaction with
    | .ok (job, next) => Sys.settle 4 { s with
        db := next, compactor := .building job (DB.buildCompaction s.db.options job) }
    | .error _ => s
  else s

def Sys.callClose (s : Sys) : Sys :=
  if s.main.isNone = true ∧ s.closing.isNone = true then
    Sys.settle 12 { s with db := s.db.beginClose.1, closing := some s.db.beginClose.2 }
  else s

theorem Sys.callCompact_steps (ho : s.db.closed = false) : OpenRun F s s.callCompact := by
  unfold Sys.callCompact
  split
  · rename_i hfree
    obtain ⟨hm, hc, hl⟩ := hfree
    split
    · rename_i job next hs
      have hnext : next.closed = false := by
        obtain ⟨_, _, rfl⟩ := DB.allocateFileNumber_ok (startCompaction_ok hs).number
        exact ho
      exact Relation.ReflTransGen.head ⟨Step.compactPublic s job next
        (Option.isNone_iff_eq_none.mp hm) (Compactor.eq_idle hc) hl hs, hnext⟩
        (Sys.settle_steps 4 hnext)
    · exact Relation.ReflTransGen.refl
  · exact Relation.ReflTransGen.refl

def Sys.closeResult (s : Sys) : Option (Bool × Status) :=
  match s.main with
  | some (.closing moved, p) => some (moved, (runOk p s.dir).2.2)
  | _ => none

def Sys.switchResult (s : Sys) : Option Status :=
  match s.main with
  | some (.switching, p) => some (runOk p s.dir).2.2
  | _ => none

theorem Sys.ran_switching {status : Status} (h : s.switchResult = some status) :
    ∃ db, s.ran.main = some (.switching, .ret (db, status)) := by
  unfold Sys.switchResult at h
  split at h
  · rename_i p hm
    cases h
    exact ⟨_, Sys.ran_main hm⟩
  · cases h

/-! ## Runs of a small database -/

/-- Crashes and failures of the background threads. -/
def Faults.crashes : Faults := ⟨fun _ _ => False, fun _ => True, True, False⟩

/-- Nothing but crashes. -/
def Faults.crashOnly : Faults := ⟨fun _ _ => False, fun _ => False, True, False⟩

theorem Faults.crashes_steady : Faults.crashes.Steady := ⟨fun _ _ h => h, fun h => h⟩

def putBatch : WriteBatch := [.put (ascii "k") (ascii "v")]

def deleteBatch : WriteBatch := [.delete (ascii "k")]

def otherBatch : WriteBatch := [.put (ascii "z") (ascii "w")]

namespace Sys

def fresh : Sys := (Sys.init { dbPath := ascii "db" }).callOpen

def started : Sys := fresh.callWrite putBatch

/-- A database whose memtables hold one entry, with one key in a switched memtable. -/
def full : Sys :=
  ((Sys.init { dbPath := ascii "db", memtableEntriesLimit := 1 }).callOpen.callWrite putBatch).complete

def flushed : Sys := full.settle 8

/-- The table has been compacted to level 1, and so has one of another key. -/
def layered : Sys := ((flushed.callCompact.callWrite otherBatch).settle 8).callCompact

def snapped : Sys := { layered with db := layered.db.getSnapshot }

/-- The first key has been deleted, flushed and compacted behind the snapshot. -/
def rewritten : Sys := ((snapped.callWrite deleteBatch).settle 8).callCompact

/-- The machine crashes after a third batch is in the log and takes all that was not synced. -/
def crashed : Sys :=
  (layered.callWrite deleteBatch).restart (layered.callWrite deleteBatch).dir.unsyncedLost
    { dbPath := ascii "db" }

def reopening : Sys := { crashed with present := true, main := some (.opening, crashed.db.open) }

def recovered : DB × Status := runOk crashed.db.open reopening.dir |>.2

def stopping : Sys := started.callClose

/-- The memtable is full, and the log of the next one cannot be opened. -/
def switchStopped : Sys :=
  ((Sys.init { dbPath := ascii "db", memtableEntriesLimit := 1 }).callOpen.callWrite
    putBatch).stopAfter (some 0) 0

/-- The very first `Open` has created `MANIFEST` when the machine crashes. -/
def bornDead : Sys :=
  let opening : Sys := { Sys.init { dbPath := ascii "db" } with
    present := true, main := some (.opening, (DB.new { dbPath := ascii "db" }).open) }
  (opening.stopAfter none 1).restart (opening.stopAfter none 1).dir.unsyncedLost
    { dbPath := ascii "db" }

def refused : Sys := { bornDead with main := some (.opening, bornDead.db.open) }

/-- What the calls of the runs meet, and that the database stays open. -/
theorem runs_take : fresh.Takes putBatch ∧ started.Takes deleteBatch ∧
    (started.callWrite deleteBatch).db.closed = false ∧
    (Sys.init { dbPath := ascii "db", memtableEntriesLimit := 1 }).callOpen.Takes putBatch ∧
    full.Takes otherBatch ∧ flushed.callCompact.Takes otherBatch ∧
    (flushed.callCompact.callWrite otherBatch).db.closed = false ∧ layered.Takes deleteBatch ∧
    snapped.Takes deleteBatch ∧ (snapped.callWrite deleteBatch).db.closed = false := by
  decide +kernel

theorem layered_has : layered.acked = 2 ∧ layered.history.length = 2 ∧
    layered.db.edit.sstables.map (·.level) = [1, 1] ∧ layered.db.sstables.length = 2 := by
  decide +kernel

theorem runs_end : switchStopped.switchResult = some (.ioError "failed to open WAL for append") ∧
    recovered.2 = .ok ∧ reopening.inflight = none ∧ stopping.closeResult = some (true, .ok) ∧
    (runOk bornDead.db.open refused.dir).2.2 =
      .corruption "MANIFEST is not a record edit log" := by
  decide +kernel

end Sys

theorem Reachable.openState (h : Reachable Faults.crashes s) (ho : s.db.closed = false) :
    OpenState F s :=
  ⟨Faults.crashes, s, Faults.crashes_steady, h, ho, Relation.ReflTransGen.refl⟩

theorem open_of_steps (h : OpenRun F s s') (ho : s.db.closed = false) : s'.db.closed = false := by
  cases h with
  | refl => exact ho
  | tail _ hstep => exact hstep.2

namespace Sys

theorem full_takes : full.Takes otherBatch := runs_take.2.2.2.2.1

theorem full_written (F : Faults) : Reachable F
    ((Sys.init { dbPath := ascii "db", memtableEntriesLimit := 1 }).callOpen.callWrite putBatch) := by
  have hopen : Reachable F (Sys.init { dbPath := ascii "db", memtableEntriesLimit := 1 }).callOpen :=
    (Reachable.init _).steps (callOpen_steps rfl rfl rfl)
  exact hopen.steps (callWrite_run runs_take.2.2.2.1 (List.cons_ne_nil _ _))

theorem full_reachable (F : Faults) : Reachable F full :=
  (full_written F).steps (complete_run F _)

theorem layered_takes : layered.Takes deleteBatch := runs_take.2.2.2.2.2.2.2.1

theorem flushed_steps : OpenRun F full flushed.callCompact := by
  have hflush := settle_steps (F := F) 8 full_takes.isOpen
  exact hflush.trans (callCompact_steps (open_of_steps hflush full_takes.isOpen))

theorem layered_reachable (F : Faults) : Reachable F layered := by
  obtain ⟨_, _, _, _, _, htakes, hopen, _⟩ := runs_take
  have hwrite := callWrite_steps (F := F) htakes (List.cons_ne_nil _ _) hopen
  have hflush := hwrite.trans (settle_steps 8 hopen)
  have hsteps := hflush.trans (callCompact_steps (open_of_steps hflush htakes.isOpen))
  have hcompacted := (full_reachable F).steps (steps_of_open flushed_steps)
  exact hcompacted.steps (steps_of_open hsteps)

theorem layered_openState (F : Faults) : OpenState F layered :=
  (layered_reachable _).openState layered_takes.isOpen

theorem snapped_openState (F : Faults) : OpenState F snapped :=
  (layered_openState F).step (Step.snapshot layered layered_takes.main)
    runs_take.2.2.2.2.2.2.2.2.1.isOpen

theorem rewritten_steps : OpenRun F snapped rewritten := by
  obtain ⟨_, _, _, _, _, _, _, _, htakes, hopen⟩ := runs_take
  have hflush := (callWrite_steps (F := F) htakes (List.cons_ne_nil _ _) hopen).trans
    (settle_steps 8 hopen)
  exact hflush.trans (callCompact_steps (open_of_steps hflush htakes.isOpen))

theorem reopening_main : reopening.main = some (.opening, crashed.db.open) := rfl

theorem reopening_ran_steps :
    Relation.ReflTransGen (Step Faults.crashes) layered reopening.ran := by
  have hwrite := callWrite_run (F := Faults.crashes) layered_takes (List.cons_ne_nil _ _)
  have hcrash : Step Faults.crashes (layered.callWrite deleteBatch) crashed :=
    Step.crash _ _ _ trivial (FS.unsyncedLost_crash _)
  exact ((hwrite.tail hcrash).tail (Step.openBegin crashed rfl rfl rfl)).trans (ran_run _ _)

theorem recovered_main :
    reopening.ran.main = some (.opening, .ret (recovered.1, recovered.2)) := by
  rw [ran_main reopening_main, recovered]

theorem switchStopped_reachable : Reachable Faults.all switchStopped.ran := by
  have hstop := stopAfter_steps (F := Faults.all)
    ((Sys.init { dbPath := ascii "db", memtableEntriesLimit := 1 }).callOpen.callWrite putBatch)
    (some 0) 0 (Or.inr fun _ _ => trivial) (P := fun _ => True) trivial
  have hsteps := steps_of_where (P := fun _ => True) hstop
  exact ((full_written _).steps hsteps).steps (ran_run Faults.all _)

theorem refused_reachable (hF : F.crash) : Reachable F refused.ran := by
  have hbegin := (Reachable.init (F := F) { dbPath := ascii "db" }).step
    (Step.openBegin _ rfl rfl rfl)
  have hfirst := stopAfter_steps (F := F) { Sys.init { dbPath := ascii "db" } with
    present := true, main := some (.opening, (DB.new { dbPath := ascii "db" }).open) }
    none 1 (Or.inl rfl) (P := fun _ => True) trivial
  have hdead : Reachable F bornDead :=
    (hbegin.steps (steps_of_where (P := fun _ => True) hfirst)).step
      (Step.crash _ _ _ hF (FS.unsyncedLost_crash _))
  exact (hdead.step (Step.openBegin bornDead rfl rfl rfl)).steps (ran_run F refused)

theorem refused_main : refused.ran.main =
    some (.opening, .ret ((runOk bornDead.db.open refused.dir).2.1,
      .corruption "MANIFEST is not a record edit log")) := by
  rw [ran_main (s := refused) rfl, runs_end.2.2.2.2]

end Sys

end KvMem
