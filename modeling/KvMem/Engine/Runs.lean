import KvMem.Engine.Closed

/-! # Whole runs

Every state of a run is that of a database that serves or of one that is closed, as
long as no file operation of a section fails. The background threads may fail at any
operation, and the machine may crash at any point. Along a run the history only grows.
-/

namespace KvMem

open CrashStore RecordLog FileProg Manifest

/-- No file operation of a section fails, neither in `Open`, `Write`, the switch of a memtable
and `Close` nor when a flush or a compaction is published; only those of builds, sweeps and
removals may. `MANIFEST` and `CURRENT` are not lost. -/
structure Faults.Steady (F : Faults) : Prop where
  sections : ∀ k o, ¬ F.section_ k o
  files : ¬ F.loss

def Serving (c : Prop) (s : Sys) : Prop :=
  ∃ L start floor m, Running s L start floor m ∧ Filed c s L m

/-- A closed database, perhaps one that is being opened. Under `b` it has been open
before. -/
structure Down (c b : Prop) (s : Sys) : Prop where
  closed : s.db.closed = true
  worker : s.worker = .stopped
  compactor : s.compactor = .idle
  closing : s.closing = none
  ambient : Ambient s.dir
  snapshots : ∀ x ∈ s.db.snapshots, x.active = false
  rest : s.main = none → AtRest c b s.history s.inflight.toList s.dir
  main : ∀ k p, s.main = some (k, p) → k = .opening ∧
    Safe (openRely fun d => c → Survivable c b s.history s.inflight.toList d)
      (OpenEnds c b s.history s.inflight.toList s.db) p s.dir

variable {c b : Prop} {s s' : Sys} {F : Faults}

/-! ## Crashes -/

variable {H I : List WALBatchRecord} {L : Log} {dir : Dir} {db : DB} {floor m : Nat}

theorem Resting.recoverable {e : VersionEdit} {log tail : Bytes} {T : List OpenTable} {P : Log}
    (h : Resting c H I dir e log tail T L P) :
    Recoverable c H I e.walFileNumber (T.map (·.fileNumber)) dir := by
  intro o ho
  exact ⟨_, h.manifest.always o ho, e, log, tail, rfl, h.logged, h.torn, Nat.le_refl _, T, L, P,
    h.stored, h.history, h.pending, fun _ ht => List.mem_map_of_mem ht⟩

theorem AtRest.survivable (h : AtRest c b H I dir) : c → Survivable c b H I dir := by
  rcases h with ⟨J, K, e, log, tail, T, L, P, hI, hrest⟩ | ⟨hb, rfl, rfl, hunborn⟩
  · exact Recoverable.survivable (fun _ => hrest.recoverable) hI
  · exact hunborn.survivable hb

theorem Down.restart (o : Options) (ha : Ambient dir)
    (h : AtRest c b s.history s.inflight.toList dir) : Down c b (s.restart dir o) where
  closed := rfl
  worker := rfl
  compactor := rfl
  closing := rfl
  ambient := ha
  snapshots := fun _ hx => by cases hx
  rest := fun _ => h
  main := fun k p hm => by cases hm

theorem Down.crash (h : Down c b s) (hc : c) (hcr : Crash s.dir dir) (o : Options) :
    Down c b (s.restart dir o) := by
  refine Down.restart o (h.ambient.crash hcr) ?_
  cases hm : s.main with
  | none => exact (h.rest hm).survivable hc dir hcr
  | some kp => exact ((h.main kp.1 kp.2 hm).2.crash h.ambient) hc dir hcr

theorem Serving.crash (h : Serving c s) (hc : c) {dir : Dir} (hcr : Crash s.dir dir) (o : Options) :
    Down c b (s.restart dir o) := by
  obtain ⟨L, start, floor, m, hrun, hf⟩ := h
  refine Down.restart o (hrun.ambient.crash hcr) ?_
  have hsurv : ∀ {I : List WALBatchRecord} {w : Nat} {live : List Nat}, s.inflight.toList = I →
      (c → Recoverable c L.records I w live s.dir) →
      AtRest c b s.history s.inflight.toList dir := by
    intro I w live hI hrec
    have hrec' : c → Recoverable c (L.records ++ []) I w live s.dir := by
      rw [List.append_nil]
      exact hrec
    rw [hI, ← hrun.records]
    exact Recoverable.survivable hrec' rfl hc dir hcr
  cases hm : s.main with
  | none =>
    have hI : s.inflight.toList = [] := by rw [hf.inflight_none hm]; rfl
    exact hsurv hI fun _ => (hf.quiet hm).recoverable hrun.contents hf.saved
      (fun t ht => mem_liveTables ht) (Nat.le_refl _)
  | some kp =>
    have hI : s.inflight.toList = kp.1.pending := by rw [hf.inflight, Sys.pending, hm]
    exact hsurv hI ((hf.main kp.1 kp.2 hm).crash hrun.ambient)

/-! ## A closed database -/

theorem checkWrite_open {batch : WriteBatch} (h : db.checkWrite batch = .ok) :
    db.closed = false := by
  unfold DB.checkWrite at h
  split at h
  · rename_i hbad
    exact absurd h hbad
  · split at h
    · cases h
    · rename_i hopen
      have hno : ¬ db.closed = true := fun hc => hopen (Or.inl hc)
      exact Bool.eq_false_of_not_eq_true hno

theorem serving_afterOpen (h : Down c b s)
    (hr : Reopened c s.history s.inflight.toList db L floor m s.dir) :
    Serving c (s.afterOpen db .ok) := by
  refine ⟨L, floor, floor, m, ?_, ?_⟩
  · simp only [Sys.afterOpen, if_true]
    exact
      { isOpen := hr.isOpen
        contents := hr.contents
        records := hr.records
        path := hr.path
        ambient := h.ambient
        unused := hr.unused
        places := hr.places
        tables := hr.tables
        wal := fun _ => hr.wal
        oldest := fun _ => hr.oldest
        fresh := by
          obtain ⟨a, _, hfloor, hlt, _⟩ := hr.wal
          show db.activeMemtableOldestWalFileNumber < db.nextFileNumber
          rw [hr.oldest]
          omega
        moved := fun hcl => by
          have hcl' : s.closing = some true := hcl
          rw [h.closing] at hcl'
          cases hcl'
        tight := fun _ => hr.tight
        worker := trivial
        compactor := by
          show CompactorOk db s.dir L floor _ s.compactor
          rw [h.compactor]
          trivial
        main := fun k p he => by cases he
        flushing := fun he => by cases he
        compacting := fun he => by
          have he' : s.compactor = .publishing := he
          rw [h.compactor] at he'
          cases he' }
  · simp only [Sys.afterOpen, if_true]
    refine ⟨hr.saved, fun _ => hr.held, (fun k p he => by cases he), rfl, fun _ => hr.exact, ?_⟩
    intro hcl
    have hcl' : s.closing = some false := hcl
    rw [h.closing] at hcl'
    cases hcl'

theorem Down.step (h : Down c b s) (hF : F.Steady) (hc : F.crash → c) (hs : Step F s s') :
    (Serving c s' ∨ Down c b s') ∧ s.history <+: s'.history := by
  have hsame : Down c b s' → s'.history = s.history →
      (Serving c s' ∨ Down c b s') ∧ s.history <+: s'.history :=
    fun hd he => ⟨Or.inr hd, by rw [he]⟩
  have hworker := h.worker
  have hcompactor := h.compactor
  cases hs with
  | openBegin hm hcl hok =>
    refine hsame { h with rest := (fun he => by cases he), main := ?_ } rfl
    intro k p he
    cases he
    exact ⟨rfl, open_safe (h.rest hm) h.snapshots⟩
  | writeBegin batch hm hcl hne hok =>
    have hopen := checkWrite_open hok
    rw [h.closed] at hopen
    cases hopen
  | mainStep k p p' dir hm hp =>
    obtain ⟨rfl, hsafe⟩ := h.main k p hm
    have hp' : ProgStep (fun _ => False) s.dir p dir p' := hp.mono fun o ho => hF.sections _ o ho
    have hamb : Ambient dir := by
      rcases hsafe.effect h.ambient hp' with rfl | ⟨o, hmay, hfails⟩
      · exact h.ambient
      · exact h.ambient.fails hmay hfails
    refine hsame { h with ambient := hamb, rest := (fun he => by cases he), main := ?_ } rfl
    intro k q he
    cases he
    exact ⟨rfl, hsafe.step h.ambient hp'⟩
  | mainEnd k db st hm =>
    obtain ⟨rfl, hsafe⟩ := h.main k _ hm
    rcases hsafe.done h.ambient with ⟨hok, L, floor, m, hre⟩ |
        ⟨hbad, hcl, hsnap, hb, hhist, hinf, htorn⟩
    · have hst : st = .ok := hok
      subst hst
      refine ⟨Or.inl (serving_afterOpen h hre), ?_⟩
      show s.history <+: (s.afterOpen db .ok).history
      simp only [Sys.afterOpen, if_true]
      rw [← hre.records]
      exact hre.kept
    · have hst : st ≠ .ok := hbad
      have hend : s.finish .opening db st = { s with
          db := db, main := none, caches := Function.update s.caches db.cache db.blockCache } :=
        if_neg hst
      have hsnap' : ∀ x ∈ db.snapshots, x.active = false := by
        rw [show db.snapshots = s.db.snapshots from hsnap]
        exact h.snapshots
      refine hsame ?_ (by rw [hend])
      rw [hend]
      exact { h with
        closed := hcl, snapshots := hsnap'
        rest := fun _ => Or.inr ⟨hb, hhist, hinf, Or.inr htorn⟩
        main := fun k p he => by cases he }
  | flushStart imm rest number next hm hw hi hb ha =>
    rw [hworker] at hw
    cases hw
  | flushExhausted e hm hw hi hb ha =>
    rw [hworker] at hw
    cases hw
  | workerStop hm hw hstop =>
    rw [hworker] at hw
    cases hw
  | flushStep imm number p p' dir hw hp =>
    rw [hworker] at hw
    cases hw
  | publishFlushBegin imm number result hm hw =>
    rw [hworker] at hw
    cases hw
  | compactLock oldest hw hc =>
    rw [hworker] at hw
    cases hw
  | compactEnough oldest attempts hm hw hc hn =>
    rw [hworker] at hw
    cases hw
  | compactBegin oldest attempts job next hm hw hc hn hs =>
    rw [hworker] at hw
    cases hw
  | compactNothing oldest attempts status hm hw hc hn hs =>
    rw [hworker] at hw
    cases hw
  | compactFailed oldest status hm hw =>
    rw [hworker] at hw
    cases hw
  | sweepStep oldest p p' dir hw hp =>
    rw [hworker] at hw
    cases hw
  | sweepEnd oldest status hm hw =>
    rw [hworker] at hw
    cases hw
  | compactPublic job next hm hc hl hs =>
    have hopen := (startCompaction_ok hs).isOpen
    rw [h.closed] at hopen
    cases hopen
  | buildStep job p p' dir hc hp =>
    rw [hcompactor] at hc
    cases hc
  | buildFailed job status hc =>
    rw [hcompactor] at hc
    cases hc
  | publishCompactionBegin job output t hm hc =>
    rw [hcompactor] at hc
    cases hc
  | removeStep p p' dir hc hp =>
    rw [hcompactor] at hc
    cases hc
  | removeEnd status hc =>
    rw [hcompactor] at hc
    cases hc
  | closeBegin hm hcl ho =>
    rw [h.closed] at ho
    cases ho
  | closeEnd moved hm hcl hw hc =>
    rw [h.closing] at hcl
    cases hcl
  | snapshot hm =>
    have hgone : s.db.getSnapshot = s.db := if_pos h.closed
    refine hsame ?_ rfl
    rw [hgone]
    exact h
  | release i hm =>
    refine hsame { h with snapshots := ?_, main := ?_ } rfl
    · intro x hx
      have hx' : x ∈ s.db.snapshots.modify i fun y => { y with active := false } := hx
      by_contra hact
      have hact' : x.active = true := Bool.eq_true_of_not_eq_false hact
      have hold := h.snapshots x (mem_modify_inactive hx' hact')
      rw [hact'] at hold
      cases hold
    · intro k p he
      have he' : s.main = some (k, p) := he
      rw [hm] at he'
      cases he'
  | readBlock t item failure hh hi => exact hsame { h with } rfl
  | construct o hm hcl =>
    refine hsame { h with closed := rfl, snapshots := (fun _ hx => by cases hx), main := ?_ } rfl
    intro k p he
    have he' : s.main = some (k, p) := he
    rw [hm] at he'
    cases he'
  | crash dir o hcr hd => exact hsame (h.crash (hc hcr) hd o) rfl
  | lose dir hl hm hcl hgone hrest => exact (hF.files hl).elim

/-! ## An open database -/

theorem down_closed {start : Nat} (h : Running s L start floor m) (hf : Filed c s L m)
    {moved : Bool} {st : Status} (hm : s.main = some (.closing moved, .ret (db, st))) :
    Down c b (s.finish (.closing moved) db st) := by
  have hsec := h.main _ _ hm
  have hends : s.db.Closes (db, st) := hsec.ends
  obtain ⟨e, log, tail, T, hrest, _⟩ := (hf.main _ _ hm).done h.ambient
  have hinf : s.inflight.toList = [] := by rw [hf.inflight, Sys.pending, hm]; rfl
  refine ⟨hends.closed, hsec.sound.1, hsec.sound.2.1, rfl, h.ambient, hends.snapshots, fun _ => Or.inl ?_,
    fun k p he => by cases he⟩
  refine ⟨[], [], e, log, tail, T, L, [], hinf.symm, ?_⟩
  rw [List.append_nil]
  show Resting c s.history [] s.dir e log tail T L []
  rw [← h.records]
  exact hrest

theorem Serving.step (h : Serving c s) (hF : F.Steady) (hc : F.crash → c) (hs : Step F s s') :
    (Serving c s' ∨ Down c b s') ∧ s.history <+: s'.history := by
  have hcrash := h.crash (b := b)
  obtain ⟨L, start, floor, m, hrun, hf⟩ := h
  have hgo : ∀ {L' : Log} {start' floor' m' : Nat}, L <+: L' → Running s' L' start' floor' m' →
      Filed c s' L' m' → (Serving c s' ∨ Down c b s') ∧ s.history <+: s'.history := by
    intro L' start' floor' m' hpre hrun' hf'
    refine ⟨Or.inl ⟨L', start', floor', m', hrun', hf'⟩, ?_⟩
    rw [← hrun.records, ← hrun'.records]
    exact hpre.map Prod.snd
  have hsame : Running s' L start floor m → Filed c s' L m →
      (Serving c s' ∨ Down c b s') ∧ s.history <+: s'.history := hgo List.prefix_rfl
  cases hs with
  | openBegin hm hcl hok =>
    rw [hrun.isOpen] at hcl
    cases hcl
  | writeBegin batch hm hcl hne hok =>
    exact hsame ((hrun.writeBegin hm hcl hne hok).ghost _ _ _) (hf.writeBegin hrun hm hcl hne hok)
  | mainStep k p p' dir hm hp =>
    exact hsame (hrun.mainStep hm hp) (hf.mainStep hrun hm (hF.sections k) hp)
  | mainEnd k db st hm =>
    by_cases hk : ∃ moved, k = .closing moved
    · obtain ⟨moved, rfl⟩ := hk
      exact ⟨Or.inr (down_closed hrun hf hm), List.prefix_rfl⟩
    · obtain ⟨L', start', floor', m', hpre, hrun', hf'⟩ :=
        hf.mainEnd hrun hm fun moved he => hk ⟨moved, he⟩
      exact hgo hpre hrun' hf'
  | flushStart imm rest number next hm hw hi hb ha =>
    exact hsame (hrun.flushStart hm hi ha) (hf.allocated hm ha)
  | flushExhausted e hm hw hi hb ha =>
    exact hsame (hrun.workerLatched hm (DB.latched_setBackgroundError _ _) trivial (by simp)
      (by simp)) (hf.latched hm (DB.latched_setBackgroundError _ _))
  | workerStop hm hw hstop => exact hsame (hrun.workerStop hw) (hf.move hrun)
  | flushStep imm number p p' dir hw hp => exact hsame (hrun.flushStep hw hp) (hf.flushStep hrun hw hp)
  | publishFlushBegin imm number result hm hw =>
    exact hsame (hrun.publishFlushBegin hm hw) (hf.publishFlushBegin hrun hm hw)
  | compactLock oldest hw hc => exact hsame (hrun.compactLock hw) (hf.move hrun)
  | compactEnough oldest attempts hm hw hc hn => exact hsame (hrun.compactEnough hw) (hf.move hrun)
  | compactBegin oldest attempts job next hm hw hc hn hs =>
    exact hsame (hrun.compactStart hm hs) (hf.allocated hm (startCompaction_ok hs).number)
  | compactNothing oldest attempts status hm hw hc hn hs =>
    exact hsame (hrun.compactionDone status (Or.inl rfl)) (hf.move hrun)
  | compactFailed oldest status hm hw =>
    have hwork := hrun.worker
    rw [hw] at hwork
    exact hsame (hrun.workerLatched hm (DB.latched_setBackgroundError _ _)
      ⟨hwork, sweep_safe oldest s.dir⟩ (by simp) (by simp))
      (hf.latched hm (DB.latched_setBackgroundError _ _))
  | sweepStep oldest p p' dir hw hp => exact hsame (hrun.sweepStep hw hp) (hf.sweepStep hrun hw hp)
  | sweepEnd oldest status hm hw =>
    have hl : DB.Latched s.db
        (if status ≠ .ok then s.db.setBackgroundError status else s.db) := by
      split
      · exact DB.latched_setBackgroundError _ _
      · exact DB.Latched.refl _
    exact hsame (hrun.workerLatched hm hl trivial (by simp) (by simp)) (hf.latched hm hl)
  | compactPublic job next hm hc hl hs => exact hsame (hrun.compactStart hm hs) (hf.allocated hm (startCompaction_ok hs).number)
  | buildStep job p p' dir hc hp => exact hsame (hrun.buildStep hc hp) (hf.buildStep hrun hc hp)
  | buildFailed job status hc =>
    exact hsame (hrun.compactionDone status (Or.inr ⟨rfl, by rw [hc]; simp⟩)) (hf.move hrun)
  | publishCompactionBegin job output t hm hc =>
    exact hsame (hrun.publishCompactionBegin hm hc) (hf.publishCompactionBegin hrun hm hc)
  | removeStep p p' dir hc hp => exact hsame (hrun.removeStep hc hp) (hf.removeStep hrun hc hp)
  | removeEnd status hc =>
    exact hsame (hrun.compactionDone status (Or.inr ⟨rfl, by rw [hc]; simp⟩)) (hf.move hrun)
  | closeBegin hm hcl hopen =>
    obtain ⟨floor', _, _, _, hrun'⟩ := hrun.closeBegin hm hcl
    exact hgo List.prefix_rfl hrun' (hf.closeBegin hm hcl)
  | closeEnd moved hm hcl hw hc =>
    exact hsame (hrun.closeEnd hm hcl hw hc) (hf.closeEnd hrun hm hcl)
  | snapshot hm =>
    refine hsame (hrun.snapshot hm) ?_
    unfold DB.getSnapshot
    split
    · exact hf
    · exact hf.snapshots hm _
  | release i hm => exact hsame (hrun.release hm i) (hf.snapshots hm _)
  | readBlock t item failure hh hi => exact hsame (hrun.ghost _ _ _) { hf with }
  | construct o hm hcl =>
    rw [hrun.isOpen] at hcl
    cases hcl
  | crash dir o hcr hd => exact ⟨Or.inr (hcrash (hc hcr) hd o), List.prefix_rfl⟩
  | lose dir hl hm hcl hgone hrest => exact (hF.files hl).elim

/-! ## Reachable states -/

theorem down_init (c : Prop) (o : Options) : Down c False (Sys.init o) where
  closed := rfl
  worker := rfl
  compactor := rfl
  closing := rfl
  ambient := ambient_empty
  snapshots := fun _ hx => by cases hx
  rest := fun _ => Or.inr ⟨id, rfl, rfl, Or.inl fun _ => ⟨rfl, fun _ _ ho => ho⟩⟩
  main := fun k p hm => by cases hm

theorem step_alive (hF : F.Steady) (h : Serving F.crash s ∨ Down F.crash b s) (hs : Step F s s') :
    (Serving F.crash s' ∨ Down F.crash b s') ∧ s.history <+: s'.history :=
  h.elim (fun h => h.step hF id hs) fun h => h.step hF id hs

theorem Reachable.alive (hF : F.Steady) (h : Reachable F s) :
    Serving F.crash s ∨ Down F.crash False s :=
  h.invariant (I := fun s => Serving F.crash s ∨ Down F.crash False s)
    (fun o => Or.inr (down_init F.crash o)) fun _ _ _ hi hs => (step_alive hF hi hs).1

theorem steps_alive (hF : F.Steady) (h : Serving F.crash s ∨ Down F.crash b s)
    (hs : Relation.ReflTransGen (Step F) s s') :
    (Serving F.crash s' ∨ Down F.crash b s') ∧ s.history <+: s'.history := by
  induction hs with
  | refl => exact ⟨h, List.prefix_rfl⟩
  | tail _ hstep ih =>
    have hnext := step_alive hF ih.1 hstep
    exact ⟨hnext.1, ih.2.trans hnext.2⟩

theorem Reachable.serving (hF : F.Steady) (h : Reachable F s) (ho : s.db.closed = false) :
    Serving F.crash s := by
  rcases h.alive hF with hserve | hdown
  · exact hserve
  · rw [hdown.closed] at ho
    cases ho

/-- Steps of an open database. -/
abbrev OpenRun (F : Faults) : Sys → Sys → Prop :=
  Relation.ReflTransGen fun a b => Step F a b ∧ b.db.closed = false

/-- An open database: the run up to some point of its open period was steady, so all earlier
periods were, and from there on the file operations of sections may fail as well. -/
def OpenState (F : Faults) (s : Sys) : Prop :=
  ∃ F₀ s₀, F₀.Steady ∧ Reachable F₀ s₀ ∧ s₀.db.closed = false ∧ OpenRun F s₀ s

theorem OpenState.running (h : OpenState F s) : ∃ L start floor m, Running s L start floor m := by
  obtain ⟨F₀, s₀, hF, hr, ho, hsteps⟩ := h
  obtain ⟨L, start, floor, m, hrun, _⟩ := hr.serving hF ho
  clear hr ho
  induction hsteps with
  | refl => exact ⟨L, start, floor, m, hrun⟩
  | tail _ hstep ih =>
    obtain ⟨L, start, floor, m, hrun⟩ := ih
    obtain ⟨L', start', floor', m', _, _, hrun'⟩ := hrun.step hstep.1 hstep.2
    exact ⟨L', start', floor', m', hrun'⟩

theorem OpenState.step (h : OpenState F s) (hs : Step F s s') (ho : s'.db.closed = false) :
    OpenState F s' := by
  obtain ⟨F₀, s₀, hF, hr, hopen, hrun⟩ := h
  exact ⟨F₀, s₀, hF, hr, hopen, hrun.tail ⟨hs, ho⟩⟩

theorem Reachable.steps (h : Reachable F s) (hs : Relation.ReflTransGen (Step F) s s') :
    Reachable F s' := by
  induction hs with
  | refl => exact h
  | tail _ hstep ih => exact ih.step hstep

end KvMem
