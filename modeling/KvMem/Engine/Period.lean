import KvMem.Engine.Running

/-! # An open period

Every step of an open database keeps its invariant, until `Close` has ended or the
machine has crashed. Any file operation of any thread may fail.
-/

namespace KvMem

open CrashStore FileProg

variable {s : Sys} {L : Log} {start floor m : Nat}

/-! ## File steps -/

section Files

variable {db : DB} {d d' : Dir} {next : Nat} {touched : FileName → Prop}

theorem WorkerOk.gentle {w : Worker} (h : WorkerOk db d w) (hg : Gentle next touched d d')
    (hne : ∀ imm n p, w = .building imm n p → ¬ touched (.sst n) ∧ ¬ touched (.sstTmp n)) :
    WorkerOk db d' w := by
  cases w with
  | stopped | idle | publishing | wantCompact _ | compacting _ _ | failed _ _ => exact h
  | building imm number prog =>
    obtain ⟨hsst, htmp⟩ := hne imm number prog rfl
    exact ⟨h.1, h.2.1, hg.build hsst htmp h.2.2⟩
  | sweeping oldest prog => exact ⟨h.1, hg.sweep h.2⟩

theorem CompactorOk.gentle {busy : Nat → Prop} {c : Compactor}
    (h : CompactorOk db d L start busy c) (hg : Gentle next touched d d')
    (hne : ∀ job p, c = .building job p → ¬ touched (.sst job.number) ∧
      ¬ touched (.sstTmp job.number)) : CompactorOk db d' L start busy c := by
  cases c with
  | idle | publishing => trivial
  | building job prog =>
    obtain ⟨hsst, htmp⟩ := hne job prog rfl
    exact ⟨h.1, h.2.1, h.2.2.1, hg.build hsst htmp h.2.2.2⟩
  | removing prog =>
    obtain ⟨ns, hns, hsafe⟩ := h
    exact ⟨ns, hns, hg.remove hsafe⟩

end Files

variable {c : Compactor} {dir : Dir} {w : Worker} {k : Section} {n : Nat}
  {p p' : Prog (DB × Status)} {fault : Op FileName Cell → Prop} {imm : ImmutableMemTable} {s' : Sys}
  {db' db : DB} {st : Status}

theorem Running.threads (h : Running s L start floor m) {mn : Option (Section × Prog (DB × Status))}
    (ha : Ambient dir) (hu : Unused s.db.nextFileNumber dir) (hw : WorkerOk s.db dir w)
    (hc : CompactorOk s.db dir L start
      (Sys.Flushing { s with dir := dir, worker := w, compactor := c, main := mn }) c)
    (hm : ∀ k p, mn = some (k, p) →
      SectionOk { s with dir := dir, worker := w, compactor := c, main := mn } L start k p)
    (hf : w = .publishing → ∃ imm n r p, mn = some (.publishFlush imm n r, p))
    (hp : c = .publishing → ∃ job output t p, mn = some (.publishCompaction job output t, p)) :
    Running { s with dir := dir, worker := w, compactor := c, main := mn } L start floor m :=
  { h with
    ambient := ha
    unused := hu
    worker := hw
    compactor := hc
    main := hm
    flushing := hf
    compacting := hp }

theorem Running.main_untouched (h : Running s L start floor m) (hm : s.main = some (k, p))
    (hn : mainName k (.sst n)) :
    n < s.db.nextFileNumber ∧ ¬ s.Flushing n ∧ ∀ job q, s.compactor ≠ .building job q := by
  have hs := (h.main k p hm).sound
  cases k with
  | publishCompaction job output t =>
    have he : n = job.number := hn
    obtain ⟨hc, _, hhanded, _, hno⟩ := hs
    subst he
    exact ⟨hhanded.lt, hno, fun job' q he => by rw [hc] at he; cases he⟩
  | opening | writing _ | switching | publishFlush _ _ _ | closing _ => exact hn.elim

theorem flushing_program (hm : s.main = some (k, p)) :
    Sys.Flushing { s with dir := dir, main := some (k, p') } n ↔ s.Flushing n := by
  refine or_congr Iff.rfl ?_
  rw [hm]
  constructor
  · rintro ⟨imm, r, q, hq⟩
    simp only [Option.some.injEq, Prod.mk.injEq] at hq
    exact ⟨imm, r, p, by rw [hq.1]⟩
  · rintro ⟨imm, r, q, hq⟩
    simp only [Option.some.injEq, Prod.mk.injEq] at hq
    exact ⟨imm, r, p', by rw [hq.1]⟩

theorem Running.mainStep (h : Running s L start floor m) (hm : s.main = some (k, p))
    (hp : ProgStep fault s.dir p dir p') :
    Running { s with dir := dir, main := some (k, p') } L start floor m := by
  have hsec := h.main k p hm
  have hg := main_gentle (fun n hn => (h.main_untouched hm hn).1) hsec.safe h.ambient hp
  have hflush : ∀ n, Sys.Flushing { s with dir := dir, main := some (k, p') } n ↔ s.Flushing n :=
    fun n => flushing_program hm
  refine h.threads hg.ambient (hg.unused h.unused) (h.worker.gentle hg ?_) ?_ ?_ ?_ ?_
  · intro imm n q hw
    exact ⟨fun hn => (h.main_untouched hm hn).2.1 (Or.inl ⟨imm, q, hw⟩), fun hn => hn.elim⟩
  · have hc := h.compactor.gentle hg (fun job q hc =>
      ⟨fun hn => (h.main_untouched hm hn).2.2 job q hc, fun hn => hn.elim⟩)
    exact hc.busy_mono fun n _ hn => (hflush n).mp hn
  · intro k' q hk
    simp only [Option.some.injEq, Prod.mk.injEq] at hk
    obtain ⟨rfl, rfl⟩ := hk
    refine ⟨hsec.safe.step h.ambient (hp.mono fun _ _ => trivial), hsec.ends.step hp, ?_⟩
    have hsound := hsec.sound
    cases k with
    | publishCompaction job output t =>
      exact ⟨hsound.1, hsound.2.1, hsound.2.2.1, hsound.2.2.2.1,
        fun hn => hsound.2.2.2.2 ((hflush _).mp hn)⟩
    | opening => exact hsound
    | writing r => exact hsound
    | switching => exact hsound
    | publishFlush imm number result => exact hsound
    | closing moved => exact hsound
  · intro hw
    obtain ⟨imm, n, r, q, hq⟩ := h.flushing hw
    rw [hm] at hq
    simp only [Option.some.injEq, Prod.mk.injEq] at hq
    exact ⟨imm, n, r, p', by rw [hq.1]⟩
  · intro hc
    obtain ⟨job, output, t, q, hq⟩ := h.compacting hc
    rw [hm] at hq
    simp only [Option.some.injEq, Prod.mk.injEq] at hq
    exact ⟨job, output, t, p', by rw [hq.1]⟩

/-- The sections do not see a step of another thread on names of its own. -/
theorem SectionOk.gentle (h : SectionOk s L start k p) {touched : FileName → Prop}
    (hg : Gentle s.db.nextFileNumber touched s.dir dir)
    (hedit : ¬ touched .current ∧ ¬ touched .currentTmp ∧ ¬ touched .manifest)
    (hwal : ∀ i, s.db.nextFileNumber ≤ i → ¬ touched (.wal i))
    (hsound : k.Sound { s with dir := dir, worker := w, compactor := c } L start) :
    SectionOk { s with dir := dir, worker := w, compactor := c } L start k p :=
  ⟨hg.main hedit hwal h.safe, h.ends, hsound⟩

theorem Section.Sound.threads (h : k.Sound s L start)
    (hw : s.worker = .publishing → w = .publishing) (hw' : s.worker = .stopped → w = .stopped)
    (hc : s.compactor = .publishing → c = .publishing) (hc' : s.compactor = .idle → c = .idle)
    (hb : ∀ imm n p, w = .building imm n p → ∃ imm p, s.worker = .building imm n p) :
    k.Sound { s with dir := dir, worker := w, compactor := c } L start := by
  cases k with
  | opening => exact h
  | writing r => exact h
  | switching => exact h
  | publishFlush imm number result => exact ⟨hw h.1, h.2⟩
  | publishCompaction job output t =>
    refine ⟨hc h.1, h.2.1, h.2.2.1, h.2.2.2.1, fun hf => h.2.2.2.2 ?_⟩
    rcases hf with ⟨imm, p, hp⟩ | hmain
    · exact Or.inl (hb imm _ p hp)
    · exact Or.inr hmain
  | closing moved => exact ⟨hw' h.1, hc' h.2.1, h.2.2⟩

section

variable (h : Running s L start floor m)

include h

theorem Running.flushStep {number : Nat}
    {p p' : Prog (Except Status TableFile)} (hw : s.worker = .building imm number p)
    (hp : ProgStep fault s.dir p dir p') :
    Running { s with dir := dir, worker := .building imm number p' } L start floor m := by
  have hwork := h.worker
  rw [hw] at hwork
  obtain ⟨hfront, hhanded, hsafe⟩ := hwork
  have hg := build_gentle hhanded.lt hsafe h.ambient hp
  refine h.threads hg.ambient (hg.unused h.unused)
    ⟨hfront, hhanded, hsafe.step h.ambient (hp.mono fun _ _ => trivial)⟩ ?_ ?_ ?_ ?_
  · have hc := h.compactor
    cases hcomp : s.compactor with
    | idle | publishing => trivial
    | building job q =>
      rw [hcomp] at hc
      have hne : job.number ≠ number := fun he => hc.2.2.1 (Or.inl ⟨imm, p, he ▸ hw⟩)
      refine (hc.gentle hg ?_).busy_mono ?_
      · intro job' q' he
        cases he
        refine ⟨?_, ?_⟩
        · rintro (he | he)
          · exact hne (FileName.sst.inj he)
          · cases he
        · rintro (he | he)
          · cases he
          · exact hne (FileName.sstTmp.inj he)
      · rintro n _ (⟨imm', q', he⟩ | hmain)
        · cases he
          exact Or.inl ⟨imm, p, hw⟩
        · exact Or.inr hmain
    | removing q =>
      rw [hcomp] at hc
      refine (hc.gentle hg fun job q' he => by cases he).busy_mono ?_
      rintro n _ (⟨imm', q', he⟩ | hmain)
      · cases he
        exact Or.inl ⟨imm, p, hw⟩
      · exact Or.inr hmain
  · intro k q hk
    have hsec := h.main k q hk
    refine hsec.gentle hg ⟨?_, ?_, ?_⟩ ?_ (hsec.sound.threads ?_ ?_ (fun he => he) (fun he => he) ?_)
    · rintro (he | he) <;> cases he
    · rintro (he | he) <;> cases he
    · rintro (he | he) <;> cases he
    · rintro i _ (he | he) <;> cases he
    · intro he
      rw [hw] at he
      cases he
    · intro he
      rw [hw] at he
      cases he
    · intro imm' n q' he
      cases he
      exact ⟨imm, p, hw⟩
  · intro he
    cases he
  · exact h.compacting

theorem Running.sweepStep {oldest : Nat} {p p' : Prog Status}
    (hw : s.worker = .sweeping oldest p) (hp : ProgStep fault s.dir p dir p') :
    Running { s with dir := dir, worker := .sweeping oldest p' } L start floor m := by
  have hwork := h.worker
  rw [hw] at hwork
  obtain ⟨hold, hsafe⟩ := hwork
  have hle : oldest ≤ s.db.nextFileNumber := by
    have := h.contents.walStart
    have := h.contents.start_le
    have := h.contents.floorNext
    omega
  have hg := sweep_gentle hle hsafe h.ambient hp
  have hsst : ∀ n, ¬ ∃ i, i < oldest ∧ FileName.sst n = .wal i := by
    rintro n ⟨i, _, he⟩
    cases he
  have htmp : ∀ n, ¬ ∃ i, i < oldest ∧ FileName.sstTmp n = .wal i := by
    rintro n ⟨i, _, he⟩
    cases he
  refine h.threads hg.ambient (hg.unused h.unused)
    ⟨hold, hsafe.step h.ambient (hp.mono fun _ _ => trivial)⟩ ?_ ?_ ?_ ?_
  · refine (h.compactor.gentle hg fun job q _ => ⟨hsst _, htmp _⟩).busy_mono ?_
    rintro n _ (⟨imm, q, he⟩ | hmain)
    · cases he
    · exact Or.inr hmain
  · intro k q hk
    have hsec := h.main k q hk
    refine hsec.gentle hg ⟨?_, ?_, ?_⟩ ?_ (hsec.sound.threads ?_ ?_ (fun he => he) (fun he => he) ?_)
    · rintro ⟨i, _, he⟩
      cases he
    · rintro ⟨i, _, he⟩
      cases he
    · rintro ⟨i, _, he⟩
      cases he
    · rintro i hi ⟨j, hj, he⟩
      have := FileName.wal.inj he
      omega
    · intro he
      rw [hw] at he
      cases he
    · intro he
      rw [hw] at he
      cases he
    · intro imm n q' he
      cases he
  · intro he
    cases he
  · exact h.compacting

theorem Running.buildStep {job : DB.CompactionJob}
    {p p' : Prog (Except Status (List VersionedEntry × TableFile))}
    (hc : s.compactor = .building job p) (hp : ProgStep fault s.dir p dir p') :
    Running { s with dir := dir, compactor := .building job p' } L start floor m := by
  have hcomp := h.compactor
  rw [hc] at hcomp
  obtain ⟨hj, hhanded, hbusy, hsafe⟩ := hcomp
  have hg := build_gentle hhanded.lt hsafe h.ambient hp
  refine h.threads hg.ambient (hg.unused h.unused) (h.worker.gentle hg ?_)
    ⟨hj, hhanded, hbusy, hsafe.step h.ambient (hp.mono fun _ _ => trivial)⟩ ?_ ?_ ?_
  · intro imm n q hw
    have hne : n ≠ job.number := fun he => hbusy (he ▸ Or.inl ⟨imm, q, hw⟩)
    refine ⟨?_, ?_⟩
    · rintro (he | he)
      · exact hne (FileName.sst.inj he)
      · cases he
    · rintro (he | he)
      · cases he
      · exact hne (FileName.sstTmp.inj he)
  · intro k q hk
    have hsec := h.main k q hk
    refine hsec.gentle hg ⟨?_, ?_, ?_⟩ ?_ (hsec.sound.threads (fun he => he) (fun he => he) ?_ ?_ ?_)
    · rintro (he | he) <;> cases he
    · rintro (he | he) <;> cases he
    · rintro (he | he) <;> cases he
    · rintro i _ (he | he) <;> cases he
    · intro he
      rw [hc] at he
      cases he
    · intro he
      rw [hc] at he
      cases he
    · exact fun imm n q' he => ⟨imm, q', he⟩
  · exact h.flushing
  · intro he
    cases he

theorem Running.removeStep {p p' : Prog Status}
    (hc : s.compactor = .removing p) (hp : ProgStep fault s.dir p dir p') :
    Running { s with dir := dir, compactor := .removing p' } L start floor m := by
  have hcomp := h.compactor
  rw [hc] at hcomp
  obtain ⟨ns, hns, hsafe⟩ := hcomp
  have hg := remove_gentle (fun n hn => (hns n hn).1) hsafe h.ambient hp
  refine h.threads hg.ambient (hg.unused h.unused) (h.worker.gentle hg ?_)
    ⟨ns, hns, hsafe.step h.ambient (hp.mono fun _ _ => trivial)⟩ ?_ ?_ ?_
  · intro imm n q hw
    refine ⟨?_, ?_⟩
    · rintro ⟨i, hi, he⟩
      exact (hns i hi).2.2 (FileName.sst.inj he ▸ Or.inl ⟨imm, q, hw⟩)
    · rintro ⟨i, _, he⟩
      cases he
  · intro k q hk
    have hsec := h.main k q hk
    refine hsec.gentle hg ⟨?_, ?_, ?_⟩ ?_ (hsec.sound.threads (fun he => he) (fun he => he) ?_ ?_ ?_)
    · rintro ⟨i, _, he⟩
      cases he
    · rintro ⟨i, _, he⟩
      cases he
    · rintro ⟨i, _, he⟩
      cases he
    · rintro i _ ⟨j, _, he⟩
      cases he
    · intro he
      rw [hc] at he
      cases he
    · intro he
      rw [hc] at he
      cases he
    · exact fun imm n q' he => ⟨imm, q', he⟩
  · exact h.flushing
  · intro he
    cases he

/-! ## Changes of the database -/

theorem Running.update {L' : Log} {start' floor' m' : Nat}
    {extra : Option Nat} (hdir : s'.dir = s.dir) (hopen : s'.db.closed = false)
    (hcontents : Contents s'.db L' start' floor' m') (hrecords : L'.records = s'.history)
    (hpath : s'.db.manifest.path = s.db.manifest.path) (hadv : DB.Advances extra s.db s'.db)
    (hextra : ∀ n, extra = some n → n < s.db.nextFileNumber)
    (hplaces : ∀ p ∈ L', p.1 < s'.db.nextFileNumber)
    (hwal : s'.closing ≠ some true → ∃ a, s'.db.wal = some a ∧ floor' ≤ a ∧
      a < s'.db.nextFileNumber ∧ ∀ p ∈ L', p.1 ≤ a)
    (hold : s'.closing ≠ some true → s'.db.activeMemtableOldestWalFileNumber = floor')
    (hfresh : s'.db.activeMemtableOldestWalFileNumber < s'.db.nextFileNumber)
    (hmoved : s'.closing = some true → L'.since floor' = [] ∧ s'.db.wal = none)
    (htight : s'.closing ≠ some true → L'.within s'.db.edit.walFileNumber start' = [])
    (hworker : WorkerOk s'.db s.dir s'.worker)
    (hcompactor : CompactorOk s'.db s.dir L' start' s'.Flushing s'.compactor)
    (hmain : s'.main = none) (hw : s'.worker ≠ .publishing) (hc : s'.compactor ≠ .publishing) :
    Running s' L' start' floor' m' where
  isOpen := hopen
  contents := hcontents
  records := hrecords
  path := hpath.trans h.path
  ambient := hdir ▸ h.ambient
  unused := hdir ▸ h.unused.mono hadv.next
  places := hplaces
  tables := by
    intro x hx
    rcases hadv.tables x hx with ⟨y, hy, heq⟩ | heq
    · have := h.tables y hy
      have := hadv.next
      omega
    · exact lt_of_lt_of_le (hextra _ heq) hadv.next
  wal := hwal
  oldest := hold
  fresh := hfresh
  moved := hmoved
  tight := htight
  worker := hdir ▸ hworker
  compactor := hdir ▸ hcompactor
  main := fun k p hk => by rw [hmain] at hk; cases hk
  flushing := fun he => absurd he hw
  compacting := fun he => absurd he hc

end

theorem flushing_of_none (hmain : s'.main = none)
    (hb : ∀ imm n p, s'.worker = .building imm n p → ∃ imm p, s.worker = .building imm n p)
    (hf : s'.Flushing n) : s.Flushing n := by
  rcases hf with ⟨imm, p, hp⟩ | ⟨imm, r, p, hp⟩
  · exact Or.inl (hb imm n p hp)
  · rw [hmain] at hp
    cases hp

theorem Running.agreeing (h : Running s L start floor m) (ha : s.db.Agrees db')
    (hwf : Manifest.WfEdit db'.edit) (ho : db'.options = s.db.options)
    (hcl : db'.closed = s.db.closed) (hp : db'.manifest.path = s.db.manifest.path)
    (hwal : db'.wal = s.db.wal) (hdb : s'.db = db') (hdir : s'.dir = s.dir)
    (hhist : s'.history = s.history) (hclosing : s'.closing = s.closing) (hmain : s'.main = none)
    (hworker : WorkerOk db' s.dir s'.worker)
    (hb : ∀ imm n p, s'.worker = .building imm n p → ∃ imm p, s.worker = .building imm n p)
    (hcomp : s'.compactor = s.compactor ∨ s'.compactor = .idle) (hw : s'.worker ≠ .publishing)
    (hc : s'.compactor ≠ .publishing) : Running s' L start floor m := by
  subst hdb
  have hadv := ha.advances ho
  refine h.update hdir (hcl.trans h.isOpen) (h.contents.agrees ha hwf) (h.records.trans hhist.symm)
    hp hadv (fun n hn => by cases hn) ?_ ?_ ?_ ?_ ?_ ?_ hworker ?_ hmain hw hc
  · exact fun p hp' => lt_of_lt_of_le (h.places p hp') ha.next
  · intro hne
    rw [hclosing] at hne
    obtain ⟨a, hsome, hfloor, hlt, hle⟩ := h.wal hne
    exact ⟨a, hwal.trans hsome, hfloor, lt_of_lt_of_le hlt ha.next, hle⟩
  · intro hne
    rw [hclosing] at hne
    rw [ha.oldest]
    exact h.oldest hne
  · rw [ha.oldest]
    exact lt_of_lt_of_le h.fresh ha.next
  · rw [hclosing, hwal]
    exact h.moved
  · rw [hclosing, ha.wal]
    exact h.tight
  · rcases hcomp with he | he <;> rw [he]
    · refine (h.compactor.advance hadv (fun n hn => by cases hn) fun job hj => hj.agrees ha).busy_mono ?_
      exact fun n _ hn => flushing_of_none hmain hb hn
    · trivial

theorem WorkerOk.congr (h : WorkerOk db dir w) (ha : db.Agrees db')
    (ho : db'.options = db.options) : WorkerOk db' dir w :=
  h.advance (ha.advances ho) ha.keepsQueue fun _ _ _ _ he => by cases he

theorem WorkerOk.compactionDone (h : WorkerOk db dir w) (st : Status) :
    WorkerOk db dir (w.compactionDone st) := by
  cases w with
  | compacting oldest attempts =>
    dsimp only [Worker.compactionDone]
    split
    · exact h
    · exact h
  | stopped | idle | publishing | building _ _ _ | wantCompact _ | failed _ _ | sweeping _ _ =>
    exact h

theorem building_of_compactionDone {p : Prog (Except Status TableFile)}
    (h : w.compactionDone st = .building imm n p) : w = .building imm n p := by
  cases w with
  | compacting oldest attempts =>
    dsimp only [Worker.compactionDone] at h
    split at h <;> cases h
  | stopped | idle | publishing | building _ _ _ | wantCompact _ | failed _ _ | sweeping _ _ =>
    exact h

theorem publishing_of_compactionDone (h : w.compactionDone st = .publishing) : w = .publishing := by
  cases w with
  | compacting oldest attempts =>
    dsimp only [Worker.compactionDone] at h
    split at h <;> cases h
  | stopped | idle | publishing | building _ _ _ | wantCompact _ | failed _ _ | sweeping _ _ =>
    exact h

/-! ## Ends of sections -/

section Ends

variable {db' : DB} {st : Status}

theorem Running.not_publishing (h : Running s L start floor m) {k : Section}
    {p : Prog (DB × Status)} (hm : s.main = some (k, p)) :
    ((∀ imm n r, k ≠ .publishFlush imm n r) → s.worker ≠ .publishing) ∧
      ((∀ job output t, k ≠ .publishCompaction job output t) → s.compactor ≠ .publishing) := by
  constructor
  · intro hne hw
    obtain ⟨imm, n, r, q, hq⟩ := h.flushing hw
    rw [hm] at hq
    simp only [Option.some.injEq, Prod.mk.injEq] at hq
    exact hne imm n r hq.1
  · intro hne hc
    obtain ⟨job, output, t, q, hq⟩ := h.compacting hc
    rw [hm] at hq
    simp only [Option.some.injEq, Prod.mk.injEq] at hq
    exact hne job output t hq.1

theorem Running.latched (h : Running s L start floor m) (s' : Sys) (hl : DB.Latched s.db db')
    (hdb : s'.db = db') (hdir : s'.dir = s.dir) (hhist : s'.history = s.history)
    (hclosing : s'.closing = s.closing) (hmain : s'.main = none)
    (hworker : WorkerOk s.db s.dir s'.worker)
    (hb : ∀ imm n p, s'.worker = .building imm n p → ∃ imm p, s.worker = .building imm n p)
    (hcomp : s'.compactor = s.compactor ∨ s'.compactor = .idle) (hw : s'.worker ≠ .publishing)
    (hc : s'.compactor ≠ .publishing) : Running s' L start floor m := by
  obtain ⟨st', rfl, hst⟩ := hl
  have ha : s.db.Agrees { s.db with backgroundStatus := st' } := DB.Latched.agrees ⟨st', rfl, hst⟩
  exact h.agreeing ha h.contents.edit rfl rfl rfl rfl hdb hdir hhist hclosing hmain
    (hworker.congr ha rfl) hb hcomp hw hc

variable {number : Nat} {t : TableFile}

theorem Running.opened (h : Running s L start floor m) (s' : Sys)
    (hl : DB.Latched (s.db.withOpened number t) db') (hdb : s'.db = db') (hdir : s'.dir = s.dir)
    (hhist : s'.history = s.history) (hclosing : s'.closing = s.closing) (hmain : s'.main = none)
    (hworker : WorkerOk s.db s.dir s'.worker)
    (hb : ∀ imm n p, s'.worker = .building imm n p → ∃ imm p, s.worker = .building imm n p)
    (hcomp : s'.compactor = s.compactor ∨ s'.compactor = .idle) (hw : s'.worker ≠ .publishing)
    (hc : s'.compactor ≠ .publishing) : Running s' L start floor m := by
  obtain ⟨st', rfl, hst⟩ := hl
  have ha : s.db.Agrees { s.db.withOpened number t with backgroundStatus := st' } :=
    ⟨rfl, rfl, rfl, rfl, rfl, rfl, rfl, rfl, rfl, Nat.le_refl _⟩
  exact h.agreeing ha h.contents.edit rfl rfl rfl rfl hdb hdir hhist hclosing hmain
    (hworker.congr ha rfl) hb hcomp hw hc

theorem Running.appended (h : Running s L start floor m) (s' : Sys) {r : WALBatchRecord}
    {p : Prog (DB × Status)} (hm : s.main = some (.writing r, p))
    (hdb : s'.db = (s.db.setMemtable s.db.active
      (DB.applyBatch r.batch (s.db.lastSequence + 1) s.db.activeMemtable)).setLastSequence
        (s.db.lastSequence + r.batch.count))
    (hdir : s'.dir = s.dir) (hhist : s'.history = s.history ++ [r])
    (hclosing : s'.closing = s.closing) (hmain : s'.main = none) (hworker : s'.worker = s.worker)
    (hcomp : s'.compactor = s.compactor) :
    ∃ a, s.db.wal = some a ∧ Running s' (L ++ [(a, r)]) start floor m := by
  obtain ⟨hcl, hseq, hr, hkeys⟩ := (h.main _ p hm).sound
  obtain ⟨a, hwal, hfloor, hlt, hle⟩ := h.wal (by rw [hcl]; simp)
  obtain ⟨hnw, hnc⟩ := h.not_publishing hm
  have hcontents := h.contents.append hle hfloor hseq hr hkeys
  rw [← hdb] at hcontents
  have hadv : DB.Advances none s.db s'.db := by
    rw [hdb]
    exact ⟨rfl, Nat.le_refl _, Nat.le_refl _, fun x hx => Or.inl ⟨x, hx, rfl⟩⟩
  have hnext : s'.db.nextFileNumber = s.db.nextFileNumber := by rw [hdb]; rfl
  have hq := keepsQueue_append h.contents
    (DB.applyBatch r.batch (s.db.lastSequence + 1) s.db.activeMemtable)
    (s.db.lastSequence + r.batch.count)
  rw [← hdb] at hq
  have hplace : ∀ q ∈ L ++ [(a, r)], q.1 ≤ a := by
    intro q hq'
    rcases List.mem_append.mp hq' with hq' | hq'
    · exact hle q hq'
    · rw [List.mem_singleton.mp hq']
  refine ⟨a, hwal, h.update hdir (by rw [hdb]; exact h.isOpen) hcontents ?_ (by rw [hdb]; rfl) hadv
    (fun n hn => by cases hn) ?_ ?_ ?_ ?_ ?_ ?_ ?_ ?_ hmain ?_ ?_⟩
  · rw [hhist, ← h.records]
    simp [Log.records]
  · intro q hq'
    have := hplace q hq'
    omega
  · intro _
    refine ⟨a, ?_, hfloor, by omega, hplace⟩
    rw [hdb]
    exact hwal
  · intro _
    rw [hdb]
    exact h.oldest (by rw [hcl]; simp)
  · rw [hdb]
    exact h.fresh
  · rw [hclosing, hcl]
    simp
  · intro _
    have hstart := h.contents.start_le
    rw [within_snoc r (by omega), hdb]
    exact h.tight (by rw [hcl]; simp)
  · rw [hworker]
    exact h.worker.advance hadv hq fun _ _ _ _ he => by cases he
  · rw [hcomp]
    have hjob : ∀ job, JobOk s.db L start job → JobOk s'.db (L ++ [(a, r)]) start job := by
      intro job hj
      rw [hdb]
      exact hj.append h.contents hfloor hseq
    refine (h.compactor.advance hadv (fun n hn => by cases hn) hjob).busy_mono ?_
    exact fun n _ hn => flushing_of_none hmain (fun imm n p he => ⟨imm, p, hworker ▸ he⟩) hn
  · rw [hworker]
    exact hnw (by simp)
  · rw [hcomp]
    exact hnc (by simp)

theorem Running.switched (h : Running s L start floor m) (s' : Sys) {p : Prog (DB × Status)}
    (hm : s.main = some (.switching, p)) (hmax : s.db.nextFileNumber ≠ maxUInt64)
    (hdb : s'.db = s.db.switched) (hdir : s'.dir = s.dir) (hhist : s'.history = s.history)
    (hclosing : s'.closing = s.closing) (hmain : s'.main = none) (hworker : s'.worker = s.worker)
    (hcomp : s'.compactor = s.compactor) : Running s' L start s.db.nextFileNumber m := by
  have hcl : s.closing = none := (h.main _ p hm).sound
  have hne : s.closing ≠ some true := by rw [hcl]; simp
  obtain ⟨hnw, hnc⟩ := h.not_publishing hm
  have hcontents := h.contents.switched h.places (h.oldest hne) hmax
  rw [← hdb] at hcontents
  have hnext : s'.db.nextFileNumber = s.db.nextFileNumber + 1 := by rw [hdb]; rfl
  have hadv : DB.Advances none s.db s'.db := by
    rw [hdb]
    exact ⟨rfl, Nat.le_succ _, Nat.le_refl _, fun x hx => Or.inl ⟨x, hx, rfl⟩⟩
  have hq : DB.KeepsQueue s.db s'.db := by
    rw [hdb]
    exact keepsQueue_snoc h.contents rfl rfl
  refine h.update hdir (by rw [hdb]; exact h.isOpen) hcontents (h.records.trans hhist.symm)
    (by rw [hdb]; rfl) hadv (fun n hn => by cases hn) ?_ ?_ ?_ ?_ ?_ ?_ ?_ ?_ hmain ?_ ?_
  · intro q hq'
    have := h.places q hq'
    omega
  · intro _
    refine ⟨s.db.nextFileNumber, by rw [hdb]; rfl, Nat.le_refl _, by omega, ?_⟩
    exact fun q hq' => Nat.le_of_lt (h.places q hq')
  · intro _
    rw [hdb]
    rfl
  · rw [hdb]
    exact Nat.lt_succ_self _
  · rw [hclosing, hcl]
    simp
  · intro _
    rw [hdb]
    exact h.tight hne
  · rw [hworker]
    exact h.worker.advance hadv hq fun _ _ _ _ he => by cases he
  · rw [hcomp]
    have hjob : ∀ job, JobOk s.db L start job → JobOk s'.db L start job := by
      intro job hj
      rw [hdb]
      exact hj.congr rfl rfl rfl rfl
    refine (h.compactor.advance hadv (fun n hn => by cases hn) hjob).busy_mono ?_
    exact fun n _ hn => flushing_of_none hmain (fun imm n p he => ⟨imm, p, hworker ▸ he⟩) hn
  · rw [hworker]
    exact hnw (by simp)
  · rw [hcomp]
    exact hnc (by simp)

theorem Contents.wal_le_nextLiveWal {db : DB} (h : Contents db L start floor m)
    {imm : ImmutableMemTable} {rest : List ImmutableMemTable}
    (hrest : db.immutables = imm :: rest) : db.edit.walFileNumber ≤ db.nextLiveWal := by
  unfold DB.nextLiveWal
  rw [hrest]
  cases rest with
  | nil => exact h.walOldest
  | cons next more =>
    have hqueue := h.queue
    rw [hrest] at hqueue
    obtain ⟨mid, hs, hmid, _, hq⟩ := hqueue.front
    have hnext := hq.start_eq
    have := h.walStart
    dsimp only
    omega

theorem Running.flushed (h : Running s L start floor m) (s' : Sys) {imm : ImmutableMemTable}
    {p : Prog (DB × Status)} (hm : s.main = some (.publishFlush imm number (.ok t), p))
    (hdb : s'.db = s.db.flushed imm number t) (hdir : s'.dir = s.dir)
    (hhist : s'.history = s.history) (hclosing : s'.closing = s.closing) (hmain : s'.main = none)
    (hworker : s'.worker = .wantCompact s'.db.edit.walFileNumber)
    (hcomp : s'.compactor = s.compactor) : ∃ start', Running s' L start' floor m := by
  obtain ⟨_, ⟨rest, hrest⟩, hhanded, hok⟩ := (h.main _ p hm).sound
  have hflush := hok t rfl
  obtain ⟨hnw, hnc⟩ := h.not_publishing hm
  obtain ⟨start', _, hmoved, hcontents⟩ := h.contents.flushed hrest hflush
  rw [← hdb] at hcontents
  have hnext : s'.db.nextFileNumber = s.db.nextFileNumber := by rw [hdb]; rfl
  have hlive := h.contents.wal_le_nextLiveWal hrest
  have hadv : DB.Advances (some number) s.db s'.db := by
    rw [hdb]
    refine ⟨rfl, Nat.le_refl _, hlive, ?_⟩
    intro x hx
    rcases mem_add.mp hx with hx | rfl
    · exact Or.inl ⟨x, hx, rfl⟩
    · exact Or.inr rfl
  have hbusy : s.Flushing number := Or.inr ⟨imm, .ok t, p, hm⟩
  refine ⟨start', h.update hdir (by rw [hdb]; exact h.isOpen) hcontents (h.records.trans hhist.symm)
    (by rw [hdb]; rfl) hadv (fun n hn => by cases hn; exact hhanded.lt) ?_ ?_ ?_ ?_ ?_ ?_ ?_ ?_ hmain ?_ ?_⟩
  · intro q hq'
    have := h.places q hq'
    omega
  · intro hne
    rw [hclosing] at hne
    obtain ⟨a, hwal, hfloor, hlt, hle⟩ := h.wal hne
    refine ⟨a, ?_, hfloor, by omega, hle⟩
    rw [hdb]
    exact hwal
  · intro hne
    rw [hclosing] at hne
    rw [hdb]
    exact h.oldest hne
  · rw [hdb]
    exact h.fresh
  · rw [hclosing, hdb]
    exact h.moved
  · -- the version names the first log of what is left
    intro hne
    rw [hclosing] at hne
    have hlog : s'.db.edit.walFileNumber = start' := by
      rw [hdb] at hcontents ⊢
      have hq := hcontents.queue
      show s.db.nextLiveWal = start'
      unfold DB.nextLiveWal
      have himm : (s.db.flushed imm number t).immutables = rest := by
        show s.db.immutables.tail = rest
        rw [hrest]
        rfl
      rw [himm] at hq
      rw [hrest]
      cases rest with
      | nil => exact (h.oldest hne).trans hq.nil_eq.symm
      | cons next more => exact hq.start_eq.symm
    rw [hlog, Log.within, List.filter_eq_nil_iff]
    intro p _
    simp only [decide_eq_true_eq]
    omega
  · rw [hworker]
    exact Nat.le_refl _
  · rw [hcomp]
    have hjob : ∀ job, JobOk s.db L start job → JobOk s'.db L start' job := by
      intro job hj
      rw [hdb]
      exact hj.flushed hflush hmoved
    refine (h.compactor.advance hadv (fun n hn => by cases hn; exact hbusy) hjob).busy_mono ?_
    intro n _ hn
    refine flushing_of_none hmain ?_ hn
    intro imm' n' p' he
    rw [hworker] at he
    cases he
  · rw [hworker]
    simp
  · rw [hcomp]
    exact hnc (by simp)

theorem Running.compacted (h : Running s L start floor m) (s' : Sys) {job : DB.CompactionJob}
    {output : List VersionedEntry} {p : Prog (DB × Status)}
    (hm : s.main = some (.publishCompaction job output t, p))
    (hdb : s'.db = s.db.compacted job output t) (hdir : s'.dir = s.dir)
    (hhist : s'.history = s.history) (hclosing : s'.closing = s.closing) (hmain : s'.main = none)
    (hworker : s'.worker = s.worker)
    (hcomp : s'.compactor =
      .removing (DB.removeInputs (s.db.sstables.filter (DB.isInput job.inputs)))) :
    ∃ m', m ≤ m' ∧ m' ≤ s'.db.lastSequence ∧ Running s' L start floor m' := by
  obtain ⟨_, hj, hhanded, ho, hbusy⟩ := (h.main _ p hm).sound
  obtain ⟨hnw, _⟩ := h.not_publishing hm
  obtain ⟨m', hm', hlast, hcontents⟩ := h.contents.compacted hj ho
  rw [← hdb] at hcontents
  have hseq : s'.db.lastSequence = s.db.lastSequence := by rw [hdb]; rfl
  have hnext : s'.db.nextFileNumber = s.db.nextFileNumber := by rw [hdb]; rfl
  have hmem : ∀ x, x ∈ s'.db.edit.sstables →
      (x ∈ s.db.edit.sstables ∧ Manifest.hasNumber job.inputs x.fileNumber = false) ∨
        x.fileNumber = job.number := by
    intro x hx
    rw [hdb] at hx
    rcases mem_add.mp hx with hx | rfl
    · obtain ⟨hx, hno⟩ := List.mem_filter.mp hx
      exact Or.inl ⟨hx, by simpa using hno⟩
    · exact Or.inr rfl
  have hadv : DB.Advances (some job.number) s.db s'.db := by
    refine ⟨by rw [hdb]; rfl, hnext.ge, ?_, ?_⟩
    · rw [hdb]
      exact Nat.le_refl _
    · intro x hx
      rcases hmem x hx with ⟨hx, _⟩ | hx
      · exact Or.inl ⟨x, hx, rfl⟩
      · exact Or.inr (by rw [hx])
  have hq : DB.KeepsQueue s.db s'.db := by
    rw [hdb]
    exact ⟨⟨[], (List.append_nil _).symm⟩, fun _ _ => rfl⟩
  refine ⟨m', hm', by omega, h.update hdir (by rw [hdb]; exact h.isOpen) hcontents
    (h.records.trans hhist.symm) (by rw [hdb]; rfl) hadv
    (fun n hn => by cases hn; exact hhanded.lt) ?_ ?_ ?_ ?_ ?_ ?_ ?_ ?_ hmain ?_ ?_⟩
  · intro q hq'
    have := h.places q hq'
    omega
  · intro hne
    rw [hclosing] at hne
    obtain ⟨a, hwal, hfloor, hlt, hle⟩ := h.wal hne
    refine ⟨a, ?_, hfloor, by omega, hle⟩
    rw [hdb]
    exact hwal
  · intro hne
    rw [hclosing] at hne
    rw [hdb]
    exact h.oldest hne
  · rw [hdb]
    exact h.fresh
  · rw [hclosing, hdb]
    exact h.moved
  · rw [hclosing, hdb]
    exact h.tight
  · rw [hworker]
    refine h.worker.advance hadv hq fun imm n q hw he => ?_
    cases he
    exact hbusy (Or.inl ⟨imm, q, hw⟩)
  · rw [hcomp]
    refine ⟨job.inputs.map (·.fileNumber), ?_, ?_⟩
    · intro n hn
      obtain ⟨x, hx, rfl⟩ := List.mem_map.mp hn
      have hxt := hj.inputs x hx
      refine ⟨hnext ▸ h.tables x hxt, ?_, ?_⟩
      · intro y hy heq
        rcases hmem y hy with ⟨_, hno⟩ | hy
        · rw [Manifest.hasNumber_iff.mpr ⟨x, hx, heq.symm⟩] at hno
          cases hno
        · exact hhanded.new x hxt (heq.symm.trans hy)
      · rintro (⟨imm, q, hw⟩ | ⟨imm, r, q, hq'⟩)
        · have hwork := h.worker
          rw [← hworker, hw] at hwork
          exact hwork.2.1.new x hxt rfl
        · rw [hmain] at hq'
          cases hq'
    · apply removeInputs_safe
      intro handle hh
      obtain ⟨hh, hin⟩ := List.mem_filter.mp hh
      obtain ⟨x, hx, hnum⟩ := isInput_iff.mp hin
      refine ⟨handle.fileNumber, List.mem_map.mpr ⟨x, hx, hnum⟩, ?_⟩
      exact (h.contents.handles handle hh).path
  · rw [hworker]
    exact hnw (by simp)
  · rw [hcomp]
    simp

end Ends

end KvMem
