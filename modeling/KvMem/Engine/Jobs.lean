import KvMem.Engine.Contents

/-! # Compaction jobs

A compaction chooses its inputs in one section, builds without the lock and
publishes in another. What it relies on in between survives every step of the
others, and the output it publishes keeps the containers in order.
-/

namespace KvMem

open Versions Compaction

variable {L : Log} {db : DB} {start floor m : Nat}

/-! ## What a job relies on -/

def DB.CompactionJob.entries (job : DB.CompactionJob) : List VersionedEntry :=
  job.tables.flatMap (·.table.entries)

def DB.besides (db : DB) (L : Log) (start : Nat) (inputs : List SSTableMeta) :
    List VersionedEntry :=
  (db.sstables.filter fun h => !DB.isInput inputs h).flatMap (·.table.entries) ++
    (L.since start).versions

/-- What a running compaction may rely on. No other table of the target level meets
its inputs; below the last level nothing older than an input is left beside them; and
no read still possible is before the versions it keeps. -/
structure JobOk (db : DB) (L : Log) (start : Nat) (job : DB.CompactionJob) : Prop where
  target : job.targetLevel = 1 ∨ job.targetLevel = 2
  inputs : ∀ m ∈ job.inputs, m ∈ db.edit.sstables
  tables : job.tables = db.sstables.filter (DB.isInput job.inputs)
  outside : ∀ b ∈ db.edit.sstables, b.level = job.targetLevel → b ∉ job.inputs → ¬ Blank b →
    (∀ m ∈ job.inputs, ¬ Blank m → b.largestKey < m.smallestKey) ∨
    (∀ m ∈ job.inputs, ¬ Blank m → m.largestKey < b.smallestKey)
  hides : ¬ job.targetLevel < 2 → ∀ x ∈ job.entries, ∀ y ∈ db.besides L start job.inputs,
    y.key = x.key → y.sequence < x.sequence → x ∈ db.besides L start job.inputs
  reads : ∃ last, (∀ e ∈ job.entries, e.sequence ≤ last) ∧
    retainedFrom job.minSnapshot last ≤ db.lastSequence ∧
    ∀ s ∈ db.snapshots, s.active = true →
      s.sequence = 0 ∨ retainedFrom job.minSnapshot last ≤ s.sequence

structure OutputOk (db : DB) (job : DB.CompactionJob) (output : List VersionedEntry)
    (t : TableFile) : Prop where
  merged : Compaction.mergeTables TableFile.Reader.plain (job.tables.map (·.table))
    job.minSnapshot job.targetLevel = .ok output
  entries : t.entries = output
  wf : t.Wf
  laid : t.Laid
  new : ∀ m ∈ db.edit.sstables, m.fileNumber ≠ job.number
  pos : 1 ≤ job.number
  le : job.number ≤ maxUInt64

variable {inputs : List SSTableMeta} {x : SSTableMeta} {e : VersionedEntry} {job : DB.CompactionJob}
  {output : List VersionedEntry} {t : TableFile}

theorem isInput_iff {h : OpenTable} :
    DB.isInput inputs h = true ↔ ∃ m ∈ inputs, m.fileNumber = h.fileNumber :=
  Manifest.hasNumber_iff

theorem hasNumber_inputs {metas : List SSTableMeta} (hord : Manifest.Ordered metas)
    (hin : ∀ m ∈ inputs, m ∈ metas) (hx : x ∈ metas) :
    Manifest.hasNumber inputs x.fileNumber = true ↔ x ∈ inputs := by
  rw [Manifest.hasNumber_iff]
  constructor
  · rintro ⟨y, hy, heq⟩
    rwa [← Manifest.eq_of_number hord (hin y hy) hx heq]
  · intro hx'
    exact ⟨x, hx', rfl⟩

theorem JobOk.mem_entries (hj : JobOk db L start job) : e ∈ job.entries ↔
      ∃ h ∈ db.sstables, DB.isInput job.inputs h = true ∧ e ∈ h.table.entries := by
  rw [DB.CompactionJob.entries, hj.tables, List.mem_flatMap]
  constructor
  · rintro ⟨h, hh, he⟩
    obtain ⟨hh, hin⟩ := List.mem_filter.mp hh
    exact ⟨h, hh, hin, he⟩
  · rintro ⟨h, hh, hin, he⟩
    exact ⟨h, List.mem_filter.mpr ⟨hh, hin⟩, he⟩

theorem JobOk.union (hj : JobOk db L start job) :
    setOf (db.besides L start job.inputs) ∪ setOf job.entries =
      setOf (db.tableEntries ++ (L.since start).versions) := by
  ext e
  simp only [Set.mem_union, mem_setOf, hj.mem_entries, DB.besides, DB.tableEntries, List.mem_append,
    List.mem_flatMap, List.mem_filter]
  constructor
  · rintro ((⟨h, ⟨hh, _⟩, he⟩ | he) | ⟨h, hh, _, he⟩)
    · exact Or.inl ⟨h, hh, he⟩
    · exact Or.inr he
    · exact Or.inl ⟨h, hh, he⟩
  · rintro (⟨h, hh, he⟩ | he)
    · cases hin : DB.isInput job.inputs h with
      | true => exact Or.inr ⟨h, hh, hin, he⟩
      | false => exact Or.inl (Or.inl ⟨h, ⟨hh, by rw [hin]; rfl⟩, he⟩)
    · exact Or.inl (Or.inr he)

theorem JobOk.input_of_mem (hj : JobOk db L start job) (h : Contents db L start floor m)
    (he : e ∈ job.entries) :
    ∃ x ∈ job.inputs, ¬ Blank x ∧ x.smallestKey ≤ e.key ∧ e.key ≤ x.largestKey := by
  obtain ⟨t, ht, hin, het⟩ := hj.mem_entries.mp he
  obtain ⟨x, hx, hnum⟩ := isInput_iff.mp hin
  have hdesc := h.aligned.described x (hj.inputs x hx) t ht hnum.symm
  refine ⟨x, hx, ?_, hdesc.range e het⟩
  intro hblank
  rw [hdesc.blank.mp hblank] at het
  exact absurd het List.not_mem_nil

theorem JobOk.entries_mem (hj : JobOk db L start job) (h : Contents db L start floor m)
    (he : e ∈ job.entries) : e ∈ L.versions := by
  obtain ⟨t, ht, _, het⟩ := hj.mem_entries.mp he
  exact h.entries_mem (List.mem_flatMap.mpr ⟨t, ht, het⟩)

theorem jobEntries_eq (job : DB.CompactionJob) :
    (job.tables.map (·.table)).flatMap TableFile.entries = job.entries := by
  rw [List.flatMap_map]
  rfl

theorem JobOk.functional (hj : JobOk db L start job) (h : Contents db L start floor m) :
    Functional (setOf job.entries) :=
  h.history.functional.mono fun _ he => hj.entries_mem h he

theorem JobOk.kept (hj : JobOk db L start job) (h : Contents db L start floor m)
    (hout : Compaction.mergeTables TableFile.Reader.plain (job.tables.map (·.table))
      job.minSnapshot job.targetLevel = .ok output) :
    SortedRun output ∧ ∀ e, e ∈ output ↔
      e ∈ job.entries ∧ Kept (setOf job.entries) job.minSnapshot job.targetLevel e := by
  have hwf : ∀ t ∈ job.tables.map (·.table), t.Wf := by
    intro t ht
    obtain ⟨handle, hh, rfl⟩ := List.mem_map.mp ht
    rw [hj.tables] at hh
    exact (h.handles handle (List.mem_filter.mp hh).1).wf
  have hfun : Functional (setOf ((job.tables.map (·.table)).flatMap TableFile.entries)) := by
    rw [jobEntries_eq]
    exact hj.functional h
  obtain ⟨output', hmerge, hsorted, hmem⟩ :=
    mergeTables_spec _ job.minSnapshot job.targetLevel hwf hfun
  have heq : output' = output := Except.ok.inj (hmerge.symm.trans hout)
  rw [heq, jobEntries_eq] at hmem
  exact ⟨heq ▸ hsorted, hmem⟩

/-- The output joins the target level without meeting another table there. -/
theorem levelsOk_compacted (hj : JobOk db L start job) (h : Contents db L start floor m)
    (hout : ∀ e ∈ output, e ∈ job.entries) (hlevel : x.level = job.targetLevel)
    (hspans : Spans x.smallestKey x.largestKey output) (hx : Ranged x) :
    LevelsOk (Manifest.sortByNumber
      ((db.edit.sstables.filter fun m => !Manifest.hasNumber job.inputs m.fileNumber) ++ [x])) := by
  have hl := h.levels
  have hkeep : ∀ y, y ∈ db.edit.sstables.filter
      (fun m => !Manifest.hasNumber job.inputs m.fileNumber) →
      y ∈ db.edit.sstables ∧ y ∉ job.inputs := by
    intro y hy
    obtain ⟨hy, hno⟩ := List.mem_filter.mp hy
    refine ⟨hy, fun hin => ?_⟩
    rw [(hasNumber_inputs h.ordered hj.inputs hy).mpr hin] at hno
    cases hno
  have hmeets : ∀ b ∈ db.edit.sstables, b ∉ job.inputs → b.level = x.level → ¬ Blank b →
      ¬ Blank x → Apart b x := by
    intro b hb hno hbl hnb hnx
    have hne : output ≠ [] := fun he => hnx (hspans.empty he)
    rcases hj.outside b hb (hbl.trans hlevel) hno hnb with habove | hbelow
    · obtain ⟨e, he, hsmall⟩ := hspans.least hne
      obtain ⟨i, hi, hnbi, hle, _⟩ := hj.input_of_mem h (hout e he)
      exact Or.inl ((habove i hi hnbi).trans_le (hle.trans (le_of_eq hsmall.symm)))
    · obtain ⟨e, he, hlarge⟩ := hspans.greatest hne
      obtain ⟨i, hi, hnbi, _, hle⟩ := hj.input_of_mem h (hout e he)
      exact Or.inr (((le_of_eq hlarge).trans hle).trans_lt (hbelow i hi hnbi))
  refine ⟨?_, ?_, ?_⟩
  · intro y hy
    rcases mem_add.mp hy with hy | rfl
    · exact hl.level_le y (hkeep y hy).1
    · have := hj.target
      omega
  · intro y hy
    rcases mem_add.mp hy with hy | rfl
    · exact hl.ranged y (hkeep y hy).1
    · exact hx
  · intro a ha b hb hab hne hnum hna hnb
    rcases mem_add.mp ha with ha' | ha'
    · rcases mem_add.mp hb with hb' | hb'
      · exact hl.apart a (hkeep a ha').1 b (hkeep b hb').1 hab hne hnum hna hnb
      · subst hb'
        exact hmeets a (hkeep a ha').1 (hkeep a ha').2 hab hna hnb
    · subst ha'
      rcases mem_add.mp hb with hb' | hb'
      · exact (hmeets b (hkeep b hb').1 (hkeep b hb').2 hab.symm hnb hna).symm
      · exact absurd (by rw [hb']) hnum

theorem Contents.compacted (h : Contents db L start floor m) (hj : JobOk db L start job)
    (ho : OutputOk db job output t) :
    ∃ m', m ≤ m' ∧ m' ≤ db.lastSequence ∧
      Contents (db.compacted job output t) L start floor m' := by
  obtain ⟨hsorted, hkept⟩ := hj.kept h ho.merged
  obtain ⟨last, hlast, hle, hsnaps⟩ := hj.reads
  have hout : ∀ e ∈ output, e ∈ job.entries := fun e he => ((hkept e).mp he).1
  have hkeys : ∀ e ∈ output, KeyOk e.key := fun e he =>
    h.history.keyOk (hj.entries_mem h (hout e he))
  have hspans : Spans (DB.compactionMeta job output t).smallestKey
      (DB.compactionMeta job output t).largestKey output := spans_keyRange output
  obtain ⟨hdesc, hranged⟩ := hspans.describes ho.entries hkeys
  have hnew : ∀ y ∈ db.edit.sstables.filter
      (fun m => !Manifest.hasNumber job.inputs m.fileNumber), y.fileNumber ≠ job.number :=
    fun y hy => ho.new y (List.mem_filter.mp hy).1
  have hret := kept_retains (R := setOf (db.besides L start job.inputs)) (hj.functional h)
    (O := setOf output) hkept hlast hj.hides
  have hwf : Manifest.WfEdit (db.compactedEdit job output t) := by
    have he := h.edit
    refine ⟨he.next_pos, he.next_le, he.wal_pos, he.wal_le, he.sequence_le, ?_, ?_⟩
    · exact ordered_add (h.ordered.sublist List.filter_sublist) hnew
    · intro f hf
      rcases mem_add.mp hf with hf | rfl
      · exact he.files f (List.mem_filter.mp hf).1
      · have := hj.target
        exact hspans.wfMeta hkeys rfl ho.pos ho.le (by
          show job.targetLevel ≤ 2
          omega) (fileSize_le t)
  have hview : setOf (db.besides L start job.inputs) ∪ setOf output =
      setOf ((db.compacted job output t).tableEntries ++ (L.since start).versions) := by
    have hentries : (db.compacted job output t).tableEntries =
        (db.sstables.filter fun h => !DB.isInput job.inputs h).flatMap (·.table.entries) ++
          t.entries := by
      show ((db.sstables.filter _) ++ [db.handle job.number t]).flatMap _ = _
      rw [List.flatMap_append, List.flatMap_cons, List.flatMap_nil, List.append_nil]
      rfl
    rw [hentries, ho.entries, DB.besides]
    simp only [setOf_append]
    rw [Set.union_right_comm]
  refine ⟨max m (retainedFrom job.minSnapshot last), le_max_left _ _, max_le h.reads hle, ?_⟩
  refine
    { history := h.history
      last := h.last
      reached := h.reached
      active := h.active
      queued := h.queued
      mem := h.mem
      queue := h.queue
      handles := ?_
      aligned := (h.aligned.filter fun n => !Manifest.hasNumber job.inputs n).add hnew rfl hdesc
      edit := hwf
      levels := levelsOk_compacted hj h hout rfl hspans hranged
      walStart := h.walStart
      walOldest := h.walOldest
      queueOldest := h.queueOldest
      oldest := h.oldest
      floorNext := h.floorNext
      view := ?_
      reads := max_le h.reads hle
      snapshots := ⟨?_, h.snapshots.order⟩ }
  · intro handle hh
    rcases List.mem_append.mp hh with hh | hh
    · exact h.handles handle (List.mem_filter.mp hh).1
    · rw [List.mem_singleton.mp hh]
      exact ⟨rfl, ho.wf, ho.laid⟩
  · rw [← hview]
    have hall := h.view
    rw [← hj.union] at hall
    refine hall.collect hret (h.history.functional.mono hall.subset) ?_
    intro k r
    rw [hj.union]
    exact exists_newest_or _ k r
  · intro s hs hact
    obtain ⟨hrange, hm⟩ := h.snapshots.range s hs hact
    refine ⟨hrange, ?_⟩
    rcases hsnaps s hs hact with h0 | hs'
    · exact Or.inl h0
    · rcases hm with h0 | hm
      · exact Or.inl h0
      · exact Or.inr (max_le hm hs')

/-! ## Starting a job -/

theorem foldl_minActive {ss : List Snapshot} {k : Nat}
    (hord : ss.Pairwise fun a b => a.active = true → b.active = true → a.sequence ≤ b.sequence)
    (hk : ∀ s ∈ ss, s.active = true → k ≤ s.sequence) :
    let least := ss.foldl (fun m s =>
      if ¬ s.active then m else if m = 0 ∨ s.sequence < m then s.sequence else m) k
    (k ≠ 0 → least = k) ∧
      (k = 0 → (∀ s ∈ ss, s.active = true → s.sequence = 0 ∨ (least ≠ 0 ∧ least ≤ s.sequence)) ∧
        (least ≠ 0 → ∃ s ∈ ss, s.active = true ∧ s.sequence = least)) := by
  induction ss generalizing k with
  | nil => exact ⟨fun _ => rfl, fun h0 => ⟨by simp, fun hne => absurd h0 hne⟩⟩
  | cons x xs ih =>
    obtain ⟨hx, hxs⟩ := List.pairwise_cons.mp hord
    have hkxs : ∀ s ∈ xs, s.active = true → k ≤ s.sequence :=
      fun s hs => hk s (List.mem_cons_of_mem x hs)
    dsimp only
    rw [List.foldl_cons]
    cases hact : x.active with
    | false =>
      rw [if_pos (by simp)]
      obtain ⟨hpos, hzero⟩ := ih hxs hkxs
      refine ⟨hpos, fun h0 => ?_⟩
      obtain ⟨hall, hex⟩ := hzero h0
      refine ⟨?_, fun hne => ?_⟩
      · intro s hs hs'
        rcases List.mem_cons.mp hs with rfl | hs
        · rw [hact] at hs'
          cases hs'
        · exact hall s hs hs'
      · obtain ⟨s, hs, hs'⟩ := hex hne
        exact ⟨s, List.mem_cons_of_mem x hs, hs'⟩
    | true =>
      rw [if_neg (by simp)]
      have hkx := hk x List.mem_cons_self hact
      by_cases h0 : k = 0
      · rw [if_pos (Or.inl h0)]
        obtain ⟨hpos, hzero⟩ := ih hxs (k := x.sequence) fun s hs hs' => hx s hs hact hs'
        refine ⟨fun hne => absurd h0 hne, fun _ => ?_⟩
        by_cases hx0 : x.sequence = 0
        · obtain ⟨hall, hex⟩ := hzero hx0
          refine ⟨?_, fun hne => ?_⟩
          · intro s hs hs'
            rcases List.mem_cons.mp hs with rfl | hs
            · exact Or.inl hx0
            · exact hall s hs hs'
          · obtain ⟨s, hs, hs'⟩ := hex hne
            exact ⟨s, List.mem_cons_of_mem x hs, hs'⟩
        · rw [hpos hx0]
          refine ⟨?_, fun _ => ⟨x, List.mem_cons_self, hact, rfl⟩⟩
          intro s hs hs'
          rcases List.mem_cons.mp hs with rfl | hs
          · exact Or.inr ⟨hx0, Nat.le_refl _⟩
          · exact Or.inr ⟨hx0, hx s hs hact hs'⟩
      · rw [if_neg (by omega)]
        obtain ⟨hpos, _⟩ := ih hxs hkxs
        exact ⟨hpos, fun h0' => absurd h0' h0⟩

theorem minActive_spec (h : SnapshotsOk db m) :
    (∀ s ∈ db.snapshots, s.active = true → s.sequence = 0 ∨
      (db.minActiveSnapshotSequence ≠ 0 ∧ db.minActiveSnapshotSequence ≤ s.sequence)) ∧
    db.minActiveSnapshotSequence ≤ db.lastSequence := by
  obtain ⟨hall, hex⟩ := (foldl_minActive h.order (k := 0) fun _ _ _ => Nat.zero_le _).2 rfl
  refine ⟨hall, ?_⟩
  by_cases h0 : db.minActiveSnapshotSequence = 0
  · omega
  · obtain ⟨s, hs, hact, heq⟩ := hex h0
    have hle := (h.range s hs hact).1
    unfold DB.minActiveSnapshotSequence
    omega

structure Started (db : DB) (job : DB.CompactionJob) (next : DB) : Prop where
  isOpen : db.closed = false
  noError : db.backgroundStatus = .ok
  inputs : job.inputs = (selectInputs db.edit.sstables).1
  target : job.targetLevel = (selectInputs db.edit.sstables).2
  nonempty : job.inputs ≠ []
  minSnapshot : job.minSnapshot = db.minActiveSnapshotSequence
  number : db.allocateFileNumber = .ok (job.number, next)
  generation : job.generation = db.lifecycleGeneration
  tables : job.tables = db.sstables.filter (DB.isInput job.inputs)

theorem startCompaction_ok {next : DB} (h : db.startCompaction = .ok (job, next)) :
    Started db job next := by
  unfold DB.startCompaction at h
  split at h
  · cases h
  · rename_i hopen
    split at h
    · cases h
    · rename_i hnoError
      split at h
      · cases h
      · dsimp only at h
        split at h
        · cases h
        · rename_i hne
          split at h
          · cases h
          · rename_i number next' ha
            simp only [Except.ok.injEq, Prod.mk.injEq] at h
            obtain ⟨rfl, rfl⟩ := h
            exact ⟨by simpa using hopen, by simpa using hnoError, rfl, rfl, hne, rfl, ha, rfl, rfl⟩

/-- Nothing older than an input of the last level is left beside the inputs, unless the
input itself is. -/
theorem Selection.hides (h : Contents db L start floor m)
    (hsel : Selection db.edit.sstables inputs 2) {x y : VersionedEntry}
    (hx : ∃ t ∈ db.sstables, DB.isInput inputs t = true ∧ x ∈ t.table.entries)
    (hy : y ∈ db.besides L start inputs) (hkey : y.key = x.key) (hlt : y.sequence < x.sequence) :
    x ∈ db.besides L start inputs := by
  obtain ⟨t, ht, hin, hxt⟩ := hx
  rcases List.mem_append.mp hy with hy | hy
  · -- a table outside the inputs is of the last level and does not meet them
    exfalso
    obtain ⟨u, hu, hyu⟩ := List.mem_flatMap.mp hy
    obtain ⟨hu, hout⟩ := List.mem_filter.mp hu
    obtain ⟨b, hb, hbnum, hbdesc⟩ := h.aligned.description hu
    have hbout : b ∉ inputs := by
      intro hb'
      rw [isInput_iff.mpr ⟨b, hb', hbnum⟩] at hout
      cases hout
    have hblevel : b.level = 2 := by
      have hle := h.levels.level_le b hb
      have hge : ¬ b.level < 2 := fun hlt => hbout (hsel.below b hb hlt)
      omega
    have hbne : ¬ Blank b := fun hblank => by
      rw [hbdesc.blank.mp hblank] at hyu
      exact absurd hyu List.not_mem_nil
    obtain ⟨i, hi, hnum⟩ := isInput_iff.mp hin
    have hidesc := h.aligned.described i (hsel.subset i hi) t ht hnum.symm
    have hine : ¬ Blank i := fun hblank => by
      rw [hidesc.blank.mp hblank] at hxt
      exact absurd hxt List.not_mem_nil
    have hyr := hbdesc.range y hyu
    have hxr := hidesc.range x hxt
    rcases hsel.outside b hb hblevel hbout hbne with habove | hbelow
    · have hlt' := (hyr.2.trans_lt (habove i hi hine)).trans_le hxr.1
      rw [hkey] at hlt'
      exact lt_irrefl _ hlt'
    · have hlt' := (hxr.2.trans_lt (hbelow i hi hine)).trans_le hyr.1
      rw [hkey] at hlt'
      exact lt_irrefl _ hlt'
  · -- the memtables hold with a version everything newer
    have hxL : x ∈ L.versions := h.entries_mem (List.mem_flatMap.mpr ⟨t, ht, hxt⟩)
    exact List.mem_append_right _ (h.history.upClosed start y hy x hxL hkey.symm (le_of_lt hlt))

theorem jobOk_start (h : Contents db L start floor m) {next : DB} (hs : Started db job next) :
    JobOk next L start job := by
  obtain ⟨_, _, rfl⟩ := DB.allocateFileNumber_ok hs.number
  have hne : (selectInputs db.edit.sstables).1 ≠ [] := hs.inputs ▸ hs.nonempty
  have hsel := selectInputs_spec h.ordered h.levels hne
  rw [← hs.inputs, ← hs.target] at hsel
  obtain ⟨hall, hle⟩ := minActive_spec h.snapshots
  have hentries : ∀ {e}, e ∈ job.entries →
      ∃ t ∈ db.sstables, DB.isInput job.inputs t = true ∧ e ∈ t.table.entries := by
    intro e he
    obtain ⟨t, ht, het⟩ := List.mem_flatMap.mp he
    rw [hs.tables] at ht
    obtain ⟨ht, hin⟩ := List.mem_filter.mp ht
    exact ⟨t, ht, hin, het⟩
  refine ⟨hsel.target_eq, hsel.subset, hs.tables, hsel.outside, ?_, ?_⟩
  · intro htarget x hx y hy hkey hlt
    have htwo : job.targetLevel = 2 := by
      rcases hsel.target_eq with h1 | h2
      · omega
      · exact h2
    rw [htwo] at hsel
    exact Selection.hides h hsel (hentries hx) hy hkey hlt
  · refine ⟨db.lastSequence, ?_, ?_, ?_⟩
    · intro e he
      obtain ⟨t, ht, _, het⟩ := hentries he
      exact h.sequence_le (h.entries_mem (List.mem_flatMap.mpr ⟨t, ht, het⟩))
    · show retainedFrom job.minSnapshot db.lastSequence ≤ db.lastSequence
      unfold retainedFrom
      split
      · exact Nat.le_refl _
      · rw [hs.minSnapshot]
        exact hle
    · intro s hs' hact
      rw [hs.minSnapshot]
      unfold retainedFrom
      rcases hall s hs' hact with h0 | ⟨hne, hle'⟩
      · exact Or.inl h0
      · rw [if_neg hne]
        exact Or.inr hle'

/-! ## What the others do to a job -/

section

variable (hj : JobOk db L start job)

include hj

theorem JobOk.agrees {db' : DB} (ha : db.Agrees db') : JobOk db' L start job := by
  have hbesides : db'.besides L start job.inputs = db.besides L start job.inputs := by
    rw [DB.besides, ha.sstables]
    rfl
  exact ⟨hj.target, by rw [ha.tables]; exact hj.inputs, by rw [ha.sstables]; exact hj.tables,
    by rw [ha.tables]; exact hj.outside, by rw [hbesides]; exact hj.hides,
    by rw [ha.sequence, ha.snapshots]; exact hj.reads⟩

theorem JobOk.append (h : Contents db L start floor m) {a : Nat}
    {r : WALBatchRecord} (hfloor : floor ≤ a) (hseq : r.sequence = db.lastSequence + 1) :
    JobOk ((db.setMemtable db.active
        (DB.applyBatch r.batch (db.lastSequence + 1) db.activeMemtable)).setLastSequence
          (db.lastSequence + r.batch.count)) (L ++ [(a, r)]) start job := by
  have hbesides : ∀ {e : VersionedEntry}, e ∈ db.besides (L ++ [(a, r)]) start job.inputs ↔
      e ∈ db.besides L start job.inputs ∨ e ∈ r.versions := by
    intro e
    have hone : Log.versions [(a, r)] = r.versions := by simp [Log.versions]
    simp only [DB.besides, since_snoc r (h.start_le.trans hfloor), Log.versions_append, hone,
      List.mem_append, or_assoc]
  refine ⟨hj.target, hj.inputs, hj.tables, hj.outside, ?_, ?_⟩
  · intro htarget x hx y hy hkey hlt
    refine hbesides.mpr (Or.inl ?_)
    rcases hbesides.mp hy with hy | hy
    · exact hj.hides htarget x hx y hy hkey hlt
    · have := h.sequence_le (hj.entries_mem h hx)
      have := (Log.versions_range hy).1
      omega
  · obtain ⟨last, hlast, hle, hsnaps⟩ := hj.reads
    exact ⟨last, hlast, hle.trans (Nat.le_add_right _ _), hsnaps⟩

theorem JobOk.flushed {imm : ImmutableMemTable} {number : Nat}
    (ht : FlushOk db imm number t) {start' : Nat}
    (hview : ∀ e, e ∈ (L.since start).versions ↔
      e ∈ db.memtable imm.memtable ∨ e ∈ (L.since start').versions) :
    JobOk (db.flushed imm number t) L start' job := by
  have hnew : DB.isInput job.inputs (db.handle number t) = false := by
    rw [← Bool.not_eq_true, isInput_iff]
    rintro ⟨x, hx, hnum⟩
    exact ht.new x (hj.inputs x hx) hnum
  have hbesides : ∀ e, e ∈ (db.flushed imm number t).besides L start' job.inputs ↔
      e ∈ db.besides L start job.inputs := by
    intro e
    have hsst : (db.flushed imm number t).sstables = db.sstables ++ [db.handle number t] := rfl
    have hfilter : [db.handle number t].filter (fun h => !DB.isInput job.inputs h) =
        [db.handle number t] := by
      simp [hnew]
    simp only [DB.besides, hsst, List.filter_append, hfilter, List.flatMap_append,
      List.flatMap_cons, List.flatMap_nil, List.append_nil, List.mem_append, hview e]
    rw [← ht.entries, or_assoc]
    exact Iff.rfl
  refine ⟨hj.target, ?_, ?_, ?_, ?_, hj.reads⟩
  · intro x hx
    exact mem_add.mpr (Or.inl (hj.inputs x hx))
  · show job.tables = (db.sstables ++ [db.handle number t]).filter (DB.isInput job.inputs)
    rw [List.filter_append, hj.tables]
    simp [hnew]
  · intro b hb hlevel hout hblank
    rcases mem_add.mp hb with hb | rfl
    · exact hj.outside b hb hlevel hout hblank
    · have := hj.target
      have h0 : (DB.flushMeta number (db.memtable imm.memtable) t).level = 0 := rfl
      omega
  · intro htarget x hx y hy hkey hlt
    rw [hbesides] at hy ⊢
    exact hj.hides htarget x hx y hy hkey hlt

theorem JobOk.getSnapshot : JobOk db.getSnapshot L start job := by
  unfold DB.getSnapshot
  split
  · exact hj
  · obtain ⟨last, hlast, hle, hsnaps⟩ := hj.reads
    refine ⟨hj.target, hj.inputs, hj.tables, hj.outside, hj.hides, last, hlast, hle, ?_⟩
    intro s hs hact
    rcases List.mem_append.mp hs with hs | hs
    · exact hsnaps s hs hact
    · rw [List.mem_singleton.mp hs]
      exact Or.inr hle

theorem JobOk.releaseSnapshot (i : Nat) : JobOk (db.releaseSnapshot i) L start job := by
  obtain ⟨last, hlast, hle, hsnaps⟩ := hj.reads
  exact ⟨hj.target, hj.inputs, hj.tables, hj.outside, hj.hides, last, hlast, hle,
    fun s hs hact => hsnaps s (mem_modify_inactive hs hact) hact⟩

end

end KvMem
