import KvMem.Engine.Jobs
import KvMem.Engine.Ambient
import KvMem.Foundation.Outcomes

/-! # What the files hold

A directory is ready for a version when it has the tables of the version and the
logs from its oldest one on, and together they show the history. It is recoverable
when `MANIFEST`, whatever a crash leaves of it, replays to a version the directory is
ready for.
-/

namespace KvMem

open CrashStore RecordLog Versions Compaction

/-! ## The edit log -/

namespace Manifest

/-- The records of `log` replay to `e`. -/
structure Logged (e : VersionEdit) (log : Bytes) : Prop where
  wf : WfEdit e
  records : ∃ payloads : List Bytes, (∀ p ∈ payloads, FitsHeader p) ∧
    log = encodeAll encodeRecord payloads ∧ replay replayRecord payloads ({}, false) = .ok (e, true)

variable {e e' : VersionEdit} {log tail payload : Bytes}

theorem Logged.replayLog (h : Logged e log) (ht : Tail encodeRecord FitsHeader tail) :
    replayLog (log ++ tail) = .ok (e, tail) := by
  obtain ⟨payloads, hfits, rfl, hreplay⟩ := h.records
  have hfuel : payloads.length < (encodeAll encodeRecord payloads ++ tail).length + 1 := by
    have := format.length_le _ hfits
    rw [List.length_append]
    omega
  rw [Manifest.replayLog, format.scan_log replayRecord _ tail ({}, false) _ hfits ht hfuel, hreplay]
  rfl

theorem Logged.snoc (h : Logged e log) (hp : FitsHeader payload) (hwf : WfEdit e')
    (hr : replayRecord (e, true) payload = .ok (e', true)) :
    Logged e' (log ++ encodeRecord payload) := by
  obtain ⟨payloads, hfits, rfl, hreplay⟩ := h.records
  refine ⟨hwf, payloads ++ [payload], ?_, by simp, ?_⟩
  · intro p hp'
    rcases List.mem_append.mp hp' with hp' | hp'
    · exact hfits p hp'
    · rw [List.mem_singleton.mp hp']
      exact hp
  · rw [replay_append, hreplay]
    simp only [replay, hr]

theorem Logged.save (h : Logged e log) (hwf : WfEdit e') (hk : KeepsMeta e e')
    (hp : FitsHeader (buildEditPayload e e')) :
    Logged e' (log ++ encodeRecord (buildEditPayload e e')) :=
  h.snoc hp hwf (replayRecord_build h.wf hwf hk true)

theorem logged_first (hwf : WfEdit e) (hp : FitsHeader (buildEditPayload {} e)) :
    Logged e (encodeRecord (buildEditPayload {} e)) := by
  refine ⟨hwf, [buildEditPayload {} e], by simpa using hp, by simp, ?_⟩
  simp only [replay]
  rw [replayRecord_build wfEdit_empty hwf (fun f hf => by cases hf) false]

theorem replayLog_tail (ht : Tail encodeRecord FitsHeader tail) :
    ∃ err, err ≠ .ok ∧ replayLog tail = .error err := by
  have hscan := format.scan_log replayRecord [] tail ({}, false) (tail.length + 1) (by simp) ht
    (by simp)
  rw [encodeAll_nil, List.nil_append] at hscan
  rw [Manifest.replayLog, hscan]
  exact ⟨_, by simp, rfl⟩

end Manifest

/-! ## Logs -/

/-- The log holds the records `rs` and a part of `ps` behind them. -/
def WalHolds (c : Prop) (s : Slot Cell) (rs ps : List WALBatchRecord) : Prop :=
  (rs = [] ∧ ps = [] ∧ s.Unwritten c) ∨
    s.Within c (toCells (encodeAll Wal.encodeRecord rs)) (toCells (encodeAll Wal.encodeRecord (rs ++ ps)))

def LogHolds (c : Prop) (s : Slot Cell) (rs : List WALBatchRecord) : Prop :=
  (rs = [] ∧ s.Gone c) ∨ s.Exactly c (toCells (encodeAll Wal.encodeRecord rs))

variable {c : Prop} {rs : List WALBatchRecord} {s : Slot Cell} {dir dir' : Dir}

theorem WalHolds.of_outcome {s' : Slot Cell} {ps : List WALBatchRecord} (h : WalHolds c s rs ps)
    (ho : ∀ o, s'.Outcome c o → s.Outcome c o) : WalHolds c s' rs ps := by
  rcases h with ⟨hr, hp, hs⟩ | hs
  · exact Or.inl ⟨hr, hp, fun o h => hs o (ho o h)⟩
  · exact Or.inr fun o h => hs o (ho o h)

theorem LogHolds.walHolds (h : LogHolds c s rs) : WalHolds c s rs [] := by
  rcases h with ⟨hr, hs⟩ | hs
  · exact Or.inl ⟨hr, rfl, fun o ho => Or.inl (hs.outcome ho)⟩
  · refine Or.inr ?_
    rw [List.append_nil]
    exact hs.always.within

theorem LogHolds.firm (h : LogHolds c s rs) : s.Firm c :=
  h.imp (fun h => h.2) fun h => ⟨_, h⟩

theorem LogHolds.keeps {keep : FileName → Prop} {d d' : Dir} {n : FileName}
    (h : LogHolds c (d.slot n) rs) (hk : Keeps keep d d') (hn : keep n) :
    LogHolds c (d'.slot n) rs :=
  h.imp (fun h => ⟨h.1, hk.gone hn h.2⟩) fun h => hk.exactly hn h

/-! ## Versions -/

/-- The directory has what version `e` needs to show the history `L`, with the pending
batch `P` perhaps behind it. -/
structure Stored (c : Prop) (dir : Dir) (e : VersionEdit) (T : List OpenTable) (L P : Log) :
    Prop where
  wf : Manifest.WfEdit e
  below : e.walFileNumber < e.nextFileNumber
  levels : LevelsOk e.sstables
  aligned : Aligned e.sstables T
  handles : ∀ h ∈ T, HandleOk h
  tables : ∀ h ∈ T, (dir.slot (.sst h.fileNumber)).Always c [.table h.table]
  history : Log.Ok (L ++ P)
  single : P.length ≤ 1
  entries : ∀ h ∈ T, ∀ x ∈ h.table.entries, x.sequence ≤ e.lastSequence
  older : ∀ p ∈ L, p.1 < e.walFileNumber → p.2.last ≤ e.lastSequence
  reached : L.Reaches e.lastSequence
  pending : ∀ p ∈ P, e.walFileNumber ≤ p.1 ∧ e.lastSequence < p.2.sequence
  view : ∃ m, m ≤ e.lastSequence ∧
    Shows (setOf (T.flatMap (·.table.entries) ++ (L.since e.walFileNumber).versions))
      (setOf L.versions) m
  logs : ∀ n, e.walFileNumber ≤ n →
    WalHolds c (dir.slot (.wal n)) (Log.inLog L n) (Log.inLog P n)

/-- The names a version needs: logs from `w` on and the tables `live`. -/
def Stores (w : Nat) (live : List Nat) (n : FileName) : Prop :=
  (∃ i, w ≤ i ∧ n = .wal i) ∨ ∃ i ∈ live, n = .sst i

theorem Stored.of_outcome {e : VersionEdit} {T : List OpenTable} {L P : Log}
    (h : Stored c dir e T L P)
    (ho : ∀ n, Stores e.walFileNumber (T.map (·.fileNumber)) n →
      ∀ o, (dir'.slot n).Outcome c o → (dir.slot n).Outcome c o) : Stored c dir' e T L P :=
  { h with
    tables := fun t ht o hout => h.tables t ht o
      (ho _ (Or.inr ⟨_, List.mem_map_of_mem ht, rfl⟩) o hout)
    logs := fun n hn => (h.logs n hn).of_outcome (ho _ (Or.inl ⟨n, hn, rfl⟩)) }

/-- The history `H`, with `I` perhaps behind it, is what version `e` shows. -/
def Ready (c : Prop) (H I : List WALBatchRecord) (w : Nat) (live : List Nat) (e : VersionEdit)
    (dir : Dir) : Prop :=
  w ≤ e.walFileNumber ∧ ∃ T L P, Stored c dir e T L P ∧ Log.records L = H ∧ Log.records P = I ∧
    ∀ h ∈ T, h.fileNumber ∈ live

def Loads (c : Prop) (H I : List WALBatchRecord) (w : Nat) (live : List Nat) (dir : Dir)
    (cells : List Cell) : Prop :=
  ∃ e log tail, cells = toCells (log ++ tail) ∧ Manifest.Logged e log ∧
    Tail Manifest.encodeRecord Manifest.FitsHeader tail ∧ Ready c H I w live e dir

def Recoverable (c : Prop) (H I : List WALBatchRecord) (w : Nat) (live : List Nat) (dir : Dir) :
    Prop :=
  ∀ o, (dir.slot .manifest).Outcome c o → ∃ cells, o = some cells ∧ Loads c H I w live dir cells

section

variable {c : Prop} {H I : List WALBatchRecord} {w : Nat} {live : List Nat} {dir dir' : Dir}

theorem Ready.of_outcome {e : VersionEdit} (h : Ready c H I w live e dir)
    (ho : ∀ n, Stores w live n → ∀ o, (dir'.slot n).Outcome c o → (dir.slot n).Outcome c o) :
    Ready c H I w live e dir' := by
  obtain ⟨hw, T, L, P, hs, hL, hP, hlive⟩ := h
  refine ⟨hw, T, L, P, hs.of_outcome ?_, hL, hP, hlive⟩
  rintro n (⟨i, hi, rfl⟩ | ⟨i, hi, rfl⟩)
  · exact ho _ (Or.inl ⟨i, hw.trans hi, rfl⟩)
  · obtain ⟨t, ht, rfl⟩ := List.mem_map.mp hi
    exact ho _ (Or.inr ⟨_, hlive t ht, rfl⟩)

theorem Loads.of_outcome {cells : List Cell} (h : Loads c H I w live dir cells)
    (ho : ∀ n, Stores w live n → ∀ o, (dir'.slot n).Outcome c o → (dir.slot n).Outcome c o) :
    Loads c H I w live dir' cells := by
  obtain ⟨e, log, tail, hcells, hlog, htail, hready⟩ := h
  exact ⟨e, log, tail, hcells, hlog, htail, hready.of_outcome ho⟩

theorem Recoverable.of_outcome (h : Recoverable c H I w live dir)
    (ho : ∀ n o, (dir'.slot n).Outcome c o → (dir.slot n).Outcome c o) :
    Recoverable c H I w live dir' := by
  intro o hout
  obtain ⟨cells, hcells, hload⟩ := h o (ho _ o hout)
  exact ⟨cells, hcells, hload.of_outcome fun n _ => ho n⟩

end

/-! ## A closed database -/

/-- What lies in the directory while nobody works in it. -/
structure Resting (c : Prop) (H I : List WALBatchRecord) (dir : Dir) (e : VersionEdit)
    (log tail : Bytes) (T : List OpenTable) (L P : Log) : Prop where
  logged : Manifest.Logged e log
  torn : Tail Manifest.encodeRecord Manifest.FitsHeader tail
  manifest : (dir.slot .manifest).Exactly c (toCells (log ++ tail))
  stored : Stored c dir e T L P
  tables : ∀ h ∈ T, (dir.slot (.sst h.fileNumber)).Exactly c [.table h.table]
  logs : ∀ n, e.walFileNumber ≤ n → (dir.slot (.wal n)).Firm c
  history : Log.records L = H
  pending : Log.records P = I

theorem Recoverable.crash {H I : List WALBatchRecord} {w : Nat} {live : List Nat}
    (h : Recoverable c H I w live dir) (hc : c) (hcr : Crash dir dir') :
    ∃ e log tail T L P, Resting c H I dir' e log tail T L P := by
  have hr : Recoverable c H I w live dir' := h.of_outcome fun n o ho => hcr.outcome hc ho
  obtain ⟨cells, hcells, e, log, tail, rfl, hlog, htail, hw, T, L, P, hs, hL, hP, _⟩ :=
    hr _ (Slot.outcome_cur c _)
  refine ⟨e, log, tail, T, L, P, hlog, htail, hcr.exactly hcells, hs, ?_, ?_, hL, hP⟩
  · intro t ht
    exact hcr.exactly (hs.tables t ht).cur
  · exact fun n _ => hcr.firm _

/-! ## A running database -/

/-- Version `e` is as good as the current one for the next `Open`. -/
structure Saved (db : DB) (L : Log) (m : Nat) (e : VersionEdit) : Prop where
  wf : Manifest.WfEdit e
  below : e.walFileNumber < e.nextFileNumber
  tables : e.sstables = db.edit.sstables
  wal : e.walFileNumber = db.edit.walFileNumber
  sequence : e.lastSequence ≤ db.lastSequence
  entries : ∀ x ∈ db.tableEntries, x.sequence ≤ e.lastSequence
  older : ∀ p ∈ L, p.1 < e.walFileNumber → p.2.last ≤ e.lastSequence
  reached : L.Reaches e.lastSequence
  reads : m ≤ e.lastSequence

structure PendingOk (db : DB) (L P : Log) : Prop where
  history : Log.Ok (L ++ P)
  single : P.length ≤ 1
  place : ∀ p ∈ P, db.edit.walFileNumber ≤ p.1
  fresh : ∀ p ∈ P, db.lastSequence < p.2.sequence

section

variable {c : Prop} {dir : Dir} {db : DB} {L P : Log} {start floor m : Nat} {e : VersionEdit}

theorem Contents.saved (h : Contents db L start floor m)
    (hb : db.edit.walFileNumber < db.nextFileNumber) : Saved db L m db.edit where
  wf := h.edit
  below := hb
  tables := rfl
  wal := rfl
  sequence := Nat.le_refl _
  entries := fun _ hx => h.sequence_le (h.entries_mem hx)
  older := fun p hp _ => h.last p hp
  reached := h.reached
  reads := h.reads

theorem pendingOk_nil (h : Contents db L start floor m) : PendingOk db L [] :=
  ⟨by rw [List.append_nil]; exact h.history, by simp, by simp, by simp⟩

theorem Contents.stored (h : Contents db L start floor m) (hs : Saved db L m e)
    (hp : PendingOk db L P)
    (ht : ∀ t ∈ db.sstables, (dir.slot (.sst t.fileNumber)).Always c [.table t.table])
    (hl : ∀ n, db.edit.walFileNumber ≤ n →
      WalHolds c (dir.slot (.wal n)) (Log.inLog L n) (Log.inLog P n)) :
    Stored c dir e db.sstables L P where
  wf := hs.wf
  below := hs.below
  levels := by rw [hs.tables]; exact h.levels
  aligned := by rw [hs.tables]; exact h.aligned
  handles := h.handles
  tables := ht
  history := hp.history
  single := hp.single
  entries := fun t ht' x hx => hs.entries x (List.mem_flatMap.mpr ⟨t, ht', hx⟩)
  older := hs.older
  reached := hs.reached
  pending := by
    intro p hp'
    refine ⟨by rw [hs.wal]; exact hp.place p hp', ?_⟩
    exact lt_of_le_of_lt hs.sequence (hp.fresh p hp')
  view := by
    refine ⟨m, hs.reads, ?_⟩
    have hup := h.history.upClosed e.walFileNumber
    have hwiden := h.view.widen (Log.since_versions_subset L e.walFileNumber) hup
    have hset : setOf (db.tableEntries ++ (L.since start).versions) ∪
        setOf (L.since e.walFileNumber).versions =
          setOf (db.tableEntries ++ (L.since e.walFileNumber).versions) := by
      have hsub : setOf (L.since start).versions ⊆ setOf (L.since e.walFileNumber).versions := by
        intro x hx
        obtain ⟨p, hp', hx'⟩ := Log.mem_versions.mp hx
        obtain ⟨hpL, hle⟩ := Log.mem_since.mp hp'
        have := h.walStart
        refine Log.mem_versions.mpr ⟨p, Log.mem_since.mpr ⟨hpL, ?_⟩, hx'⟩
        rw [hs.wal]
        omega
      rw [setOf_append, setOf_append, Set.union_assoc, Set.union_eq_self_of_subset_left hsub]
    rw [hset] at hwiden
    exact hwiden
  logs := by rw [hs.wal]; exact hl

end

structure Holds (c : Prop) (T : List OpenTable) (w : Nat) (L : Log) (dir : Dir) : Prop where
  tables : ∀ t ∈ T, (dir.slot (.sst t.fileNumber)).Exactly c [.table t.table]
  logs : ∀ n, w ≤ n → LogHolds c (dir.slot (.wal n)) (L.inLog n)

/-- What the files of a running database hold between two sections. -/
structure Held (c : Prop) (db : DB) (L : Log) (dir : Dir) : Prop where
  manifest : ∃ log, Manifest.Logged db.manifest.persisted log ∧
    (dir.slot .manifest).Exactly c (toCells log)
  holds : Holds c db.sstables db.edit.walFileNumber L dir
  active : ∀ a, db.wal = some a →
    (dir.slot (.wal a)).Exactly c (toCells (encodeAll Wal.encodeRecord (L.inLog a)))

section

variable {c : Prop} {dir dir' : Dir} {db db' : DB} {L : Log} {start floor m : Nat}
  {e : VersionEdit} {T : List OpenTable} {w : Nat} {live : List Nat}

theorem Holds.keeps {keep : FileName → Prop} (h : Holds c T w L dir) (hk : Keeps keep dir dir')
    (ht : ∀ t ∈ T, keep (.sst t.fileNumber)) (hl : ∀ n, w ≤ n → keep (.wal n)) :
    Holds c T w L dir' :=
  ⟨fun t hin => hk.exactly (ht t hin) (h.tables t hin),
    fun n hn => (h.logs n hn).keeps hk (hl n hn)⟩

theorem Holds.stored (hh : Holds c T w L dir) (h : Contents db L start floor m)
    (hs : Saved db L m e) (hT : ∀ t ∈ db.sstables, t ∈ T) (hw : w ≤ db.edit.walFileNumber) :
    Stored c dir e db.sstables L [] :=
  h.stored hs (pendingOk_nil h) (fun t ht => (hh.tables t (hT t ht)).always)
    fun n hn => (hh.logs n (hw.trans hn)).walHolds

theorem Holds.ready (hh : Holds c T w L dir) (h : Contents db L start floor m)
    (hs : Saved db L m e) (hT : ∀ t ∈ db.sstables, t ∈ T) (hw : w ≤ db.edit.walFileNumber)
    (hlive : ∀ t ∈ T, t.fileNumber ∈ live) : Ready c L.records [] w live e dir :=
  ⟨by rw [hs.wal]; exact hw, db.sstables, L, [], hh.stored h hs hT hw, rfl, rfl,
    fun t ht => hlive t (hT t ht)⟩

theorem Held.congr (h : Held c db L dir) (hp : db'.manifest.persisted = db.manifest.persisted)
    (ht : db'.sstables = db.sstables) (hw : db'.edit.walFileNumber = db.edit.walFileNumber)
    (ha : db'.wal = db.wal) : Held c db' L dir :=
  ⟨by rw [hp]; exact h.manifest, by rw [ht, hw]; exact h.holds, by rw [ha]; exact h.active⟩

theorem Held.latched (h : Held c db L dir) (hl : DB.Latched db db') : Held c db' L dir := by
  obtain ⟨st, rfl, _⟩ := hl
  exact h.congr rfl rfl rfl rfl

end

end KvMem
