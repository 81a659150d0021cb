import KvMem.Engine.Recovery

/-! # Opening a database

`Open` on a directory at rest: a database that was open before comes up with all its
committed history, and a new one is begun. A crash in the middle leaves a directory at
rest again.
-/

namespace KvMem

open CrashStore RecordLog FileProg Manifest Versions Compaction

/-! ## The scan of the directory -/

theorem foldl_max_lt (ns : List Nat) {b m : Nat} (hm : m < b) (h : ∀ n ∈ ns, n < b) :
    ns.foldl max m < b := by
  induction ns generalizing m with
  | nil => exact hm
  | cons n ns ih =>
    have hn := h n List.mem_cons_self
    exact ih (by omega) fun k hk => h k (List.mem_cons_of_mem n hk)

theorem le_foldl_max (ns : List Nat) (m : Nat) :
    m ≤ ns.foldl max m ∧ ∀ n ∈ ns, n ≤ ns.foldl max m := by
  induction ns generalizing m with
  | nil => exact ⟨Nat.le_refl m, by simp⟩
  | cons n ns ih =>
    obtain ⟨hm, hall⟩ := ih (max m n)
    refine ⟨by rw [List.foldl_cons]; omega, ?_⟩
    intro k hk
    rw [List.foldl_cons]
    rcases List.mem_cons.mp hk with rfl | hk
    · omega
    · exact hall k hk

variable {dir : Dir} {ns : List Nat}

theorem Ambient.walNumbers_nodup (h : Ambient dir) : (walNumbers dir).Nodup := by
  unfold walNumbers
  refine List.pairwise_filterMap.mpr (dir.list_nodup.imp_of_mem ?_)
  intro f g hf hg hne n hn n' hn' heq
  have hpf := h.proper_of_exists (FS.mem_list.mp hf)
  have hpg := h.proper_of_exists (FS.mem_list.mp hg)
  have hname : ∀ k : FileName, k.Proper → ∀ i, k.walNumber? = some i → k = .wal i := by
    intro k hk i hi
    cases k with
    | wal j =>
      rw [walNumber?_wal (by have := hk.1; omega) (Nat.le_of_lt hk.2)] at hi
      exact congrArg FileName.wal (Option.some.inj hi)
    | other x => exact hk.elim
    | current | currentTmp | manifest | sst j | sstTmp j =>
      rw [walNumber?_eq_none (by intro i; simp) (by intro x; simp)] at hi
      cases hi
  rw [hname f hpf n hn, hname g hpg n' hn', heq] at hne
  exact hne rfl

def liveWals (oldest : Nat) (dir : Dir) : List Nat :=
  ((walNumbers dir).filter fun n => oldest ≤ n).insertionSort (· ≤ ·)

theorem Ambient.mem_liveWals (h : Ambient dir) {oldest n : Nat} :
    n ∈ liveWals oldest dir ↔ oldest ≤ n ∧ dir.exists (.wal n) = true := by
  rw [liveWals, List.mem_insertionSort, List.mem_filter, h.mem_walNumbers, decide_eq_true_eq,
    and_comm]

theorem Ambient.liveWals_sorted (h : Ambient dir) (oldest : Nat) :
    (liveWals oldest dir).Pairwise (· < ·) := by
  have hsorted : (liveWals oldest dir).Pairwise (· ≤ ·) := List.pairwise_insertionSort _ _
  have hnodup : (liveWals oldest dir).Nodup :=
    (List.perm_insertionSort _ _).nodup_iff.mpr (h.walNumbers_nodup.filter _)
  exact (hsorted.and hnodup).imp fun h => Nat.lt_of_le_of_ne h.1 h.2

def maxSeen (e : VersionEdit) (dir : Dir) : Nat :=
  DB.maxOf (e.sstables.map (·.fileNumber) ++ (sstNumbers dir ++ walNumbers dir))

structure Scanned (e : VersionEdit) (L : Log) (wals : List Nat) (next : Nat) : Prop where
  sorted : wals.Pairwise (· < ·)
  range : ∀ n ∈ wals, e.walFileNumber ≤ n ∧ (1 ≤ n ∧ n < maxUInt64) ∧ n < next
  all : ∀ p ∈ L, e.walFileNumber ≤ p.1 → p.1 ∈ wals
  next_ge : e.nextFileNumber ≤ next
  next_le : next ≤ maxUInt64
  tables : ∀ f ∈ e.sstables, f.fileNumber < next

section

variable {c : Prop} {H I : List WALBatchRecord} {e : VersionEdit} {log : Bytes}
  {T : List OpenTable} {L P : Log} {dir : Dir} {C : Dir → Prop}

theorem Backed.exists_wal (h : Backed c H I e T L P dir) {p : Nat × WALBatchRecord} (hp : p ∈ L)
    (hle : e.walFileNumber ≤ p.1) : dir.exists (.wal p.1) = true := by
  have hin : p.2 ∈ L.inLog p.1 :=
    List.mem_map.mpr ⟨p, List.mem_filter.mpr ⟨hp, decide_eq_true rfl⟩, rfl⟩
  have hdata : ∀ xs, (dir.slot (.wal p.1)).Exactly c xs → dir.exists (.wal p.1) = true := by
    intro xs hx
    rw [FS.exists_eq_read, FS.read, hx.1]
    rfl
  rcases h.reads p.1 hle with ⟨_, ⟨hnil, _⟩ | hx⟩ | ⟨r, tail, _, _, _, hx⟩
  · rw [hnil] at hin
    cases hin
  · exact hdata _ hx
  · exact hdata _ hx

theorem Backed.exists_sst (h : Backed c H I e T L P dir) {f : SSTableMeta} (hf : f ∈ e.sstables) :
    dir.exists (.sst f.fileNumber) = true := by
  obtain ⟨t, _, _, hread⟩ := h.exists_table hf
  rw [(h.stored.wf.files f hf).path] at hread
  rw [FS.exists_eq_read, hread]
  rfl

theorem Backed.scanned (h : Backed c H I e T L P dir) (ha : Ambient dir) :
    maxSeen e dir < maxUInt64 ∧
      Scanned e L (liveWals e.walFileNumber dir) (max e.nextFileNumber (maxSeen e dir + 1)) ∧
      Unused (max e.nextFileNumber (maxSeen e dir + 1)) dir := by
  have hseen : ∀ n ∈ e.sstables.map (·.fileNumber) ++ (sstNumbers dir ++ walNumbers dir),
      n < maxUInt64 := by
    intro n hn
    rcases List.mem_append.mp hn with hn | hn
    · obtain ⟨f, hf, rfl⟩ := List.mem_map.mp hn
      exact (ha.proper_of_exists (h.exists_sst hf)).2
    · rcases List.mem_append.mp hn with hn | hn
      · exact (ha.proper_of_exists (ha.mem_sstNumbers.mp hn)).2
      · exact (ha.proper_of_exists (ha.mem_walNumbers.mp hn)).2
  have hlt : maxSeen e dir < maxUInt64 := foldl_max_lt _ (by decide) hseen
  have hmax := (le_foldl_max
    (e.sstables.map (·.fileNumber) ++ (sstNumbers dir ++ walNumbers dir)) 0).2
  have hsst : ∀ n, dir.exists (.sst n) = true → n ≤ maxSeen e dir := fun n hn =>
    hmax n (List.mem_append_right _ (List.mem_append_left _ (ha.mem_sstNumbers.mpr hn)))
  have hwal : ∀ n, dir.exists (.wal n) = true → n ≤ maxSeen e dir := fun n hn =>
    hmax n (List.mem_append_right _ (List.mem_append_right _ (ha.mem_walNumbers.mpr hn)))
  refine ⟨hlt, ⟨ha.liveWals_sorted _, ?_, ?_, Nat.le_max_left _ _, ?_, ?_⟩, ?_⟩
  · intro n hn
    obtain ⟨hle, hex⟩ := ha.mem_liveWals.mp hn
    have := hwal n hex
    exact ⟨hle, ha.proper_of_exists hex, by omega⟩
  · exact fun p hp hle => ha.mem_liveWals.mpr ⟨hle, h.exists_wal hp hle⟩
  · have := h.stored.wf.next_le
    omega
  · intro f hf
    have := hsst _ (h.exists_sst hf)
    omega
  · intro n hn
    refine ⟨?_, Or.inl ?_⟩
    · by_contra hex
      have := hsst n (by simpa using hex)
      omega
    · by_contra hex
      have := hwal n (by rw [FS.exists_eq_read]; exact Option.isSome_iff_ne_none.mpr hex)
      omega

end

/-! ## `Recover` -/

structure Replayed (e : VersionEdit) (L : Log) (s : DB.Replay) : Prop where
  mem : MemHolds s.mem (L.since e.walFileNumber)
  sequence : e.lastSequence ≤ s.lastSequence
  last : ∀ p ∈ L.since e.walFileNumber, p.2.last ≤ s.lastSequence
  source : s.lastSequence = e.lastSequence ∨
    ∃ p ∈ L.since e.walFileNumber, s.lastSequence = p.2.last

def DB.recovered (db : DB) (wals : List Nat) (next : Nat) (s : DB.Replay) : DB :=
  { db with
    mems := db.mems.set db.active s.mem
    activeWalFileNumber := wals.getLast?.getD db.edit.walFileNumber
    activeMemtableOldestWalFileNumber := wals.head?.getD db.edit.walFileNumber
    manifest := { db.manifest with
      edit := { db.edit with nextFileNumber := next, lastSequence := s.lastSequence } } }

section

variable {c : Prop} {H I : List WALBatchRecord} {e : VersionEdit} {log : Bytes}
  {T : List OpenTable} {L P : Log} {dir : Dir} {C : Dir → Prop} {next : Nat} {wals : List Nat}

theorem Backed.replayed (h : Backed c H I e T L P dir) (hs : Scanned e L wals next) :
    ∃ s, replay DB.replayBatch (wals.flatMap L.inLog) ⟨[], e.lastSequence, 0⟩ = .ok s ∧
      Replayed e L s := by
  have hok : L.Ok := h.stored.history.sublist (List.sublist_append_left L P)
  have hflat := flatMap_inLog hok.places wals e.walFileNumber hs.sorted
    (fun n hn => (hs.range n hn).1) hs.all
  have hsince : Log.Ok ([] ++ L.since e.walFileNumber) := hok.filter _
  have hpos : ∀ p ∈ L.since e.walFileNumber, 0 < p.2.sequence :=
    fun p hp => (hsince.appendable p hp).positive
  have hempty : MemHolds ([] : MemTable) [] := ⟨List.Pairwise.nil, fun x => Iff.rfl⟩
  obtain ⟨s, hrep, hmem, hle, hlast, hsrc⟩ :=
    replay_log (L.since e.walFileNumber) [] ⟨[], e.lastSequence, 0⟩ hsince hempty hpos
  exact ⟨s, by rw [hflat]; exact hrep, hmem, hle, hlast, hsrc⟩

theorem recover_safe
    (hC : ∀ d, (c → Recoverable c H I e.walFileNumber (T.map (·.fileNumber)) d) → C d)
    {db : DB} (hedit : db.edit = e) (hmem : db.activeMemtable = [])
    (h : Loaded c H I e log T L P dir) :
    Safe (openRely C) (fun res d => ∃ wals next s, Scanned e L wals next ∧ Replayed e L s ∧
        res = (db.recovered wals next s, .ok) ∧ Replaying c H I e log T L P next [] d)
      db.recover dir := by
  subst hedit
  unfold DB.recover
  refine Safe.look_intro loaded_stable h fun d hd ha => ⟨hC d fun _ => hd.recoverable, ?_⟩
  obtain ⟨hmax, hs, hunused⟩ := hd.backed.scanned ha
  obtain ⟨s, hrep, hreplayed⟩ := hd.backed.replayed hs
  -- a log that was not found holds nothing
  have hstart : Replaying c H I db.edit log T L P (max db.edit.nextFileNumber (maxSeen db.edit d + 1))
      (liveWals db.edit.walFileNumber d) d := by
    refine ⟨hd, fun n hn hout => ?_, hunused⟩
    have hex : ¬ d.exists (.wal n) = true := fun hex => hout (ha.mem_liveWals.mpr ⟨hn, hex⟩)
    rw [FS.exists_eq_read, Option.isSome_iff_ne_none, not_not] at hex
    rcases hd.backed.reads n hn with ⟨_, hlog⟩ | ⟨r, tail, _, _, _, hx⟩
    · exact hlog
    · have hread := hx.1
      rw [← FS.read, hex] at hread
      cases hread
  have hprog := replayWals_safe hC (liveWals db.edit.walFileNumber d) hs.range hrep hstart
  rw [← hmem] at hprog
  dsimp only
  split
  · rename_i hfull
    exact absurd hfull (Nat.ne_of_lt hmax)
  · split
    · rename_i hnext
      have hmax' : max db.edit.nextFileNumber (maxSeen db.edit d + 1) = maxSeen db.edit d + 1 :=
        Nat.max_eq_right (Nat.le_succ_of_le hnext)
      refine hprog.bind ?_
      rintro res d' _ ⟨rfl, hd'⟩
      refine Safe.ret_intro replaying_stable hd' fun d'' hd'' _ =>
        ⟨hC d'' fun _ => hd''.loaded.recoverable, _, _, s, hs, hreplayed, ?_, hd''⟩
      rw [hmax']
      rfl
    · rename_i hnext
      have hmax' : max db.edit.nextFileNumber (maxSeen db.edit d + 1) = db.edit.nextFileNumber :=
        Nat.max_eq_left (Nat.lt_of_not_le hnext)
      refine hprog.bind ?_
      rintro res d' _ ⟨rfl, hd'⟩
      refine Safe.ret_intro replaying_stable hd' fun d'' hd'' _ =>
        ⟨hC d'' fun _ => hd''.loaded.recoverable, _, _, s, hs, hreplayed, ?_, hd''⟩
      rw [hmax']
      rfl

end

/-! ## The database that comes up -/

theorem head_getD_le (h : ns.Pairwise (· < ·)) (b : Nat) :
    (ns.head?.getD b = b ∨ ns.head?.getD b ∈ ns) ∧ ∀ n ∈ ns, ns.head?.getD b ≤ n := by
  cases ns with
  | nil => exact ⟨Or.inl rfl, by simp⟩
  | cons k ns =>
    refine ⟨Or.inr List.mem_cons_self, ?_⟩
    intro n hn
    rcases List.mem_cons.mp hn with rfl | hn
    · exact Nat.le_refl _
    · exact Nat.le_of_lt ((List.pairwise_cons.mp h).1 n hn)

theorem le_getLast_getD (h : ns.Pairwise (· < ·)) (b : Nat) :
    (ns = [] ∧ ns.getLast?.getD b = b ∨ ns.getLast?.getD b ∈ ns) ∧
      ∀ n ∈ ns, n ≤ ns.getLast?.getD b := by
  rcases ns.eq_nil_or_concat' with rfl | ⟨front, k, rfl⟩
  · exact ⟨Or.inl ⟨rfl, rfl⟩, by simp⟩
  · rw [List.getLast?_concat, Option.getD_some]
    refine ⟨Or.inr (by simp), ?_⟩
    intro n hn
    rcases List.mem_append.mp hn with hn | hn
    · exact Nat.le_of_lt ((List.pairwise_append.mp h).2.2 n hn k (List.mem_singleton_self k))
    · rw [List.mem_singleton.mp hn]

def firstWal (e : VersionEdit) (wals : List Nat) : Nat := wals.head?.getD e.walFileNumber

def lastWal (e : VersionEdit) (wals : List Nat) : Nat := wals.getLast?.getD e.walFileNumber

section

variable {e : VersionEdit} {L : Log} {wals : List Nat} {next : Nat}

theorem Scanned.first (h : Scanned e L wals next) (hb : e.walFileNumber < e.nextFileNumber) :
    e.walFileNumber ≤ firstWal e wals ∧ firstWal e wals ≤ lastWal e wals ∧
      lastWal e wals < next := by
  have hnext := h.next_ge
  obtain ⟨hhead, hmin⟩ := head_getD_le h.sorted e.walFileNumber
  obtain ⟨hlast, hmax⟩ := le_getLast_getD h.sorted e.walFileNumber
  unfold firstWal lastWal
  rcases hlast with ⟨rfl, _⟩ | hlast
  · refine ⟨Nat.le_refl _, Nat.le_refl _, ?_⟩
    show e.walFileNumber < next
    omega
  · refine ⟨?_, hmin _ hlast, (h.range _ hlast).2.2⟩
    rcases hhead with heq | hin
    · rw [heq]
    · exact (h.range _ hin).1

variable {p : Nat × WALBatchRecord}

theorem Scanned.first_le (h : Scanned e L wals next) (hp : p ∈ L) (hle : e.walFileNumber ≤ p.1) :
    firstWal e wals ≤ p.1 :=
  (head_getD_le h.sorted e.walFileNumber).2 _ (h.all p hp hle)

theorem Scanned.le_last (h : Scanned e L wals next) (hb : e.walFileNumber < e.nextFileNumber)
    (hp : p ∈ L) : p.1 ≤ lastWal e wals := by
  by_cases hle : e.walFileNumber ≤ p.1
  · exact (le_getLast_getD h.sorted e.walFileNumber).2 _ (h.all p hp hle)
  · have := h.first hb
    omega

theorem Scanned.since_first (h : Scanned e L wals next) (hb : e.walFileNumber < e.nextFileNumber) :
    L.since (firstWal e wals) = L.since e.walFileNumber ∧
      L.within e.walFileNumber (firstWal e wals) = [] := by
  have hge := (h.first hb).1
  constructor
  · refine List.filter_congr fun p hp => ?_
    rw [decide_eq_decide]
    exact ⟨fun hle => hge.trans hle, fun hle => h.first_le hp hle⟩
  · rw [List.eq_nil_iff_forall_not_mem]
    intro p hp
    obtain ⟨hpL, hle, hlt⟩ := Log.mem_within.mp hp
    have := h.first_le hpL hle
    omega

end

/-! ### Its tables -/

section

variable {c : Prop} {e : VersionEdit} {T hs : List OpenTable} {L P : Log} {dir : Dir} {cache : Nat}

variable {files : List SSTableMeta} {t : OpenTable}

theorem reopens_numbers (h : List.Forall₂ (Reopens cache T) files hs) :
    hs.map (·.fileNumber) = files.map (·.fileNumber) := by
  induction h with
  | nil => rfl
  | cons hf _ ih => rw [List.map_cons, List.map_cons, hf.number, ih]

theorem reopens_of_mem (h : List.Forall₂ (Reopens cache T) files hs) (ht : t ∈ hs) :
    ∃ f ∈ files, Reopens cache T f t := by
  induction h with
  | nil => cases ht
  | cons hf _ ih =>
    rcases List.mem_cons.mp ht with rfl | ht
    · exact ⟨_, List.mem_cons_self, hf⟩
    · obtain ⟨f, hf', hr⟩ := ih ht
      exact ⟨f, List.mem_cons_of_mem _ hf', hr⟩

theorem mem_of_reopens (h : List.Forall₂ (Reopens cache T) files hs) {f : SSTableMeta}
    (hf : f ∈ files) : ∃ t ∈ hs, Reopens cache T f t := by
  induction h with
  | nil => cases hf
  | cons hr _ ih =>
    rcases List.mem_cons.mp hf with rfl | hf
    · exact ⟨_, List.mem_cons_self, hr⟩
    · obtain ⟨t, ht, hr'⟩ := ih hf
      exact ⟨t, List.mem_cons_of_mem _ ht, hr'⟩

theorem Stored.table_unique (h : Stored c dir e T L P) {t' : OpenTable} (ht : t ∈ T) (ht' : t' ∈ T)
    (heq : t.fileNumber = t'.fileNumber) : t = t' := by
  have hnodup : (T.map (·.fileNumber)).Nodup :=
    h.aligned.numbers.nodup_iff.mpr (ordered_nodup h.wf.ordered)
  exact List.inj_on_of_nodup_map hnodup ht ht' heq

theorem Stored.reopened (h : Stored c dir e T L P)
    (hs' : List.Forall₂ (Reopens cache T) e.sstables hs) :
    Aligned e.sstables hs ∧ (∀ t ∈ hs, HandleOk t) ∧
      setOf (hs.flatMap (·.table.entries)) = setOf (T.flatMap (·.table.entries)) := by
  refine ⟨⟨by rw [reopens_numbers hs'], ?_⟩, ?_, ?_⟩
  · intro f hf t ht heq
    obtain ⟨g, _, hr⟩ := reopens_of_mem hs' ht
    obtain ⟨t', ht', hnum, htab⟩ := hr.table
    rw [htab]
    exact h.aligned.described f hf t' ht' (by rw [hnum, ← hr.number, heq])
  · intro t ht
    obtain ⟨f, hf, hr⟩ := reopens_of_mem hs' ht
    obtain ⟨t', ht', _, htab⟩ := hr.table
    have hok := h.handles t' ht'
    exact ⟨by rw [hr.path, (h.wf.files f hf).path, hr.number], by rw [htab]; exact hok.wf,
      by rw [htab]; exact hok.laid⟩
  · ext x
    simp only [mem_setOf, List.mem_flatMap]
    constructor
    · rintro ⟨t, ht, hx⟩
      obtain ⟨f, _, hr⟩ := reopens_of_mem hs' ht
      obtain ⟨t', ht', _, htab⟩ := hr.table
      exact ⟨t', ht', htab ▸ hx⟩
    · rintro ⟨t, ht, hx⟩
      obtain ⟨f, hf, hnum, _⟩ := h.aligned.description ht
      obtain ⟨t', ht', hr⟩ := mem_of_reopens hs' hf
      obtain ⟨t'', ht'', hnum', htab⟩ := hr.table
      rw [h.table_unique ht'' ht (hnum'.trans hnum)] at htab
      exact ⟨t', ht', htab ▸ hx⟩

end

/-! ### Its invariant -/

def DB.started (db : DB) : DB :=
  { db with
    wal := some db.activeWalFileNumber
    lifecycleGeneration := db.lifecycleGeneration + 1
    closed := false }

/-- A database that has come up with the history `H` and, when its record was complete,
the batch `I`. -/
structure Reopened (c : Prop) (H I : List WALBatchRecord) (db : DB) (L : Log) (floor m : Nat)
    (dir : Dir) : Prop where
  isOpen : db.closed = false
  contents : Contents db L floor floor m
  records : L.records = (H ++ I).filter fun r => r.last ≤ db.lastSequence
  kept : H <+: L.records
  path : db.manifest.path = .manifest
  unused : Unused db.nextFileNumber dir
  places : ∀ p ∈ L, p.1 < db.nextFileNumber
  tables : ∀ x ∈ db.edit.sstables, x.fileNumber < db.nextFileNumber
  wal : ∃ a, db.wal = some a ∧ floor ≤ a ∧ a < db.nextFileNumber ∧ ∀ p ∈ L, p.1 ≤ a
  oldest : db.activeMemtableOldestWalFileNumber = floor
  tight : L.within db.edit.walFileNumber floor = []
  saved : Saved db L m db.manifest.persisted
  held : Held c db L dir
  exact : db.activeMemtable = [] → db.manifest.persisted.lastSequence = db.lastSequence

section

variable {c : Prop} {H I J K : List WALBatchRecord} {e : VersionEdit} {log : Bytes}
  {T hs : List OpenTable} {L P : Log} {dir : Dir} {C : Dir → Prop} {wals : List Nat} {next : Nat}
  {s : DB.Replay} {db : DB}

theorem Backed.history_ok (h : Backed c H I e T L P dir) : L.Ok :=
  h.stored.history.sublist (List.sublist_append_left L P)

theorem Replayed.sequences (hr : Replayed e L s) (h : Backed c H I e T L P dir) :
    (∀ p ∈ L, p.2.last ≤ s.lastSequence) ∧ ∀ p ∈ P, s.lastSequence < p.2.last := by
  constructor
  · intro p hp
    by_cases hle : e.walFileNumber ≤ p.1
    · exact hr.last p (Log.mem_since.mpr ⟨hp, hle⟩)
    · exact (h.stored.older p hp (by omega)).trans hr.sequence
  · intro p hp
    have hle := Log.last_ge (h.stored.history.appendable p (List.mem_append_right L hp))
    have hfresh := (h.stored.pending p hp).2
    rcases hr.source with heq | ⟨q, hq, heq⟩
    · omega
    · have := (List.pairwise_append.mp h.stored.history.increasing).2.2 q
        (Log.mem_since.mp hq).1 p hp
      omega

theorem Replayed.records (hr : Replayed e L s) (h : Backed c (H ++ J) K e T L P dir)
    (hI : J ++ K = I) : L.records = (H ++ I).filter fun r => r.last ≤ s.lastSequence := by
  obtain ⟨hin, hout⟩ := hr.sequences h
  rw [← hI, ← List.append_assoc, List.filter_append, ← h.history, ← h.pending]
  have hkeep : L.records.filter (fun r => r.last ≤ s.lastSequence) = L.records := by
    rw [List.filter_eq_self]
    intro r hr'
    obtain ⟨p, hp, rfl⟩ := List.mem_map.mp hr'
    exact decide_eq_true (hin p hp)
  have hdrop : P.records.filter (fun r => r.last ≤ s.lastSequence) = [] := by
    rw [List.filter_eq_nil_iff]
    intro r hr'
    obtain ⟨p, hp, rfl⟩ := List.mem_map.mp hr'
    have := hout p hp
    simp only [decide_eq_true_eq]
    omega
  rw [hkeep, hdrop, List.append_nil]

structure Prepared (db : DB) (e : VersionEdit) (hs : List OpenTable) : Prop where
  manifest : db.manifest = ⟨.manifest, e, e⟩
  sstables : db.sstables = hs
  immutables : db.immutables = []
  active : db.active + 1 = db.mems.length
  snapshots : ∀ s ∈ db.snapshots, s.active = false

theorem Prepared.edit (h : Prepared db e hs) : db.edit = e := by rw [DB.edit, h.manifest]

theorem Replayed.wfEdit (hr : Replayed e L s) (h : Backed c H I e T L P dir)
    (hscan : Scanned e L wals next) :
    WfEdit { e with nextFileNumber := next, lastSequence := s.lastSequence } :=
  { h.stored.wf with
    next_pos := by
      have := h.stored.below
      have := hscan.next_ge
      show next ≠ 0
      omega
    next_le := hscan.next_le
    sequence_le := by
      rcases hr.source with heq | ⟨p, hp, heq⟩
      · show s.lastSequence ≤ maxUInt64
        rw [heq]
        exact h.stored.wf.sequence_le
      · have happ := h.history_ok.appendable p (Log.mem_since.mp hp).1
        have hrange := happ.range
        have hpos := happ.positive
        show s.lastSequence ≤ maxUInt64
        rw [heq]
        unfold WALBatchRecord.last
        omega }

theorem Prepared.contents (h : Prepared db e hs) (hb : Backed c H I e T L P dir)
    (hs' : List.Forall₂ (Reopens db.cache T) e.sstables hs) (hscan : Scanned e L wals next)
    (hr : Replayed e L s) :
    ∃ m, m ≤ e.lastSequence ∧
      Contents (db.recovered wals next s).started L (firstWal e wals) (firstWal e wals) m := by
  obtain ⟨m, hm, hview⟩ := hb.stored.view
  obtain ⟨halign, hhandles, hentries⟩ := hb.stored.reopened hs'
  obtain ⟨hfirst, hlast, hnext⟩ := hscan.first hb.stored.below
  have hsince := (hscan.since_first hb.stored.below).1
  have hedit : (db.recovered wals next s).started.edit =
      { e with nextFileNumber := next, lastSequence := s.lastSequence } := by
    show ({ db.edit with nextFileNumber := next, lastSequence := s.lastSequence } : VersionEdit) = _
    rw [h.edit]
  have hseq : (db.recovered wals next s).started.lastSequence = s.lastSequence := by
    rw [DB.lastSequence, hedit]
  have holdest : (db.recovered wals next s).started.activeMemtableOldestWalFileNumber =
      firstWal e wals := by
    show wals.head?.getD db.edit.walFileNumber = _
    rw [h.edit]
    rfl
  have hreads : m ≤ s.lastSequence := hm.trans hr.sequence
  refine ⟨m, hm, ?_⟩
  exact
    { history := hb.history_ok
      last := by
        rw [hseq]
        exact (hr.sequences hb).1
      reached := by
        rw [hseq]
        rcases hr.source with heq | ⟨p, hp, heq⟩
        · exact heq ▸ hb.stored.reached
        · exact Or.inr ⟨p, (Log.mem_since.mp hp).1, heq.symm⟩
      active := by
        show db.active + 1 = (db.mems.set db.active s.mem).length
        rw [List.length_set]
        exact h.active
      queued := by
        show ∀ imm ∈ db.immutables, imm.memtable < db.active
        rw [h.immutables]
        simp
      mem := by
        have hact : (db.recovered wals next s).started.activeMemtable = s.mem :=
          activeMemtable_setMemtable h.active s.mem
        rw [hact, hsince]
        exact hr.mem
      queue := by
        show Queue (db.mems.set db.active s.mem) L _ db.immutables _
        rw [h.immutables]
        exact .nil _
      handles := by
        show ∀ t ∈ db.sstables, HandleOk t
        rw [h.sstables]
        exact hhandles
      aligned := by
        rw [hedit]
        show Aligned e.sstables db.sstables
        rw [h.sstables]
        exact halign
      edit := by
        rw [hedit]
        exact hr.wfEdit hb hscan
      levels := by
        rw [hedit]
        exact hb.stored.levels
      walStart := by
        rw [hedit]
        exact hfirst
      walOldest := by
        rw [hedit, holdest]
        exact hfirst
      queueOldest := by
        show ∀ imm ∈ db.immutables, _
        rw [h.immutables]
        simp
      oldest := Nat.le_of_eq holdest
      floorNext := by
        rw [DB.nextFileNumber, hedit]
        show firstWal e wals ≤ next
        omega
      view := by
        have hset : (db.recovered wals next s).started.tableEntries =
            hs.flatMap (·.table.entries) := by
          show db.sstables.flatMap (·.table.entries) = _
          rw [h.sstables]
        rw [hset, hsince, setOf_append, hentries, ← setOf_append]
        exact hview
      reads := by
        rw [hseq]
        exact hreads
      snapshots := by
        have hoff : ∀ x ∈ db.snapshots, x.active ≠ true := by
          intro x hx
          rw [h.snapshots x hx]
          exact Bool.false_ne_true
        exact ⟨fun x hx hact => absurd hact (hoff x hx),
          List.pairwise_of_forall_mem_list fun x hx _ _ hact => absurd hact (hoff x hx)⟩ }

theorem Prepared.reopened (h : Prepared db e hs)
    (hs' : List.Forall₂ (Reopens db.cache T) e.sstables hs) (hscan : Scanned e L wals next)
    (hr : Replayed e L s) (hI : J ++ K = I)
    (hd : Replaying c (H ++ J) K e log T L P next [] dir)
    (hlog : (dir.slot (.wal (lastWal e wals))).Exactly c
      (toCells (encodeAll Wal.encodeRecord (L.inLog (lastWal e wals))))) :
    ∃ m, Reopened c H I (db.recovered wals next s).started L (firstWal e wals) m dir := by
  have hb := hd.loaded.backed
  obtain ⟨m, hm, hcontents⟩ := h.contents hb hs' hscan hr
  obtain ⟨hfirst, hlast, hnext⟩ := hscan.first hb.stored.below
  have hedit : (db.recovered wals next s).started.edit =
      { e with nextFileNumber := next, lastSequence := s.lastSequence } := by
    show ({ db.edit with nextFileNumber := next, lastSequence := s.lastSequence } : VersionEdit) = _
    rw [h.edit]
  have hwal : (db.recovered wals next s).started.wal = some (lastWal e wals) := by
    show some (wals.getLast?.getD db.edit.walFileNumber) = _
    rw [h.edit]
    rfl
  have hpersisted : (db.recovered wals next s).started.manifest.persisted = e := by
    show db.manifest.persisted = e
    rw [h.manifest]
  have hentries : ∀ x ∈ (db.recovered wals next s).started.tableEntries,
      x.sequence ≤ e.lastSequence := by
    have hset : (db.recovered wals next s).started.tableEntries =
        hs.flatMap (·.table.entries) := by
      show db.sstables.flatMap (·.table.entries) = _
      rw [h.sstables]
    rw [hset]
    intro x hx
    have hx' : x ∈ setOf (T.flatMap (·.table.entries)) := by
      rw [← (hb.stored.reopened hs').2.2]
      exact hx
    obtain ⟨t, ht, hx'⟩ := List.mem_flatMap.mp hx'
    exact hb.stored.entries t ht x hx'
  refine ⟨m, ?_⟩
  exact
    { isOpen := rfl
      contents := hcontents
      records := by
        rw [DB.lastSequence, hedit]
        exact hr.records hb hI
      kept := by
        rw [hb.history]
        exact List.prefix_append H J
      path := by
        show db.manifest.path = .manifest
        rw [h.manifest]
      unused := by
        rw [DB.nextFileNumber, hedit]
        exact hd.unused
      places := by
        rw [DB.nextFileNumber, hedit]
        exact fun p hp => lt_of_le_of_lt (hscan.le_last hb.stored.below hp) hnext
      tables := by
        rw [DB.nextFileNumber, hedit]
        exact hscan.tables
      wal := by
        refine ⟨lastWal e wals, hwal, hlast, ?_, fun p hp => hscan.le_last hb.stored.below hp⟩
        rw [DB.nextFileNumber, hedit]
        exact hnext
      oldest := by
        show wals.head?.getD db.edit.walFileNumber = firstWal e wals
        rw [h.edit]
        rfl
      tight := by
        rw [hedit]
        exact (hscan.since_first hb.stored.below).2
      saved := by
        rw [hpersisted]
        exact
          { wf := hb.stored.wf
            below := hb.stored.below
            tables := by rw [hedit]
            wal := by rw [hedit]
            sequence := by
              rw [DB.lastSequence, hedit]
              exact hr.sequence
            entries := hentries
            older := hb.stored.older
            reached := hb.stored.reached
            reads := hm }
      held := by
        refine ⟨⟨log, by rw [hpersisted]; exact hd.loaded.logged, hd.loaded.manifest⟩, ⟨?_, ?_⟩, ?_⟩
        · show ∀ t ∈ db.sstables, _
          rw [h.sstables]
          intro t ht
          obtain ⟨f, _, hre⟩ := reopens_of_mem hs' ht
          obtain ⟨t', ht', hnum, htab⟩ := hre.table
          rw [hre.number, ← hnum, htab]
          exact hb.tables t' ht'
        · rw [hedit]
          exact fun n hn => hd.done n hn (by simp)
        · intro a ha
          rw [hwal] at ha
          rw [← Option.some.inj ha]
          exact hlog
      exact := by
        intro hempty
        have hmem := hcontents.mem
        rw [hempty, (hscan.since_first hb.stored.below).1] at hmem
        have hnil := hmem.nil_of_empty (hb.history_ok.filter _)
        rw [hpersisted, DB.lastSequence, hedit]
        rcases hr.source with heq | ⟨p, hp, _⟩
        · exact heq.symm
        · have hnil' : L.since e.walFileNumber = [] := hnil
          rw [hnil'] at hp
          cases hp }

theorem openWal_found
    (hC : ∀ d, (c → Recoverable c H I e.walFileNumber (T.map (·.fileNumber)) d) → C d)
    {a : Nat} (hge : e.walFileNumber ≤ a) (hprop : 1 ≤ a ∧ a < maxUInt64) (hlt : a < next)
    (h : Replaying c H I e log T L P next [] dir) :
    Safe (openRely C) (fun st d => st = .ok ∧ Replaying c H I e log T L P next [] d ∧
        (d.slot (.wal a)).Exactly c (toCells (encodeAll Wal.encodeRecord (L.inLog a))))
      (openWal a) dir := by
  have hplain : (FileName.wal a).Plain := ⟨hprop, fun i => by simp, by simp⟩
  have hF : Framed (fun m => m ≠ .wal a) fun d' => Keeps (fun m => m ≠ .wal a) dir d' :=
    fun _ _ hk h => h.trans hk
  have hexact : ∀ d, Keeps (fun m => m ≠ .wal a) dir d →
      (d.slot (.wal a)).Exactly c (toCells (encodeAll Wal.encodeRecord (L.inLog a))) →
      Replaying c H I e log T L P next [] d :=
    fun d hk hx => h.settle hk hlt hx fun _ _ hi => hi
  have hcr : ∀ d, Keeps (fun m => m ≠ .wal a) dir d →
      WalHolds c (d.slot (.wal a)) (L.inLog a) (P.inLog a) → C d :=
    fun d hk hx => hC d fun _ => h.loaded.log_changed hk hx
  have hlast : ∀ d, Keeps (fun m => m ≠ .wal a) dir d →
      (d.slot (.wal a)).Exactly c (toCells (encodeAll Wal.encodeRecord (L.inLog a))) →
      Safe (openRely C) (fun st d => st = Status.ok ∧ Replaying c H I e log T L P next [] d ∧
        (d.slot (.wal a)).Exactly c (toCells (encodeAll Wal.encodeRecord (L.inLog a))))
        (.ret .ok) d := fun d hk hx =>
    Safe.ret_intro (open_stable hF (lasting_exactly c _)) ⟨hk, hx⟩ fun d hd _ =>
      ⟨hC d fun _ => (hexact d hd.1 hd.2).loaded.recoverable, rfl, hexact d hd.1 hd.2, hd.2⟩
  unfold openWal
  rcases h.done a hge (by simp) with ⟨hnil, hgone⟩ | hx
  · -- there is no such log: nothing is pending there either
    have hpend : P.inLog a = [] := by
      rcases h.loaded.backed.reads a hge with ⟨hp, _⟩ | ⟨r, tail, _, _, _, hx⟩
      · exact hp
      · have hcur := hx.1
        rw [hgone.1] at hcur
        cases hcur
    have hunwritten : ∀ s : Slot Cell, (∀ o, s.Outcome c o → o = none ∨ o = some []) →
        WalHolds c s (L.inLog a) (P.inLog a) := fun s hs => Or.inl ⟨hnil, hpend, hs⟩
    refine open_attempt (fun s => Tentative c True s [] []) hF
      (fun s (hs : s.Gone c) => (⟨hs.1, fun _ _ ho => ho⟩ : s.dirSynced.Gone c))
      (fun n hn => fun hne => hne hn) (fun _ => hplain) ?_ ?_ ?_ (Keeps.refl _ dir) hgone
    · exact fun d hk hx => hcr d hk (hunwritten _ fun o ho => Or.inl (hx.outcome ho))
    · exact fun d hx => create_tentative_of_none hx.1 fun hc o ho => (hx.2 hc o ho).elim
    intro d hk hx
    refine open_attempt (fun s => s.Exactly c (toCells (encodeAll Wal.encodeRecord (L.inLog a)))) hF
      (lasting_tentative c True _ _) (fun n hn => hn.elim) (fun _ => trivial) ?_ ?_ hlast hk hx
    · intro d hk hx
      refine hcr d hk (hunwritten _ fun o ho => ?_)
      rcases hx.grows List.prefix_rfl o ho with ⟨_, hn⟩ | ⟨zs, hz, _, hpre⟩
      · exact Or.inl hn
      · rw [List.prefix_nil.mp hpre] at hz
        exact Or.inr hz
    · intro d hx
      rw [hnil]
      have hsynced : Tentative c False ((Op.syncDir.exec d).slot (.wal a)) [] [] := hx.dirSynced
      exact hsynced.exactly
  · refine open_attempt (fun s => s.Exactly c (toCells (encodeAll Wal.encodeRecord (L.inLog a)))) hF
      (lasting_exactly c _) (fun n hn => fun hne => hne hn) (fun _ => hplain) ?_
      (fun d hx => (create_tentative_of_exactly hx False).exactly) ?_ (Keeps.refl _ dir) hx
    · exact fun d hk hx => hC d fun _ => (hexact d hk hx).loaded.recoverable
    intro d hk hx
    exact open_attempt (fun s => s.Exactly c (toCells (encodeAll Wal.encodeRecord (L.inLog a)))) hF
      (lasting_exactly c _) (fun n hn => hn.elim) (fun _ => trivial)
      (fun d hk hx => hC d fun _ => (hexact d hk hx).loaded.recoverable)
      (fun d hx => lasting_exactly c _ _ hx) hlast hk hx

end

/-! ## `Open` on a database that was open before -/

section

variable {c : Prop} {H I J K : List WALBatchRecord} {e : VersionEdit} {log tail : Bytes}
  {T : List OpenTable} {L P : Log} {dir : Dir} {C : Dir → Prop} {db db' : DB}

theorem safe_andThen {R : Rely FileName Cell} {Post Q : DB × Status → Dir → Prop}
    {p : Prog (DB × Status)} {k : DB → Prog (DB × Status)}
    (h : Safe R Q p dir) (hok : ∀ res d, R.ambient d → Q res d → res.2 = .ok ∧ Safe R Post (k res.1) d) :
    Safe R Post (DB.andThen p k) dir := by
  unfold DB.andThen
  refine h.bind ?_
  rintro ⟨db', st⟩ d ha hq
  obtain ⟨hst, hk⟩ := hok _ d ha hq
  show Safe R Post (if st ≠ .ok then .ret (db', st) else k db') d
  rw [if_neg (by rw [show st = .ok from hst]; exact fun h => h rfl)]
  exact hk

section

variable (hC : ∀ d, (c → Recoverable c (H ++ J) K e.walFileNumber (T.map (·.fileNumber)) d) → C d)

include hC

/-- The last steps of `Open`: the number counter is already beyond the active log. -/
theorem recovered_start (hI : J ++ K = I) {hs : List OpenTable} (hprep : Prepared db e hs)
    (hre : List.Forall₂ (Reopens db.cache T) e.sstables hs) {wals : List Nat} {next : Nat}
    {s : DB.Replay} (hscan : Scanned e L wals next) (hrep : Replayed e L s)
    (h : Replaying c (H ++ J) K e log T L P next [] dir) :
    Safe (openRely C) (fun res d => res.2 = .ok ∧ ∃ L floor m, Reopened c H I res.1 L floor m d)
      (DB.andThen (DB.settleNextFileNumber (db.recovered wals next s)) DB.startWal) dir := by
  have hwf := h.loaded.backed.stored.wf
  obtain ⟨hfirst, hlast, hnext⟩ := hscan.first h.loaded.backed.stored.below
  have hactive : (db.recovered wals next s).activeWalFileNumber = lastWal e wals := by
    show wals.getLast?.getD db.edit.walFileNumber = _
    rw [hprep.edit]
    rfl
  have hsettled : DB.settleNextFileNumber (db.recovered wals next s) =
      .ret (db.recovered wals next s, .ok) := by
    refine if_neg ?_
    rw [hactive]
    exact Nat.not_le.mpr hnext
  have hpos := hwf.wal_pos
  have hmax := hscan.next_le
  rw [hsettled]
  show Safe _ _ (DB.startWal (db.recovered wals next s)) dir
  unfold DB.startWal
  rw [hactive]
  refine (openWal_found hC (by omega) ⟨by omega, by omega⟩ hnext h).bind ?_
  rintro st d _ ⟨rfl, hd, hlog⟩
  rw [if_neg (fun h => h rfl), ← hactive]
  have hstable : Stable (openRely C) fun d => Replaying c (H ++ J) K e log T L P next [] d ∧
      (d.slot (.wal (lastWal e wals))).Exactly c
        (toCells (encodeAll Wal.encodeRecord (L.inLog (lastWal e wals)))) :=
    fun d d' h hk => ⟨replaying_stable (C := C) d d' h.1 hk, hk.exactly trivial h.2⟩
  refine Safe.ret_intro hstable ⟨hd, hlog⟩ fun d h _ => ?_
  obtain ⟨m, hm⟩ := hprep.reopened hre hscan hrep hI h.1 h.2
  exact ⟨hC d fun _ => h.1.loaded.recoverable, rfl, L, _, m, hm⟩

/-- From the tables on, whether the version was loaded or is the first one. -/
theorem loaded_open (hI : J ++ K = I) (hsnap : ∀ s ∈ db.snapshots, s.active = false)
    (h : Loaded c (H ++ J) K e log T L P dir) {blockCache : BlockCache} {opened : List OpenTable}
    (hdb : db' = { db.resetForOpen with
      manifest := ⟨.manifest, e, e⟩, blockCache := blockCache, opened := opened }) :
    Safe (openRely C) (fun res d => res.2 = .ok ∧ ∃ L floor m, Reopened c H I res.1 L floor m d)
      (DB.andThen (DB.openSSTables db'.edit.sstables db') fun db =>
        DB.andThen (DB.recover db) fun db => DB.andThen (DB.settleNextFileNumber db) DB.startWal) dir := by
  have hedit : db'.edit = e := by rw [hdb]; rfl
  refine safe_andThen (openSSTables_safe hC db'.edit.sstables (by rw [hedit]; exact fun f hf => hf)
    db' h) ?_
  rintro res d _ ⟨hd, hs, hre, rfl⟩
  refine ⟨rfl, ?_⟩
  rw [hedit] at hre
  have hprep : Prepared { db' with sstables := db'.sstables ++ hs, opened := db'.opened ++ hs } e hs := by
    subst hdb
    refine ⟨rfl, rfl, rfl, ?_, hsnap⟩
    show db.mems.length + 1 = (db.mems ++ [[]]).length
    simp
  have hmem : ({ db' with sstables := db'.sstables ++ hs, opened := db'.opened ++ hs } : DB).activeMemtable
      = [] := by
    subst hdb
    show (db.mems ++ [[]]).getD db.mems.length [] = []
    simp
  refine safe_andThen (recover_safe hC hprep.edit hmem hd) ?_
  rintro res d _ ⟨wals, next, s, hscan, hrep, rfl, hd⟩
  refine ⟨rfl, ?_⟩
  exact recovered_start hC hI hprep hre hscan hrep hd

/-- `Open` brings a database up again that was open before. -/
theorem openUnlocked_safe (hI : J ++ K = I) (hsnap : ∀ s ∈ db.snapshots, s.active = false)
    (hlog : Logged e log) (ht : Tail encodeRecord FitsHeader tail)
    (hm : (dir.slot .manifest).Exactly c (toCells (log ++ tail)))
    (hb : Backed c (H ++ J) K e T L P dir) :
    Safe (openRely C) (fun res d => res.2 = .ok ∧ ∃ L floor m, Reopened c H I res.1 L floor m d)
      db.openUnlocked dir := by
  refine safe_andThen (loadOrRecoverManifest_safe hC hlog ht hm hb db.resetForOpen) ?_
  rintro res d _ ⟨rfl, hd⟩
  exact ⟨rfl, loaded_open hC hI hsnap hd rfl⟩

end

end

end KvMem
