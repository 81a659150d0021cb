import KvMem.Engine.System

/-! # The history of a database

Every committed batch with the number of the log it was written to. Log numbers
never decrease along the history and sequence numbers increase, so the batches of
the logs from some number on are a suffix: with a version, every newer one is in it.
-/

namespace KvMem

open Versions

/-- The versions the operations of a batch store, from a sequence number on. -/
def versionsFrom : WriteBatch → Nat → List VersionedEntry
  | [], _ => []
  | o :: ops, sequence => o.entry sequence :: versionsFrom ops (sequence + 1)

def WALBatchRecord.versions (r : WALBatchRecord) : List VersionedEntry :=
  versionsFrom r.batch r.sequence

variable {e : VersionedEntry} {ops : WriteBatch} {sequence : Nat} {m : MemTable}

theorem versionsFrom_sequence (h : e ∈ versionsFrom ops sequence) :
    sequence ≤ e.sequence ∧ e.sequence < sequence + ops.length := by
  induction ops generalizing sequence with
  | nil => cases h
  | cons o ops ih =>
    rw [List.length_cons]
    rcases List.mem_cons.mp h with rfl | h
    · refine ⟨Nat.le_refl _, ?_⟩
      show sequence < _
      omega
    · have := ih h
      omega

theorem versionsFrom_op (h : e ∈ versionsFrom ops sequence) :
    ∃ o ∈ ops, e = o.entry e.sequence := by
  induction ops generalizing sequence with
  | nil => cases h
  | cons o ops ih =>
    rcases List.mem_cons.mp h with rfl | h
    · exact ⟨o, List.mem_cons_self, rfl⟩
    · obtain ⟨o', ho', he⟩ := ih h
      exact ⟨o', List.mem_cons_of_mem o ho', he⟩

theorem versionsFrom_inj {x y : VersionedEntry} (hx : x ∈ versionsFrom ops sequence)
    (hy : y ∈ versionsFrom ops sequence) (h : x.sequence = y.sequence) : x = y := by
  induction ops generalizing sequence with
  | nil => cases hx
  | cons o ops ih =>
    have hlater : ∀ z ∈ versionsFrom ops (sequence + 1), sequence < z.sequence := by
      intro z hz
      exact (versionsFrom_sequence hz).1
    rcases List.mem_cons.mp hx with rfl | hx'
    · rcases List.mem_cons.mp hy with rfl | hy'
      · rfl
      · have hlt := hlater y hy'
        have hs : (o.entry sequence).sequence = sequence := rfl
        omega
    · rcases List.mem_cons.mp hy with rfl | hy'
      · have hlt := hlater x hx'
        have hs : (o.entry sequence).sequence = sequence := rfl
        omega
      · exact ih hx' hy'

/-! ## Batches in memtables -/

theorem applyBatch_cons (o : WriteBatchOperation) (ops : WriteBatch) (sequence : Nat)
    (m : MemTable) :
    DB.applyBatch (o :: ops) sequence m =
      DB.applyBatch ops (sequence + 1) (MemTable.insert (o.entry sequence) m) := by
  cases o <;> rfl

theorem applyBatch_strict (hm : StrictRun m) (ops : WriteBatch) (sequence : Nat) :
    StrictRun (DB.applyBatch ops sequence m) := by
  induction ops generalizing sequence m with
  | nil => exact hm
  | cons o ops ih =>
    rw [applyBatch_cons]
    exact ih (MemTable.insert_sorted hm) (sequence + 1)

theorem mem_applyBatch (ops : WriteBatch) (hnew : ∀ x ∈ m, x.sequence < sequence)
    (e : VersionedEntry) :
    e ∈ DB.applyBatch ops sequence m ↔ e ∈ m ∨ e ∈ versionsFrom ops sequence := by
  induction ops generalizing sequence m with
  | nil =>
    show e ∈ m ↔ e ∈ m ∨ e ∈ []
    simp
  | cons o ops ih =>
    have hfresh : ∀ x ∈ m, ¬ (x.key = (o.entry sequence).key ∧
        x.sequence = (o.entry sequence).sequence) := by
      intro x hx hsame
      have hlt := hnew x hx
      have hs : (o.entry sequence).sequence = sequence := rfl
      omega
    have hins := MemTable.mem_insert_of_new hfresh
    have hnew' : ∀ x ∈ MemTable.insert (o.entry sequence) m, x.sequence < sequence + 1 := by
      intro x hx
      rcases (hins x).mp hx with hx | rfl
      · have := hnew x hx
        omega
      · exact Nat.lt_succ_self sequence
    rw [applyBatch_cons, ih hnew', hins, versionsFrom, List.mem_cons, or_assoc]

/-! ## Batches and the logs they are in -/

/-- The committed batches, each with the number of its log. -/
abbrev Log := List (Nat × WALBatchRecord)

namespace Log

def records (L : Log) : List WALBatchRecord := L.map Prod.snd

def versions (L : Log) : List VersionedEntry := L.flatMap fun p => p.2.versions

/-- The batches in the logs from `b` on. -/
def since (L : Log) (b : Nat) : Log := L.filter fun p => b ≤ p.1

def within (L : Log) (a b : Nat) : Log := L.filter fun p => a ≤ p.1 ∧ p.1 < b

/-- The last sequence of some batch, or none has been used yet. -/
def Reaches (L : Log) (n : Nat) : Prop := n = 0 ∨ ∃ p ∈ L, p.2.last = n

variable {n b a : Nat} {p q : Nat × WALBatchRecord} {r : WALBatchRecord} {x y : VersionedEntry}

theorem Reaches.append {L : Log} (h : L.Reaches n) (M : Log) : Reaches (L ++ M) n := by
  rcases h with h | ⟨p, hp, hlast⟩
  · exact Or.inl h
  · exact Or.inr ⟨p, List.mem_append_left M hp, hlast⟩

def inLog (L : Log) (n : Nat) : List WALBatchRecord := records (L.filter fun p => p.1 = n)

structure Ok (L : Log) : Prop where
  places : L.Pairwise fun p q => p.1 ≤ q.1
  increasing : L.Pairwise fun p q => p.2.last < q.2.sequence
  appendable : ∀ p ∈ L, Wal.Appendable p.2
  keys : ∀ p ∈ L, ∀ o ∈ p.2.batch, KeyOk o.key

theorem mem_versions {L : Log} {e : VersionedEntry} :
    e ∈ L.versions ↔ ∃ p ∈ L, e ∈ p.2.versions := List.mem_flatMap

theorem versions_append (L M : Log) : versions (L ++ M) = versions L ++ versions M :=
  List.flatMap_append

theorem mem_since {L : Log} : p ∈ L.since b ↔ p ∈ L ∧ b ≤ p.1 := by
  simp [since]

theorem mem_within {L : Log} : p ∈ L.within a b ↔ p ∈ L ∧ a ≤ p.1 ∧ p.1 < b := by
  simp [within]

theorem since_append (L M : Log) (b : Nat) : since (L ++ M) b = since L b ++ since M b :=
  List.filter_append ..

theorem last_ge (h : Wal.Appendable r) : r.sequence ≤ r.last := by
  have hpos : 0 < r.batch.count := List.length_pos_of_ne_nil h.nonempty
  unfold WALBatchRecord.last
  omega

theorem versions_range {e : VersionedEntry} (h : e ∈ r.versions) :
    r.sequence ≤ e.sequence ∧ e.sequence ≤ r.last := by
  have hs := versionsFrom_sequence h
  have hc : r.batch.count = r.batch.length := rfl
  unfold WALBatchRecord.last
  omega

variable {L : Log}

section

variable (h : L.Ok)

include h

theorem Ok.sublist {M : Log} (hs : M.Sublist L) : Ok M :=
  ⟨h.places.sublist hs, h.increasing.sublist hs, fun p hp => h.appendable p (hs.mem hp),
    fun p hp => h.keys p (hs.mem hp)⟩

theorem Ok.order (hp : p ∈ L) (hq : q ∈ L) :
    p = q ∨ (p.1 ≤ q.1 ∧ p.2.last < q.2.sequence) ∨ (q.1 ≤ p.1 ∧ q.2.last < p.2.sequence) := by
  have hboth : L.Pairwise fun p q => p.1 ≤ q.1 ∧ p.2.last < q.2.sequence :=
    h.places.and h.increasing
  rcases eq_or_ne p q with he | hne
  · exact Or.inl he
  · right
    obtain ⟨i, hi, rfl⟩ := List.mem_iff_getElem.mp hp
    obtain ⟨j, hj, rfl⟩ := List.mem_iff_getElem.mp hq
    rcases Nat.lt_trichotomy i j with hij | hij | hij
    · exact Or.inl (List.pairwise_iff_getElem.mp hboth i j hi hj hij)
    · subst hij
      exact absurd rfl hne
    · exact Or.inr (List.pairwise_iff_getElem.mp hboth j i hj hi hij)

theorem Ok.place_le (hp : p ∈ L) (hq : q ∈ L) (hx : x ∈ p.2.versions)
    (hy : y ∈ q.2.versions) (hs : x.sequence ≤ y.sequence) : p.1 ≤ q.1 := by
  rcases h.order hp hq with rfl | ⟨hle, _⟩ | ⟨_, hlt⟩
  · exact Nat.le_refl _
  · exact hle
  · have hxr := versions_range hx
    have hyr := versions_range hy
    omega

theorem Ok.version_inj (hx : x ∈ L.versions) (hy : y ∈ L.versions)
    (hs : x.sequence = y.sequence) : x = y := by
  obtain ⟨p, hp, hx⟩ := mem_versions.mp hx
  obtain ⟨q, hq, hy⟩ := mem_versions.mp hy
  have hxr := versions_range hx
  have hyr := versions_range hy
  rcases h.order hp hq with rfl | ⟨_, hlt⟩ | ⟨_, hlt⟩
  · exact versionsFrom_inj hx hy hs
  · omega
  · omega

theorem Ok.functional : Functional (setOf L.versions) :=
  fun _ hx _ hy _ hs => h.version_inj hx hy hs

/-- The logs from some number on hold, with a version, every newer one. -/
theorem Ok.upClosed (b : Nat) : UpClosed (setOf (L.since b).versions) (setOf L.versions) := by
  intro x hx y hy _ hs
  obtain ⟨p, hp, hx⟩ := mem_versions.mp hx
  obtain ⟨q, hq, hy⟩ := mem_versions.mp hy
  obtain ⟨hpL, hbp⟩ := mem_since.mp hp
  exact mem_versions.mpr ⟨q, mem_since.mpr ⟨hq, hbp.trans (h.place_le hpL hq hx hy hs)⟩, hy⟩

theorem Ok.sequence_pos {e : VersionedEntry} (he : e ∈ L.versions) : 1 ≤ e.sequence := by
  obtain ⟨p, hp, he⟩ := mem_versions.mp he
  have := (versions_range he).1
  have := (h.appendable p hp).positive
  omega

theorem Ok.sequence_le {e : VersionedEntry} (he : e ∈ L.versions) : e.sequence ≤ maxUInt64 := by
  obtain ⟨p, hp, he⟩ := mem_versions.mp he
  have hle := (versions_range he).2
  have hrange := (h.appendable p hp).range
  have hpos := (h.appendable p hp).positive
  unfold WALBatchRecord.last at hle
  omega

theorem Ok.keyOk {e : VersionedEntry} (he : e ∈ L.versions) : KeyOk e.key := by
  obtain ⟨p, hp, he⟩ := mem_versions.mp he
  obtain ⟨o, ho, heq⟩ := versionsFrom_op he
  rw [heq]
  exact h.keys p hp o ho

theorem Ok.recordsFit {es : List VersionedEntry} (hes : ∀ e ∈ es, e ∈ L.versions) :
    SSTable.RecordsFit es := by
  have hop : ∀ e ∈ es, ∃ o : WriteBatchOperation, e = o.entry e.sequence ∧
      o.key.length ≤ maxUInt32 ∧ o.value.length ≤ maxUInt32 := by
    intro e he
    obtain ⟨p, hp, he⟩ := mem_versions.mp (hes e he)
    obtain ⟨o, ho, heq⟩ := versionsFrom_op he
    exact ⟨o, heq, WriteBatch.operation_lengths
      (WriteBatch.encode_length_of_valid (h.appendable p hp).encoding).1 ho⟩
  refine ⟨fun e he => ⟨h.sequence_le (hes e he), ?_⟩, fun e he => ?_, fun e he => ?_⟩
  all_goals
    obtain ⟨o, heq, hkey, hvalue⟩ := hop e he
    rw [heq]
  · cases o with
    | put key value => exact fun hd => by cases hd
    | delete key => exact fun _ => rfl
  · exact hkey
  · exact hvalue

theorem Ok.snoc (hplace : ∀ p ∈ L, p.1 ≤ n) (hlast : ∀ p ∈ L, p.2.last < r.sequence)
    (hr : Wal.Appendable r) (hkeys : ∀ o ∈ r.batch, KeyOk o.key) : Ok (L ++ [(n, r)]) := by
  refine ⟨?_, ?_, ?_, ?_⟩
  · refine List.pairwise_append.mpr ⟨h.places, List.pairwise_singleton _ _, ?_⟩
    intro p hp q hq
    rw [List.mem_singleton.mp hq]
    exact hplace p hp
  · refine List.pairwise_append.mpr ⟨h.increasing, List.pairwise_singleton _ _, ?_⟩
    intro p hp q hq
    rw [List.mem_singleton.mp hq]
    exact hlast p hp
  · intro p hp
    rcases List.mem_append.mp hp with hp | hp
    · exact h.appendable p hp
    · rw [List.mem_singleton.mp hp]
      exact hr
  · intro p hp
    rcases List.mem_append.mp hp with hp | hp
    · exact h.keys p hp
    · rw [List.mem_singleton.mp hp]
      exact hkeys

end

theorem since_versions_subset (L : Log) (b : Nat) :
    setOf (L.since b).versions ⊆ setOf L.versions := by
  intro e he
  obtain ⟨p, hp, he⟩ := mem_versions.mp he
  exact mem_versions.mpr ⟨p, (mem_since.mp hp).1, he⟩

theorem mem_versions_split (L : Log) (hab : a ≤ b) (e : VersionedEntry) :
    e ∈ (L.since a).versions ↔ e ∈ (L.within a b).versions ∨ e ∈ (L.since b).versions := by
  simp only [mem_versions, mem_since, mem_within]
  constructor
  · rintro ⟨p, ⟨hp, ha⟩, he⟩
    by_cases hb : p.1 < b
    · exact Or.inl ⟨p, ⟨hp, ha, hb⟩, he⟩
    · exact Or.inr ⟨p, ⟨hp, Nat.le_of_not_lt hb⟩, he⟩
  · rintro (⟨p, ⟨hp, ha, _⟩, he⟩ | ⟨p, ⟨hp, hb⟩, he⟩)
    · exact ⟨p, ⟨hp, ha⟩, he⟩
    · exact ⟨p, ⟨hp, hab.trans hb⟩, he⟩

end Log

end KvMem
