import KvMem.Foundation.Versions
import KvMem.Storage.WriteBatch

/-! # Sorted runs of versions and the memtable

Versions are kept in the order of their internal keys: key ascending, sequence
descending. The memtable is the map its skip list represents, as one sorted run;
a lookup is the first version at or behind the internal key it seeks.
-/

namespace KvMem

open Versions

instance : Versioned VersionedEntry Bytes Bytes where
  key := VersionedEntry.key
  seq := VersionedEntry.sequence
  live e := if e.deleted then none else some e.value

/-- Internal-key order. -/
def EntryLt (a b : VersionedEntry) : Prop :=
  a.key < b.key ∨ (a.key = b.key ∧ b.sequence < a.sequence)

instance (a b : VersionedEntry) : Decidable (EntryLt a b) := by
  unfold EntryLt
  infer_instance

def StrictRun (es : List VersionedEntry) : Prop := es.Pairwise EntryLt

/-- The order of a table: a compaction may write a version twice when its inputs
repeat it. -/
def EntryLe (a b : VersionedEntry) : Prop := EntryLt a b ∨ a = b

def SortedRun (es : List VersionedEntry) : Prop := es.Pairwise EntryLe

variable {es : List VersionedEntry} {a b : VersionedEntry} {k : Bytes} {r : Nat}

theorem StrictRun.sorted (h : StrictRun es) : SortedRun es :=
  h.imp Or.inl

theorem EntryLt.trans {c : VersionedEntry} (hab : EntryLt a b) (hbc : EntryLt b c) :
    EntryLt a c := by
  rcases hab with hab | ⟨hab, hsab⟩
  · rcases hbc with hbc | ⟨hbc, _⟩
    · exact Or.inl (lt_trans hab hbc)
    · exact Or.inl (hbc ▸ hab)
  · rcases hbc with hbc | ⟨hbc, hsbc⟩
    · exact Or.inl (hab ▸ hbc)
    · exact Or.inr ⟨hab.trans hbc, by omega⟩

theorem EntryLt.irrefl (a : VersionedEntry) : ¬ EntryLt a a := by
  rintro (h | ⟨_, h⟩)
  · exact lt_irrefl _ h
  · omega

theorem EntryLt.key_le (h : EntryLt a b) : a.key ≤ b.key := by
  rcases h with h | ⟨h, _⟩
  · exact le_of_lt h
  · exact le_of_eq h

theorem EntryLe.key_le (h : EntryLe a b) : a.key ≤ b.key := by
  rcases h with h | rfl
  · exact h.key_le
  · exact le_refl _

theorem EntryLe.sequence_le (h : EntryLe a b) (hk : a.key = b.key) : b.sequence ≤ a.sequence := by
  rcases h with (hlt | ⟨_, hlt⟩) | rfl
  · rw [hk] at hlt
    exact absurd hlt (lt_irrefl _)
  · exact Nat.le_of_lt hlt
  · exact Nat.le_refl _

theorem EntryLe.eq (h : EntryLe a b) (hk : a.key = b.key) (hs : a.sequence = b.sequence) :
    a = b := by
  rcases h with (hlt | ⟨_, hlt⟩) | rfl
  · rw [hk] at hlt
    exact absurd hlt (lt_irrefl _)
  · omega
  · rfl

theorem entryLt_trichotomy (a b : VersionedEntry) :
    EntryLt a b ∨ (a.key = b.key ∧ a.sequence = b.sequence) ∨ EntryLt b a := by
  rcases lt_trichotomy a.key b.key with h | h | h
  · exact Or.inl (Or.inl h)
  · rcases Nat.lt_trichotomy a.sequence b.sequence with hs | hs | hs
    · exact Or.inr (Or.inr (Or.inr ⟨h.symm, hs⟩))
    · exact Or.inr (Or.inl ⟨h, hs⟩)
    · exact Or.inl (Or.inr ⟨h, hs⟩)
  · exact Or.inr (Or.inr (Or.inl h))

theorem SortedRun.dropWhile_eq_filter (hs : SortedRun es) (target : Bytes) :
    es.dropWhile (fun e => decide (e.key < target)) =
      es.filter fun e => decide (target ≤ e.key) := by
  induction es with
  | nil => rfl
  | cons e es ih =>
    obtain ⟨he, hes⟩ := List.pairwise_cons.mp hs
    by_cases hlt : e.key < target
    · rw [List.dropWhile_cons, if_pos (by simpa using hlt), List.filter_cons,
        if_neg (by simpa using hlt), ih hes]
    · have hge := not_lt.mp hlt
      rw [List.dropWhile_cons, if_neg (by simpa using hlt)]
      symm
      rw [List.filter_eq_self]
      intro x hx
      rcases List.mem_cons.mp hx with rfl | hx'
      · simpa using hge
      · simpa using hge.trans (he x hx').key_le

theorem SortedRun.functional (h : SortedRun es) : Functional (setOf es) := by
  induction es with
  | nil =>
    intro x hx
    cases hx
  | cons e es ih =>
    obtain ⟨he, hes⟩ := List.pairwise_cons.mp h
    intro x hx y hy hk hs
    rcases List.mem_cons.mp hx with rfl | hx'
    · rcases List.mem_cons.mp hy with rfl | hy'
      · rfl
      · exact (he y hy').eq hk hs
    · rcases List.mem_cons.mp hy with rfl | hy'
      · exact ((he x hx').eq hk.symm hs.symm).symm
      · exact ih hes x hx' y hy' hk hs

theorem SortedRun.newest_of_find (h : SortedRun es) {x : VersionedEntry}
    (hx : es.find? (fun e => e.key = k ∧ e.sequence ≤ r) = some x) : Newest (setOf es) k r x := by
  induction es with
  | nil => cases hx
  | cons e es ih =>
    obtain ⟨he, hes⟩ := List.pairwise_cons.mp h
    by_cases hc : e.key = k ∧ e.sequence ≤ r
    · simp only [List.find?_cons, hc, and_self, decide_true, Option.some.injEq] at hx
      subst hx
      refine ⟨List.mem_cons_self, hc.1, hc.2, ?_⟩
      intro y hy hk hr
      rcases List.mem_cons.mp hy with rfl | hy'
      · exact Nat.le_refl _
      · exact (he y hy').sequence_le (hc.1.trans hk.symm)
    · simp only [List.find?_cons, hc, decide_false] at hx
      have hn := ih hes hx
      refine ⟨List.mem_cons_of_mem e hn.mem, hn.key_eq, hn.seq_le, ?_⟩
      intro y hy hk hr
      rcases List.mem_cons.mp hy with rfl | hy'
      · exact absurd ⟨hk, hr⟩ hc
      · exact hn.newest y hy' hk hr

theorem noVersion_of_find (hx : es.find? (fun e => e.key = k ∧ e.sequence ≤ r) = none) :
    NoVersion (setOf es) k r := by
  intro x hx' hk
  rw [List.find?_eq_none] at hx
  have hno := hx x hx'
  by_contra hle
  exact hno (by simpa using ⟨hk, Nat.le_of_not_lt hle⟩)

/-- Keys of a batch the write path and the recovery accept. -/
def validateKey (key : Bytes) : Status :=
  if key = [] then .invalidArgument "key cannot be empty"
  else if 9 ∈ key ∨ 10 ∈ key ∨ 0 ∈ key then
    .invalidArgument "key cannot contain tab, newline, or NUL"
  else .ok

structure KeyOk (key : Bytes) : Prop where
  nonempty : key ≠ []
  noTab : 9 ∉ key
  noNewline : 10 ∉ key
  noNul : 0 ∉ key

theorem validateKey_ok {key : Bytes} : validateKey key = .ok ↔ KeyOk key := by
  unfold validateKey
  constructor
  · intro h
    split at h
    · cases h
    · rename_i hne
      split at h
      · cases h
      · rename_i hbytes
        simp only [not_or] at hbytes
        exact ⟨hne, hbytes.1, hbytes.2.1, hbytes.2.2⟩
  · intro h
    simp [h.nonempty, h.noTab, h.noNewline, h.noNul]

/-! ## The memtable -/

abbrev MemTable := List VersionedEntry

namespace MemTable

/-- Insert a version, or overwrite the one with the same key and sequence. -/
def insert (e : VersionedEntry) : MemTable → MemTable
  | [] => [e]
  | x :: xs =>
    if EntryLt x e then x :: insert e xs
    else if x.key = e.key ∧ x.sequence = e.sequence then e :: xs
    else e :: x :: xs

def put (m : MemTable) (key : Bytes) (sequence : Nat) (value : Bytes) : MemTable :=
  insert ⟨key, sequence, value, false⟩ m

def delete (m : MemTable) (key : Bytes) (sequence : Nat) : MemTable :=
  insert ⟨key, sequence, [], true⟩ m

/-- The first version at or behind the internal key of `(key, readSequence)`. -/
def get (m : MemTable) (key : Bytes) (readSequence : Nat) : Option VersionedEntry :=
  match m.dropWhile (fun e => EntryLt e ⟨key, readSequence, [], false⟩) with
  | [] => none
  | e :: _ => if e.key ≠ key ∨ e.sequence > readSequence then none else some e

def entries (m : MemTable) : List VersionedEntry := m

def size (m : MemTable) : Nat := m.length

variable {e : VersionedEntry} {m : MemTable}

theorem mem_insert_of_new (hnew : ∀ x ∈ m, ¬ (x.key = e.key ∧ x.sequence = e.sequence))
    (y : VersionedEntry) : y ∈ insert e m ↔ y ∈ m ∨ y = e := by
  induction m with
  | nil => simp [insert]
  | cons x xs ih =>
    have hx := hnew x List.mem_cons_self
    have ih' := ih fun z hz => hnew z (List.mem_cons_of_mem x hz)
    simp only [insert, hx, if_false]
    split
    · simp only [List.mem_cons, ih', or_assoc]
    · simp only [List.mem_cons]
      tauto

theorem lt_of_mem_insert {a : VersionedEntry} (ha : ∀ x ∈ m, EntryLt a x) (he : EntryLt a e) :
    ∀ y ∈ insert e m, EntryLt a y := by
  induction m with
  | nil =>
    intro y hy
    rw [insert, List.mem_singleton] at hy
    exact hy ▸ he
  | cons x xs ih =>
    have hxs : ∀ z ∈ xs, EntryLt a z := fun z hz => ha z (List.mem_cons_of_mem x hz)
    intro y hy
    simp only [insert] at hy
    split at hy
    · rcases List.mem_cons.mp hy with rfl | hy'
      · exact ha _ List.mem_cons_self
      · exact ih hxs y hy'
    · split at hy
      · rcases List.mem_cons.mp hy with rfl | hy'
        · exact he
        · exact hxs y hy'
      · rcases List.mem_cons.mp hy with rfl | hy'
        · exact he
        · exact ha y hy'

theorem insert_sorted (hs : StrictRun m) : StrictRun (insert e m) := by
  induction m with
  | nil => exact List.pairwise_singleton _ _
  | cons x xs ih =>
    obtain ⟨hx, hxs⟩ := List.pairwise_cons.mp hs
    simp only [insert]
    split
    · rename_i hlt
      exact List.pairwise_cons.mpr ⟨lt_of_mem_insert hx hlt, ih hxs⟩
    · rename_i hlt
      split
      · -- the same key and sequence: the new version takes the old place
        rename_i heq
        refine List.pairwise_cons.mpr ⟨fun y hy => ?_, hxs⟩
        have hxy := hx y hy
        unfold EntryLt at hxy ⊢
        rwa [heq.1, heq.2] at hxy
      · rename_i hne
        have hex : EntryLt e x := by
          rcases entryLt_trichotomy x e with h | h | h
          · exact absurd h hlt
          · exact absurd h hne
          · exact h
        refine List.pairwise_cons.mpr ⟨fun y hy => ?_, hs⟩
        rcases List.mem_cons.mp hy with rfl | hy'
        · exact hex
        · exact hex.trans (hx y hy')

theorem get_eq_find (hs : StrictRun m) (key : Bytes) (r : Nat) :
    m.get key r = m.find? fun e => e.key = key ∧ e.sequence ≤ r := by
  induction m with
  | nil => rfl
  | cons e es ih =>
    obtain ⟨he, hes⟩ := List.pairwise_cons.mp hs
    by_cases hlt : EntryLt e ⟨key, r, [], false⟩
    · have hno : ¬ (e.key = key ∧ e.sequence ≤ r) := by
        rintro ⟨hk, hr⟩
        rcases hlt with hlt | ⟨_, hlt⟩
        · exact absurd (hk ▸ hlt) (lt_irrefl _)
        · exact absurd hr (Nat.not_le_of_lt hlt)
      have hget : get (e :: es) key r = get es key r := by
        simp only [get, List.dropWhile_cons, hlt, decide_true, if_true]
      rw [hget, ih hes, List.find?_cons, decide_eq_false hno]
    · have hget : get (e :: es) key r =
          if e.key ≠ key ∨ e.sequence > r then none else some e := by
        simp only [get, List.dropWhile_cons, hlt, decide_false, Bool.false_eq_true, if_false]
      by_cases hc : e.key = key ∧ e.sequence ≤ r
      · have hno : ¬ (e.key ≠ key ∨ e.sequence > r) := by
          rintro (h | h)
          · exact h hc.1
          · omega
        rw [hget, if_neg hno, List.find?_cons, decide_eq_true hc]
      · -- behind the sought position no later version can match either
        have hyes : e.key ≠ key ∨ e.sequence > r := by
          by_contra hcon
          simp only [not_or, not_not] at hcon
          exact hc ⟨hcon.1, by omega⟩
        rw [hget, if_pos hyes, List.find?_cons, decide_eq_false hc]
        symm
        rw [List.find?_eq_none]
        intro y hy hcy
        simp only [decide_eq_true_eq] at hcy
        have hey := he y hy
        apply hlt
        rcases hey with hk | ⟨hk, hs⟩
        · exact Or.inl (hcy.1 ▸ hk)
        · rcases Nat.lt_or_ge r e.sequence with h | h
          · exact Or.inr ⟨hk.trans hcy.1, h⟩
          · exact absurd ⟨hk.trans hcy.1, h⟩ hc

end MemTable

end KvMem
