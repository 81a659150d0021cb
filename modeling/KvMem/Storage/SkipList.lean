import KvMem.Foundation.SkipLists
import KvMem.Storage.Format
import KvMem.Storage.MemTable

/-! # The skip list of a memtable

The nodes are ordered by internal key and hold the entry without its key. The memtable
of the engine is the map this list represents: whatever levels the insertions draw, a
run of writes leaves exactly the versions that `MemTable.insert` leaves, and lookups
agree.
-/

namespace KvMem

open Versions SkipLists

structure Entry where
  sequence : Nat
  value : Bytes
  deleted : Bool
  deriving DecidableEq, Repr

def VersionedEntry.internalKey (e : VersionedEntry) : Bytes := encodeInternalKey e.key e.sequence

def VersionedEntry.entry (e : VersionedEntry) : Entry := ⟨e.sequence, e.value, e.deleted⟩

/-- The list of `skiplist.cc`; the level `RandomLevel` draws is an argument. -/
abbrev EntryList := SkipLists.SkipList Bytes Entry

namespace EntryList

def kMaxLevel : Nat := 12

def create : EntryList := SkipList.empty kMaxLevel

def insert (l : EntryList) (key : Bytes) (sequence : Nat) (value : Bytes) (deleted : Bool)
    (newLevel : Nat) : EntryList :=
  SkipList.insert l (encodeInternalKey key sequence) ⟨sequence, value, deleted⟩ newLevel

def put (l : EntryList) (key : Bytes) (sequence : Nat) (value : Bytes) (newLevel : Nat) :
    EntryList :=
  insert l key sequence value false newLevel

def delete (l : EntryList) (key : Bytes) (sequence : Nat) (newLevel : Nat) : EntryList :=
  insert l key sequence [] true newLevel

def get (l : EntryList) (key : Bytes) (readSequence : Nat) : Option Entry :=
  match (l.findGreaterOrEqual (encodeInternalKey key readSequence)).2.bind fun id => l.nodes[id]? with
  | none => none
  | some candidate =>
    match decodeInternalKey candidate.key with
    | none => none
    | some (candidateKey, candidateSequence) =>
      if candidateKey ≠ key ∨ candidateSequence > readSequence then none
      else some candidate.value

def entries (l : EntryList) : List VersionedEntry :=
  (l.levelIds 0).filterMap fun id =>
    (l.nodes[id]?).bind fun node =>
      (decodeInternalKey node.key).map fun (userKey, sequence) =>
        ⟨userKey, sequence, node.value.value, node.value.deleted⟩

def size (l : EntryList) : Nat := SkipList.size l

def levelKeys (l : EntryList) (i : Nat) : List Bytes :=
  (l.levelIds i).filterMap fun id => (l.nodes[id]?).map fun node => node.key

end EntryList

inductive EntryWrite where
  | put (key : Bytes) (sequence : Nat) (value : Bytes)
  | delete (key : Bytes) (sequence : Nat)
  deriving DecidableEq, Repr

namespace EntryWrite

def version : EntryWrite → VersionedEntry
  | put key sequence value => ⟨key, sequence, value, false⟩
  | delete key sequence => ⟨key, sequence, [], true⟩

def apply (l : EntryList) (newLevel : Nat) : EntryWrite → EntryList
  | put key sequence value => l.put key sequence value newLevel
  | delete key sequence => l.delete key sequence newLevel

theorem apply_eq (l : EntryList) (newLevel : Nat) (w : EntryWrite) :
    w.apply l newLevel = SkipList.insert l w.version.internalKey w.version.entry newLevel := by
  cases w with
  | put key sequence value => rfl
  | delete key sequence => rfl

end EntryWrite

/-- A run of calls, each with the level drawn for it. -/
def EntryList.run (writes : List (EntryWrite × Nat)) : EntryList :=
  writes.foldl (fun l w => w.1.apply l w.2) EntryList.create

def lastWritten (writes : List VersionedEntry) (key : Bytes) (sequence : Nat) :
    Option VersionedEntry :=
  writes.reverse.find? fun e => e.key = key ∧ e.sequence = sequence

/-! ## The memtable as a map -/

namespace MemTable

variable {e : VersionedEntry} {m : MemTable}

theorem insert_eq_filter (hs : StrictRun m) :
    insert e m = (m.filter fun x => EntryLt x e) ++ e :: m.filter fun x => EntryLt e x := by
  induction m with
  | nil => rfl
  | cons x xs ih =>
    obtain ⟨hx, hxs⟩ := List.pairwise_cons.mp hs
    have hasymm : ∀ {a b : VersionedEntry}, EntryLt a b → ¬ EntryLt b a :=
      fun hab hba => EntryLt.irrefl _ (hab.trans hba)
    -- once a version is not before `e`, all later ones are behind it
    have hrest : (∀ y ∈ xs, EntryLt e y) →
        (xs.filter fun y => decide (EntryLt y e)) = [] ∧
          (xs.filter fun y => decide (EntryLt e y)) = xs := by
      intro hall
      constructor
      · rw [List.filter_eq_nil_iff]
        intro y hy
        simpa using hasymm (hall y hy)
      · rw [List.filter_eq_self]
        intro y hy
        simpa using hall y hy
    simp only [insert]
    by_cases hlt : EntryLt x e
    · rw [if_pos hlt, ih hxs, List.filter_cons_of_pos (by simpa using hlt),
        List.filter_cons_of_neg (by simpa using hasymm hlt), List.cons_append]
    · rw [if_neg hlt, List.filter_cons_of_neg (by simpa using hlt)]
      by_cases hsame : x.key = e.key ∧ x.sequence = e.sequence
      · have hall : ∀ y ∈ xs, EntryLt e y := by
          intro y hy
          have hxy := hx y hy
          unfold EntryLt at hxy ⊢
          rwa [hsame.1, hsame.2] at hxy
        have hnot : ¬ EntryLt e x := by
          rintro (hk | ⟨_, hq⟩)
          · exact absurd (hsame.1 ▸ hk) (lt_irrefl _)
          · omega
        rw [if_pos hsame, (hrest hall).1, List.filter_cons_of_neg (by simpa using hnot),
          (hrest hall).2, List.nil_append]
      · have hex : EntryLt e x := by
          rcases entryLt_trichotomy x e with h | h | h
          · exact absurd h hlt
          · exact absurd h hsame
          · exact h
        have hall : ∀ y ∈ xs, EntryLt e y := fun y hy => hex.trans (hx y hy)
        rw [if_neg hsame, (hrest hall).1, List.filter_cons_of_pos (by simpa using hex),
          (hrest hall).2, List.nil_append]

theorem mem_insert (hs : StrictRun m) (y : VersionedEntry) :
    y ∈ insert e m ↔ y = e ∨ (y ∈ m ∧ ¬ (y.key = e.key ∧ y.sequence = e.sequence)) := by
  have hne : (EntryLt y e ∨ EntryLt e y) ↔ ¬ (y.key = e.key ∧ y.sequence = e.sequence) := by
    constructor
    · rintro ((hk | ⟨_, hq⟩) | (hk | ⟨_, hq⟩)) ⟨hke, hqe⟩
      · exact absurd (hke ▸ hk) (lt_irrefl _)
      · omega
      · exact absurd (hke ▸ hk) (lt_irrefl _)
      · omega
    · intro h
      rcases entryLt_trichotomy y e with h' | h' | h'
      · exact Or.inl h'
      · exact absurd h' h
      · exact Or.inr h'
  rw [insert_eq_filter hs, List.mem_append, List.mem_cons, List.mem_filter, List.mem_filter,
    decide_eq_true_iff, decide_eq_true_iff, ← hne]
  tauto

def written (writes : List VersionedEntry) : MemTable := writes.foldl (fun m e => insert e m) []

theorem written_append (writes : List VersionedEntry) (e : VersionedEntry) :
    written (writes ++ [e]) = insert e (written writes) := by
  rw [written, List.foldl_append]
  rfl

theorem written_sorted (writes : List VersionedEntry) : StrictRun (written writes) := by
  induction writes using List.reverseRecOn with
  | nil => exact List.Pairwise.nil
  | append_singleton writes e ih =>
    rw [written_append]
    exact insert_sorted ih

theorem mem_written (writes : List VersionedEntry) (e : VersionedEntry) :
    e ∈ written writes ↔ lastWritten writes e.key e.sequence = some e := by
  induction writes using List.reverseRecOn with
  | nil => simp [written, lastWritten]
  | append_singleton writes x ih =>
    rw [written_append, mem_insert (written_sorted writes), ih, lastWritten, lastWritten,
      List.reverse_append, List.reverse_singleton, List.singleton_append, List.find?_cons]
    by_cases hx : x.key = e.key ∧ x.sequence = e.sequence
    · rw [decide_eq_true hx]
      simp only [hx.1, hx.2, and_self, not_true_eq_false, and_false, or_false, Option.some.injEq]
      exact eq_comm
    · rw [decide_eq_false hx]
      have hsym : ¬ (e.key = x.key ∧ e.sequence = x.sequence) :=
        fun h => hx ⟨h.1.symm, h.2.symm⟩
      have hne : e ≠ x := by
        rintro rfl
        exact hx ⟨rfl, rfl⟩
      simp only [hsym, hne, not_false_eq_true, and_true, false_or]

theorem exists_written_iff (writes : List VersionedEntry) (key : Bytes) (sequence : Nat) :
    (∃ e ∈ written writes, e.key = key ∧ e.sequence = sequence) ↔
      ∃ e ∈ writes, e.key = key ∧ e.sequence = sequence := by
  constructor
  · rintro ⟨e, he, hk, hs⟩
    rw [mem_written] at he
    exact ⟨e, List.mem_reverse.mp (List.mem_of_find?_eq_some he), hk, hs⟩
  · rintro ⟨e, he, hk, hs⟩
    have hsome : (lastWritten writes key sequence).isSome := by
      rw [lastWritten, List.find?_isSome]
      exact ⟨e, List.mem_reverse.mpr he, by simpa using ⟨hk, hs⟩⟩
    obtain ⟨x, hx⟩ := Option.isSome_iff_exists.mp hsome
    have hpair : x.key = key ∧ x.sequence = sequence := by simpa using List.find?_some hx
    refine ⟨x, ?_, hpair⟩
    rw [mem_written, hpair.1, hpair.2]
    exact hx

theorem length_written (writes : List VersionedEntry) :
    (written writes).length = ((writes.map fun e => (e.key, e.sequence)).dedup).length := by
  have hnodup : ((written writes).map fun e => (e.key, e.sequence)).Nodup := by
    rw [List.nodup_iff_pairwise_ne, List.pairwise_map]
    refine (written_sorted writes).imp ?_
    rintro a b (hk | ⟨_, hq⟩) he
    · rw [(Prod.mk.inj he).1] at hk
      exact lt_irrefl _ hk
    · rw [(Prod.mk.inj he).2] at hq
      exact Nat.lt_irrefl _ hq
  have hperm : ((written writes).map fun e => (e.key, e.sequence)).Perm
      ((writes.map fun e => (e.key, e.sequence)).dedup) := by
    rw [List.perm_ext_iff_of_nodup hnodup (List.nodup_dedup _)]
    rintro ⟨key, sequence⟩
    have h := exists_written_iff writes key sequence
    simpa only [List.mem_dedup, List.mem_map, Prod.mk.injEq] using h
  rw [← hperm.length_eq, List.length_map]

end MemTable

/-! ## The list refines the memtable -/

def VersionedEntry.pair (e : VersionedEntry) : Bytes × Entry := (e.internalKey, e.entry)

def VersionedEntry.Encodable (e : VersionedEntry) : Prop := 0 ∉ e.key ∧ e.sequence ≤ maxUInt64

theorem VersionedEntry.Encodable.internalKey_lt_iff {a b : VersionedEntry} (ha : a.Encodable)
    (hb : b.Encodable) : a.internalKey < b.internalKey ↔ EntryLt a b :=
  encodeInternalKey_lt_iff ha.1 hb.1 ha.2 hb.2

namespace EntryList

def Represents (l : EntryList) (m : MemTable) : Prop :=
  ∃ order, SkipList.Inv kMaxLevel l order ∧ l.contents order = m.map VersionedEntry.pair

theorem represents_create : Represents create [] :=
  ⟨[], SkipList.inv_empty (by decide), rfl⟩

variable {l : EntryList} {m : MemTable} {r : Nat}

theorem Represents.insert (h : Represents l m) (hs : StrictRun m) (hm : ∀ x ∈ m, x.Encodable)
    {e : VersionedEntry} (he : e.Encodable) {newLevel : Nat} (hpos : 1 ≤ newLevel)
    (hle : newLevel ≤ kMaxLevel) :
    Represents (SkipList.insert l e.internalKey e.entry newLevel) (MemTable.insert e m) := by
  obtain ⟨order, hinv, hcontents⟩ := h
  obtain ⟨order', hinv', hcontents'⟩ := hinv.insert e.internalKey e.entry hpos hle
  refine ⟨order', hinv', ?_⟩
  rw [hcontents', hcontents, MemTable.insert_eq_filter hs, List.map_append, List.map_cons,
    List.filter_map, List.filter_map]
  congr 1
  · exact congrArg _ (List.filter_congr fun x hx =>
      decide_eq_decide.mpr ((hm x hx).internalKey_lt_iff he))
  · congr 1
    exact congrArg _ (List.filter_congr fun x hx =>
      decide_eq_decide.mpr (he.internalKey_lt_iff (hm x hx)))

theorem encodable_written {writes : List VersionedEntry} (h : ∀ e ∈ writes, e.Encodable) :
    ∀ e ∈ MemTable.written writes, e.Encodable := by
  intro e he
  obtain ⟨x, hx, hk, hs⟩ :=
    (MemTable.exists_written_iff writes e.key e.sequence).mp ⟨e, he, rfl, rfl⟩
  have hok := h x hx
  rw [VersionedEntry.Encodable, hk, hs] at hok
  exact hok

/-- Whatever levels are drawn, the list represents the table of the same writes. -/
theorem represents_run (writes : List (EntryWrite × Nat))
    (hwrites : ∀ w ∈ writes, w.1.version.Encodable)
    (hlevels : ∀ w ∈ writes, 1 ≤ w.2 ∧ w.2 ≤ kMaxLevel) :
    Represents (run writes) (MemTable.written (writes.map fun w => w.1.version)) := by
  induction writes using List.reverseRecOn with
  | nil => exact represents_create
  | append_singleton writes w ih =>
    have hrun : run (writes ++ [w]) = w.1.apply (run writes) w.2 := by
      rw [run, List.foldl_append]
      rfl
    have hrest : ∀ x ∈ writes, x ∈ writes ++ [w] := fun x hx => List.mem_append_left _ hx
    have hw : w ∈ writes ++ [w] := List.mem_append_right _ List.mem_cons_self
    have hprev := ih (fun x hx => hwrites x (hrest x hx)) fun x hx => hlevels x (hrest x hx)
    rw [hrun, EntryWrite.apply_eq, List.map_append, List.map_singleton, MemTable.written_append]
    refine hprev.insert (MemTable.written_sorted _) ?_ (hwrites w hw) (hlevels w hw).1
      (hlevels w hw).2
    apply encodable_written
    intro e he
    obtain ⟨x, hx, rfl⟩ := List.mem_map.mp he
    exact hwrites x (hrest x hx)

theorem filterMap_nodes {β : Type} (l : EntryList) (ids : List Nat) (f : Bytes × Entry → Option β) :
    (ids.filterMap fun id => (l.nodes[id]?).bind fun node => f (node.key, node.value)) =
      (l.contents ids).filterMap f := by
  rw [SkipList.contents, List.filterMap_filterMap]
  apply List.filterMap_congr
  intro id _
  rw [SkipList.info, Option.map_map]
  cases l.nodes[id]? with
  | none => rfl
  | some node => rfl

theorem Represents.entries_eq (h : Represents l m) (hm : ∀ x ∈ m, x.Encodable) : l.entries = m := by
  obtain ⟨order, hinv, hcontents⟩ := h
  have hnodes := filterMap_nodes l order fun x =>
    (decodeInternalKey x.1).map fun (userKey, sequence) =>
      (⟨userKey, sequence, x.2.value, x.2.deleted⟩ : VersionedEntry)
  rw [entries, hinv.levelIds_zero]
  refine hnodes.trans ?_
  rw [hcontents, List.filterMap_map]
  have hself : ∀ x ∈ m, (decodeInternalKey x.internalKey).map (fun (userKey, sequence) =>
      (⟨userKey, sequence, x.value, x.deleted⟩ : VersionedEntry)) = some x := by
    intro x hx
    rw [VersionedEntry.internalKey, decodeInternalKey_encode x.key (hm x hx).2]
    rfl
  exact (List.filterMap_congr hself).trans List.filterMap_some

theorem Represents.size_eq (h : Represents l m) : l.size = m.length := by
  obtain ⟨order, hinv, hcontents⟩ := h
  have hlen := hinv.length_contents
  rw [hcontents, List.length_map] at hlen
  exact hlen.symm

/-- The first version from the sought internal key on decides: it is the newest visible
version of the key, or there is none. -/
theorem find_from_internalKey (hs : StrictRun m) (hm : ∀ x ∈ m, x.Encodable) (key : Bytes)
    (hr : r ≤ maxUInt64) :
    ((m.find? fun x => ¬ x.internalKey < encodeInternalKey key r).bind fun x =>
      if x.key ≠ key ∨ x.sequence > r then none else some x) =
        m.find? fun x => x.key = key ∧ x.sequence ≤ r := by
  induction m with
  | nil => rfl
  | cons e es ih =>
    obtain ⟨he, hes⟩ := List.pairwise_cons.mp hs
    have ih := ih hes fun x hx => hm x (List.mem_cons_of_mem e hx)
    have hok := hm e List.mem_cons_self
    by_cases hlt : e.internalKey < encodeInternalKey key r
    · have hno : ¬ (e.key = key ∧ e.sequence ≤ r) := by
        rintro ⟨rfl, hle⟩
        exact absurd hlt (not_lt.mpr (encodeInternalKey_le_of_seek hok.1 (le_refl _) hr hle))
      rw [List.find?_cons_of_neg (by simpa using hlt), List.find?_cons_of_neg (by simpa using hno)]
      exact ih
    · rw [List.find?_cons_of_pos (by simpa using hlt), Option.bind_some]
      by_cases hyes : e.key = key ∧ e.sequence ≤ r
      · have hcheck : ¬ (e.key ≠ key ∨ e.sequence > r) := by
          rintro (h | h)
          · exact h hyes.1
          · omega
        rw [List.find?_cons_of_pos (by simpa using hyes), if_neg hcheck]
      · have hcheck : e.key ≠ key ∨ e.sequence > r := by
          by_cases hk : e.key = key
          · exact Or.inr (Nat.lt_of_not_le fun hle => hyes ⟨hk, hle⟩)
          · exact Or.inl hk
        rw [if_pos hcheck]
        symm
        rw [List.find?_eq_none]
        intro y hy hmatch
        have hmatch : y.key = key ∧ y.sequence ≤ r := by simpa using hmatch
        have hyok := hm y hy
        rcases List.mem_cons.mp hy with rfl | hy
        · exact hyes hmatch
        · -- `e` lies between the sought position and a visible version of the key
          have hnul : 0 ∉ key := hmatch.1 ▸ hyok.1
          have hpos : ¬ (e.key < key ∨ (e.key = key ∧ r < e.sequence)) := fun h =>
            hlt ((encodeInternalKey_lt_iff hok.1 hnul hok.2 hr).mpr h)
          have hey := he y hy
          rw [EntryLt, hmatch.1] at hey
          rcases hey with hk | ⟨hk, hq⟩
          · exact hpos (Or.inl hk)
          · exact hyes ⟨hk, Nat.le_of_not_lt fun h => hpos (Or.inr ⟨hk, h⟩)⟩

theorem Represents.get_eq (h : Represents l m) (hs : StrictRun m) (hm : ∀ x ∈ m, x.Encodable)
    (key : Bytes) (hr : r ≤ maxUInt64) :
    l.get key r = (m.find? fun x => x.key = key ∧ x.sequence ≤ r).map VersionedEntry.entry := by
  obtain ⟨order, hinv, hcontents⟩ := h
  have hfind := hinv.find_eq (encodeInternalKey key r)
  rw [hcontents, List.find?_map] at hfind
  rw [← find_from_internalKey hs hm key hr]
  have hfound : ((l.findGreaterOrEqual (encodeInternalKey key r)).2.bind fun id =>
      (l.nodes[id]?).map fun node => (node.key, node.value)) =
        (m.find? fun x => ¬ x.internalKey < encodeInternalKey key r).map VersionedEntry.pair := by
    refine Eq.trans ?_ (hfind.trans ?_)
    · congr 1
      funext id
      rw [SkipList.info, Option.map_map]
      rfl
    · congr 2
      funext x
      exact decide_eq_decide.mpr Iff.rfl
  have hin : ∀ x ∈ m.find? (fun x => ¬ x.internalKey < encodeInternalKey key r), x ∈ m :=
    fun x hx => List.mem_of_find?_eq_some hx
  rw [get]
  generalize m.find? (fun x => ¬ x.internalKey < encodeInternalKey key r) = found at hfound hin
  generalize (l.findGreaterOrEqual (encodeInternalKey key r)).2 = candidate at hfound
  have hnode : (candidate.bind fun id => l.nodes[id]?).map (fun node => (node.key, node.value)) =
      found.map VersionedEntry.pair := by
    rw [← hfound]
    cases candidate with
    | none => rfl
    | some id => rfl
  generalize (candidate.bind fun id => l.nodes[id]?) = node at hnode
  cases found with
  | none =>
    cases node with
    | none => rfl
    | some n => cases hnode
  | some x =>
    cases node with
    | none => cases hnode
    | some n =>
      have hpair : (n.key, n.value) = (x.internalKey, x.entry) := Option.some.inj hnode
      obtain ⟨hkey, hvalue⟩ := Prod.mk.inj hpair
      have hdecode : decodeInternalKey n.key = some (x.key, x.sequence) := by
        rw [hkey]
        exact decodeInternalKey_encode x.key (hm x (hin x rfl)).2
      simp only [hdecode, hvalue, Option.bind_some]
      split
      · rfl
      · rfl

theorem levelKeys_eq (l : EntryList) (i : Nat) :
    l.levelKeys i = (l.contents (l.levelIds i)).map Prod.fst := by
  have h := filterMap_nodes l (l.levelIds i) fun x => some x.1
  rw [List.filterMap_eq_map'] at h
  rw [← h, levelKeys]
  apply List.filterMap_congr
  intro id _
  cases l.nodes[id]? with
  | none => rfl
  | some node => rfl

theorem run_memTable (writes : List (EntryWrite × Nat))
    (hwrites : ∀ w ∈ writes, w.1.version.Encodable)
    (hlevels : ∀ w ∈ writes, 1 ≤ w.2 ∧ w.2 ≤ kMaxLevel) :
    (run writes).entries = (MemTable.written (writes.map fun w => w.1.version)).entries ∧
      (run writes).size = (MemTable.written (writes.map fun w => w.1.version)).size ∧
      ∀ key r, r ≤ maxUInt64 → (run writes).get key r =
        ((MemTable.written (writes.map fun w => w.1.version)).get key r).map
          VersionedEntry.entry := by
  have hrep := represents_run writes hwrites hlevels
  have hsorted := MemTable.written_sorted (writes.map fun w => w.1.version)
  have hok : ∀ e ∈ MemTable.written (writes.map fun w => w.1.version), e.Encodable := by
    apply encodable_written
    intro e he
    obtain ⟨w, hw, rfl⟩ := List.mem_map.mp he
    exact hwrites w hw
  refine ⟨hrep.entries_eq hok, hrep.size_eq, fun key r hr => ?_⟩
  rw [hrep.get_eq hsorted hok key hr, MemTable.get_eq_find hsorted]

/-- Whatever levels the insertions draw: every level ends, is sorted and is part of the
one below; the entries are the versions written last, in order; and a lookup finds the
newest visible version of its key. -/
theorem run_sortedMap (writes : List (EntryWrite × Nat))
    (hwrites : ∀ w ∈ writes, w.1.version.Encodable)
    (hlevels : ∀ w ∈ writes, 1 ≤ w.2 ∧ w.2 ≤ kMaxLevel) :
    (∀ i < kMaxLevel, ((run writes).levelKeys i).Pairwise (· < ·) ∧
      ∀ fuel, (run writes).nodes.length ≤ fuel →
        (run writes).follow i fuel ((run writes).next .head i) = (run writes).levelIds i) ∧
    (∀ i, i + 1 < kMaxLevel →
      ((run writes).levelIds (i + 1)).Sublist ((run writes).levelIds i)) ∧
    StrictRun (run writes).entries ∧
    (∀ e, e ∈ (run writes).entries ↔
      lastWritten (writes.map fun w => w.1.version) e.key e.sequence = some e) ∧
    (run writes).size =
      ((writes.map fun w => (w.1.version.key, w.1.version.sequence)).dedup).length ∧
    ∀ key r, r ≤ maxUInt64 →
      (∀ e : Entry, (run writes).get key r = some e ↔
        Newest (setOf (run writes).entries) key r ⟨key, e.sequence, e.value, e.deleted⟩) ∧
      ((run writes).get key r = none ↔ NoVersion (setOf (run writes).entries) key r) := by
  obtain ⟨hentries, hsize, hget⟩ := run_memTable writes hwrites hlevels
  obtain ⟨order, hinv, -⟩ := represents_run writes hwrites hlevels
  have hsorted := MemTable.written_sorted (writes.map fun w => w.1.version)
  rw [MemTable.entries] at hentries
  refine ⟨?_, ?_, ?_, ?_, ?_, ?_⟩
  · intro i hi
    refine ⟨?_, ?_⟩
    · rw [levelKeys_eq, List.pairwise_map]
      exact hinv.level_sorted hi
    · intro fuel hfuel
      rw [hinv.follow_eq hi hfuel, hinv.levelIds_eq hi]
  · intro i hi
    exact hinv.levelIds_sublist hi
  · rw [hentries]
    exact hsorted
  · intro e
    rw [hentries]
    exact MemTable.mem_written _ e
  · rw [hsize, MemTable.size, MemTable.length_written, List.map_map]
    rfl
  · intro key r hr
    rw [hentries, hget key r hr, MemTable.get_eq_find hsorted]
    generalize hm : MemTable.written (writes.map fun w => w.1.version) = m at hsorted
    cases hfind : m.find? fun e => e.key = key ∧ e.sequence ≤ r with
    | none =>
      have hno := noVersion_of_find hfind
      refine ⟨fun e => ⟨fun h => (by cases h), fun h => ?_⟩, ⟨fun _ => hno, fun _ => rfl⟩⟩
      exact absurd h.seq_le (Nat.not_le_of_lt (hno _ h.mem h.key_eq))
    | some x =>
      have hnew := hsorted.sorted.newest_of_find hfind
      have hkey : x.key = key := hnew.key_eq
      refine ⟨fun e => ⟨fun h => ?_, fun h => ?_⟩, ⟨fun h => (by cases h), fun h => ?_⟩⟩
      · have hx : x = ⟨key, e.sequence, e.value, e.deleted⟩ := by
          rw [← Option.some.inj h, ← hkey]
          rfl
        rw [← hx]
        exact hnew
      · -- two newest versions of a key have the same sequence
        have hle := hnew.newest _ h.mem h.key_eq h.seq_le
        have hge := h.newest x hnew.mem hnew.key_eq hnew.seq_le
        have hx := hsorted.sorted.functional x hnew.mem _ h.mem (hnew.key_eq.trans h.key_eq.symm)
          (Nat.le_antisymm hge hle)
        rw [hx]
        rfl
      · exact absurd hnew.seq_le (Nat.not_le_of_lt (h x hnew.mem hnew.key_eq))

def fourWrites : List (EntryWrite × Nat) :=
  [(.put (ascii "b") 5 (ascii "old"), 3), (.put (ascii "a") 7 (ascii "x"), 1),
    (.delete (ascii "b") 9, 12), (.put (ascii "b") 5 (ascii "new"), 2)]

theorem run_sortedMap_four :
    (run fourWrites).size = 3 ∧
      (⟨ascii "b", 5, ascii "new", false⟩ : VersionedEntry) ∈ (run fourWrites).entries ∧
      ((run fourWrites).levelIds 1).Sublist ((run fourWrites).levelIds 0) := by
  have hwrites : ∀ w ∈ fourWrites, w.1.version.Encodable := by
    intro w hw
    simp only [fourWrites, List.mem_cons, List.not_mem_nil, or_false] at hw
    rcases hw with rfl | rfl | rfl | rfl
    · exact ⟨by decide, by decide⟩
    · exact ⟨by decide, by decide⟩
    · exact ⟨by decide, by decide⟩
    · exact ⟨by decide, by decide⟩
  obtain ⟨-, hsub, -, hmem, hsize, -⟩ := run_sortedMap fourWrites hwrites (by decide)
  exact ⟨hsize.trans (by decide), (hmem _).mpr (by decide), hsub 0 (by decide)⟩

end EntryList

end KvMem
