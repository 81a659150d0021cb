import KvMem.Foundation.Recency
import KvMem.Storage.BlockCache

/-! # The block cache as two linked structures

The list of entries, and an index from keys to iterators into the list. Following an
iterator to an entry that is gone is a failure here. Under the invariant that list and
index hold the same keys, no call fails, and the cache is the one of `BlockCache`. Over
any calls the list holds the most recently used keys in order.
-/

namespace KvMem

open Recency

/-- An entry of the list. Iterators to it compare by its place in memory. -/
structure CacheEntry where
  iterator : Nat
  key : Nat × Nat
  block : Bytes
  deriving DecidableEq, Repr

structure LinkedCache where
  capacity : Nat
  entries : List CacheEntry := []
  index : List ((Nat × Nat) × Nat) := []
  nextIterator : Nat := 0
  hits : Nat := 0
  misses : Nat := 0
  deriving DecidableEq, Repr

namespace LinkedCache

def entryAt (c : LinkedCache) (iterator : Nat) : Option CacheEntry :=
  c.entries.find? fun e => e.iterator = iterator

def spliceFront (e : CacheEntry) (entries : List CacheEntry) : List CacheEntry :=
  e :: entries.filter fun x => x.iterator ≠ e.iterator

def get (c : LinkedCache) (fileNumber blockOffset : Nat) : Option (Option Bytes × LinkedCache) :=
  let miss := (none, { c with misses := c.misses + 1 })
  if c.capacity = 0 then some miss
  else
    match c.index.find? fun p => p.1 = (fileNumber, blockOffset) with
    | none => some miss
    | some found =>
      match c.entryAt found.2 with
      | none => none
      | some e =>
        some (some e.block,
          { c with entries := spliceFront e c.entries, hits := c.hits + 1 })

def evict : Nat → LinkedCache → LinkedCache
  | 0, c => c
  | fuel + 1, c =>
    if c.entries.length > c.capacity then
      match c.entries.getLast? with
      | none => c
      | some e =>
        evict fuel { c with
          index := c.index.eraseP fun p => p.1 = e.key
          entries := c.entries.dropLast }
    else c

def pushFront (c : LinkedCache) (key : Nat × Nat) (block : Bytes) : LinkedCache :=
  { c with
    entries := ⟨c.nextIterator, key, block⟩ :: c.entries
    index := (key, c.nextIterator) :: c.index
    nextIterator := c.nextIterator + 1 }

def put (c : LinkedCache) (fileNumber blockOffset : Nat) (block : Bytes) : Option LinkedCache :=
  if c.capacity = 0 then some c
  else
    match c.index.find? fun p => p.1 = (fileNumber, blockOffset) with
    | some found =>
      match c.entryAt found.2 with
      | none => none
      | some e => some { c with entries := spliceFront { e with block := block } c.entries }
    | none => some (evict (c.entries.length + 1) (c.pushFront (fileNumber, blockOffset) block))

/-! ## List and index hold the same keys -/

structure Linked (c : LinkedCache) : Prop where
  index : c.index.Perm (c.entries.map fun e => (e.key, e.iterator))
  keys : (c.entries.map (·.key)).Nodup
  iterators : (c.entries.map (·.iterator)).Nodup
  fresh : ∀ e ∈ c.entries, e.iterator < c.nextIterator
  size : c.entries.length ≤ c.capacity

variable {c : LinkedCache}

theorem linked_new (capacity : Nat) : Linked { capacity := capacity } where
  index := List.Perm.refl _
  keys := List.nodup_nil
  iterators := List.nodup_nil
  fresh := by
    intro e he
    cases he
  size := Nat.zero_le _

variable {e e' : CacheEntry}

section

variable (h : Linked c)

include h

theorem Linked.key_inj (he : e ∈ c.entries) (he' : e' ∈ c.entries) (hk : e.key = e'.key) : e = e' :=
  List.inj_on_of_nodup_map h.keys he he' hk

theorem Linked.iterator_inj (he : e ∈ c.entries) (he' : e' ∈ c.entries)
    (hi : e.iterator = e'.iterator) : e = e' :=
  List.inj_on_of_nodup_map h.iterators he he' hi

theorem Linked.entryAt (he : e ∈ c.entries) : c.entryAt e.iterator = some e := by
  unfold LinkedCache.entryAt
  cases hf : c.entries.find? fun x => x.iterator = e.iterator with
  | none =>
    have hno := List.find?_eq_none.mp hf e he
    simp at hno
  | some x =>
    have hx := List.mem_of_find?_eq_some hf
    have hi : x.iterator = e.iterator := by simpa using List.find?_some hf
    rw [h.iterator_inj hx he hi]

/-- The index finds a key exactly when the list holds it, and then leads to its entry. -/
theorem Linked.find_index (key : Nat × Nat) :
    (c.index.find? (fun p => p.1 = key) = none ∧ key ∉ c.entries.map (·.key)) ∨
    ∃ e ∈ c.entries, e.key = key ∧ c.index.find? (fun p => p.1 = key) = some (key, e.iterator) := by
  cases hf : c.index.find? fun p => p.1 = key with
  | none =>
    left
    refine ⟨rfl, ?_⟩
    intro hmem
    obtain ⟨e, he, hk⟩ := List.mem_map.mp hmem
    have hin : (e.key, e.iterator) ∈ c.index :=
      h.index.mem_iff.mpr (List.mem_map.mpr ⟨e, he, rfl⟩)
    have hno := List.find?_eq_none.mp hf _ hin
    simp [hk] at hno
  | some p =>
    right
    obtain ⟨e, he, hp⟩ := List.mem_map.mp (h.index.mem_iff.mp (List.mem_of_find?_eq_some hf))
    have hk : p.1 = key := by simpa using List.find?_some hf
    have hek : e.key = key := by
      rw [← hk, ← hp]
    refine ⟨e, he, hek, ?_⟩
    rw [← hp, hek]

theorem Linked.empty_of_zero (h0 : c.capacity = 0) : c.entries = [] := by
  have hsize := h.size
  exact List.eq_nil_of_length_eq_zero (by omega)

theorem Linked.get_cases (n off : Nat) : ((n, off) ∉ c.entries.map (·.key) ∧
      c.get n off = some (none, { c with misses := c.misses + 1 })) ∨
    ∃ e ∈ c.entries, e.key = (n, off) ∧
      c.get n off = some (some e.block,
        { c with entries := spliceFront e c.entries, hits := c.hits + 1 }) := by
  by_cases h0 : c.capacity = 0
  · left
    refine ⟨?_, by simp [get, h0]⟩
    rw [h.empty_of_zero h0]
    simp
  · rcases h.find_index (n, off) with ⟨hf, hno⟩ | ⟨e, he, hk, hf⟩
    · left
      exact ⟨hno, by simp only [get, h0, if_false, hf]⟩
    · right
      exact ⟨e, he, hk, by simp only [get, h0, if_false, hf, h.entryAt he]⟩

theorem Linked.put_cases (n off : Nat) (block : Bytes) :
    (c.capacity = 0 ∧ c.put n off block = some c) ∨
    (∃ e ∈ c.entries, e.key = (n, off) ∧
      c.put n off block =
        some { c with entries := spliceFront { e with block := block } c.entries }) ∨
    (c.capacity ≠ 0 ∧ (n, off) ∉ c.entries.map (·.key) ∧
      c.put n off block = some (evict (c.entries.length + 1) (c.pushFront (n, off) block))) := by
  by_cases h0 : c.capacity = 0
  · left
    exact ⟨h0, by simp [put, h0]⟩
  · right
    rcases h.find_index (n, off) with ⟨hf, hno⟩ | ⟨e, he, hk, hf⟩
    · right
      exact ⟨h0, hno, by simp only [put, h0, if_false, hf]⟩
    · left
      exact ⟨e, he, hk, by simp only [put, h0, if_false, hf, h.entryAt he]⟩

/-! ## Moving an entry to the front -/

theorem Linked.filter_iterator (he : e ∈ c.entries) :
    (c.entries.filter fun x => x.iterator ≠ e.iterator) =
      c.entries.filter fun x => x.key ≠ e.key := by
  apply List.filter_congr
  intro x hx
  have hiff : x.iterator = e.iterator ↔ x.key = e.key := by
    constructor
    · intro hi
      rw [h.iterator_inj hx he hi]
    · intro hk
      rw [h.key_inj hx he hk]
  simp [hiff]

theorem Linked.spliceFront_keys (he : e ∈ c.entries) (block : Bytes) :
    (spliceFront { e with block := block } c.entries).map (·.key) =
      e.key :: (c.entries.map (·.key)).filter fun k => k ≠ e.key := by
  rw [spliceFront, h.filter_iterator he, List.map_cons, List.filter_map]
  rfl

theorem Linked.spliceFront_pairs (he : e ∈ c.entries) (block : Bytes) :
    ((spliceFront { e with block := block } c.entries).map fun x => (x.key, x.iterator)).Perm
      (c.entries.map fun x => (x.key, x.iterator)) := by
  have hnodup : c.entries.Nodup := List.Nodup.of_map _ h.iterators
  have hrest : (c.entries.filter fun x => x.iterator ≠ e.iterator) = c.entries.erase e := by
    rw [hnodup.erase_eq_filter]
    apply List.filter_congr
    intro x hx
    by_cases heq : x = e
    · simp [heq]
    · have hne : x.iterator ≠ e.iterator := fun hi => heq (h.iterator_inj hx he hi)
      simp [heq, hne]
  have hperm : (e :: c.entries.filter fun x => x.iterator ≠ e.iterator).Perm c.entries := by
    rw [hrest]
    exact (List.perm_cons_erase he).symm
  exact hperm.map fun x => (x.key, x.iterator)

theorem Linked.splice (he : e ∈ c.entries) (block : Bytes) (hits : Nat) :
    Linked { c with entries := spliceFront { e with block := block } c.entries, hits := hits } := by
  have hpairs := h.spliceFront_pairs he block
  have hkeys := hpairs.map Prod.fst
  have hiterators := hpairs.map Prod.snd
  simp only [List.map_map] at hkeys hiterators
  exact {
    index := h.index.trans hpairs.symm
    keys := hkeys.nodup_iff.mpr h.keys
    iterators := hiterators.nodup_iff.mpr h.iterators
    fresh := by
      intro x hx
      have hmem : x.iterator ∈ c.entries.map (·.iterator) :=
        hiterators.mem_iff.mp (List.mem_map.mpr ⟨x, hx, rfl⟩)
      obtain ⟨y, hy, hxy⟩ := List.mem_map.mp hmem
      rw [← hxy]
      exact h.fresh y hy
    size := by
      have hlen := hpairs.length_eq
      rw [List.length_map, List.length_map] at hlen
      exact hlen.le.trans h.size }

end

/-! ## Adding an entry -/

theorem evict_of_le (fuel : Nat) (h : c.entries.length ≤ c.capacity) : evict fuel c = c := by
  cases fuel with
  | zero => rfl
  | succ fuel => rw [evict, if_neg (Nat.not_lt.mpr h)]

theorem evict_last {front : List CacheEntry} {last : CacheEntry} (fuel : Nat)
    (hentries : c.entries = front ++ [last]) (hlen : front.length = c.capacity) :
    evict (fuel + 1) c =
      { c with index := c.index.eraseP fun p => p.1 = last.key, entries := front } := by
  have hlong : c.entries.length > c.capacity := by
    rw [hentries, List.length_append, List.length_singleton]
    omega
  have hlast : c.entries.getLast? = some last := by
    rw [hentries, List.getLast?_concat]
  have hfront : c.entries.dropLast = front := by
    rw [hentries, List.dropLast_concat]
  rw [evict, if_pos hlong, hlast, hfront]
  exact evict_of_le fuel (by simpa using hlen.le)

theorem index_eraseP {index : List ((Nat × Nat) × Nat)} {front : List CacheEntry}
    {last : CacheEntry}
    (h : index.Perm ((front ++ [last]).map fun e => (e.key, e.iterator)))
    (hout : ∀ e ∈ front, e.key ≠ last.key) :
    (index.eraseP fun p => p.1 = last.key).Perm (front.map fun e => (e.key, e.iterator)) := by
  rw [List.map_append] at h
  have hnone : ∀ p ∈ front.map fun e => (e.key, e.iterator), ¬ decide (p.1 = last.key) = true := by
    intro p hp
    obtain ⟨e, he, rfl⟩ := List.mem_map.mp hp
    simpa using hout e he
  have hpair : List.Pairwise
      (fun a b => decide (a.1 = last.key) = true → decide (b.1 = last.key) = true → False)
      ((front.map fun e => (e.key, e.iterator)) ++ [last].map fun e => (e.key, e.iterator)) := by
    refine List.pairwise_append.mpr ⟨?_, List.pairwise_singleton _ _, ?_⟩
    · exact List.pairwise_of_forall_mem_list fun a ha _ _ hpa _ => hnone a ha hpa
    · intro a ha b _ hpa _
      exact hnone a ha hpa
  have herase := List.Perm.eraseP (fun p => decide (p.1 = last.key)) hpair h.symm
  rw [List.eraseP_append_right _ hnone, List.map_singleton,
    List.eraseP_cons_of_pos (by simp), List.append_nil] at herase
  exact herase.symm

theorem Linked.pushFront (h : Linked c) {key : Nat × Nat} (hno : key ∉ c.entries.map (·.key))
    (block : Bytes) :
    (c.pushFront key block).index.Perm
        ((c.pushFront key block).entries.map fun e => (e.key, e.iterator)) ∧
      ((c.pushFront key block).entries.map (·.key)).Nodup ∧
      ((c.pushFront key block).entries.map (·.iterator)).Nodup ∧
      ∀ e ∈ (c.pushFront key block).entries, e.iterator < c.nextIterator + 1 := by
  refine ⟨h.index.cons _, List.nodup_cons.mpr ⟨hno, h.keys⟩, List.nodup_cons.mpr ⟨?_, h.iterators⟩, ?_⟩
  · intro hmem
    obtain ⟨e, he, hi⟩ := List.mem_map.mp hmem
    exact absurd hi (h.fresh e he).ne
  · intro e he
    rcases List.mem_cons.mp he with rfl | he
    · exact Nat.lt_succ_self _
    · exact (h.fresh e he).trans (Nat.lt_succ_self _)

theorem Linked.add (h : Linked c) {key : Nat × Nat} (hno : key ∉ c.entries.map (·.key))
    (block : Bytes) :
    Linked (evict (c.entries.length + 1) (c.pushFront key block)) ∧
      (evict (c.entries.length + 1) (c.pushFront key block)).capacity = c.capacity ∧
      (evict (c.entries.length + 1) (c.pushFront key block)).entries =
        (⟨c.nextIterator, key, block⟩ :: c.entries).take c.capacity := by
  obtain ⟨hindex, hkeys, hiterators, hfresh⟩ := h.pushFront hno block
  have hsize := h.size
  have hpushed : (c.pushFront key block).entries = ⟨c.nextIterator, key, block⟩ :: c.entries := rfl
  by_cases hroom : c.entries.length < c.capacity
  · rw [evict_of_le _ (show (c.pushFront key block).entries.length ≤ c.capacity from hroom)]
    refine ⟨⟨hindex, hkeys, hiterators, hfresh, hroom⟩, rfl, ?_⟩
    rw [hpushed, List.take_of_length_le (by simpa using hroom)]
  · -- full: the last entry goes, and its key out of the index
    have hfull : c.entries.length = c.capacity := by omega
    rcases List.eq_nil_or_concat (c.pushFront key block).entries with hnil | ⟨front, last, hcat⟩
    · cases hnil
    · rw [List.concat_eq_append] at hcat
      have hlen : front.length = c.capacity := by
        have htotal := congrArg List.length hcat
        rw [hpushed, List.length_cons, List.length_append, List.length_singleton] at htotal
        omega
      rw [evict_last _ hcat hlen]
      rw [hcat] at hindex hkeys hiterators
      rw [List.map_append] at hkeys hiterators
      have hout : ∀ e ∈ front, e.key ≠ last.key := by
        intro e he
        have hdisjoint := (List.nodup_append.mp hkeys).2.2
        exact hdisjoint e.key (List.mem_map.mpr ⟨e, he, rfl⟩) last.key (by simp)
      refine ⟨⟨?_, ?_, ?_, ?_, hlen.le⟩, rfl, ?_⟩
      · exact index_eraseP hindex hout
      · exact (List.nodup_append.mp hkeys).1
      · exact (List.nodup_append.mp hiterators).1
      · intro e he
        exact hfresh e (by rw [hcat]; exact List.mem_append_left _ he)
      · rw [← hpushed, hcat]
        exact (List.take_left' hlen).symm

/-! ## Calls and what they use -/

inductive CacheCall where
  | get (fileNumber blockOffset : Nat)
  | put (fileNumber blockOffset : Nat) (block : Bytes)
  deriving DecidableEq, Repr

/-- A call and the block it found, if it is a lookup that hit. -/
abbrev CacheEvent := CacheCall × Option Bytes

def call (c : LinkedCache) : CacheCall → Option (Option Bytes × LinkedCache)
  | .get n off => c.get n off
  | .put n off block => (c.put n off block).map fun c => (none, c)

def calls (c : LinkedCache) : List CacheCall → Option (List CacheEvent × LinkedCache)
  | [] => some ([], c)
  | a :: cs =>
    match c.call a with
    | none => none
    | some (found, c) =>
      match calls c cs with
      | none => none
      | some (events, c) => some ((a, found) :: events, c)

/-- A `Put` and a `Get` that hits use their key. -/
def usedKey : CacheEvent → Option (Nat × Nat)
  | (.put n off _, _) => some (n, off)
  | (.get n off, some _) => some (n, off)
  | (.get _ _, none) => none

def blockPut (key : Nat × Nat) : CacheEvent → Option Bytes
  | (.put n off block, _) => if (n, off) = key then some block else none
  | (.get _ _, _) => none

def mostRecent (capacity : Nat) (events : List CacheEvent) : List (Nat × Nat) :=
  (recent (events.filterMap usedKey)).take capacity

def lastPut (events : List CacheEvent) (key : Nat × Nat) : Option Bytes :=
  events.reverse.findSome? (blockPut key)

theorem lastPut_append (events : List CacheEvent) (event : CacheEvent) (key : Nat × Nat) :
    lastPut (events ++ [event]) key = (blockPut key event).or (lastPut events key) := by
  rw [lastPut, List.reverse_append, List.reverse_singleton, List.singleton_append,
    List.findSome?_cons]
  cases blockPut key event with
  | none => rfl
  | some block => rfl

theorem mostRecent_append_some {capacity : Nat} {events : List CacheEvent} {event : CacheEvent}
    {key : Nat × Nat} (h : usedKey event = some key) :
    mostRecent capacity (events ++ [event]) = touch capacity key (mostRecent capacity events) := by
  rw [mostRecent, List.filterMap_append, List.filterMap_cons_some h, List.filterMap_nil,
    take_recent_append]
  rfl

structure Tracks (capacity : Nat) (events : List CacheEvent) (c : LinkedCache) : Prop where
  linked : Linked c
  capacity_eq : c.capacity = capacity
  order : c.entries.map (·.key) = mostRecent capacity events
  blocks : ∀ e ∈ c.entries, lastPut events e.key = some e.block

theorem tracks_new (capacity : Nat) : Tracks capacity [] { capacity := capacity } where
  linked := linked_new capacity
  capacity_eq := rfl
  order := by simp [mostRecent, recent]
  blocks := by
    intro e he
    cases he

variable {capacity : Nat} {events : List CacheEvent}

theorem Tracks.get (h : Tracks capacity events c) (n off : Nat) :
    ∃ found c', c.get n off = some (found, c') ∧
      Tracks capacity (events ++ [(.get n off, found)]) c' ∧
      (found ≠ none ↔ (n, off) ∈ mostRecent capacity events) ∧
      (found ≠ none → found = lastPut events (n, off)) := by
  have hsame : ∀ found key, lastPut (events ++ [(.get n off, found)]) key = lastPut events key := by
    intro found key
    rw [lastPut_append]
    rfl
  rcases h.linked.get_cases n off with ⟨hno, hget⟩ | ⟨e, he, hk, hget⟩
  · rw [h.order] at hno
    refine ⟨none, _, hget, ⟨?_, h.capacity_eq, ?_, ?_⟩, ?_, fun hne => absurd rfl hne⟩
    · exact ⟨h.linked.index, h.linked.keys, h.linked.iterators, h.linked.fresh, h.linked.size⟩
    · rw [mostRecent, List.filterMap_append, List.filterMap_cons_none rfl, List.filterMap_nil,
        List.append_nil]
      exact h.order
    · intro x hx
      rw [hsame]
      exact h.blocks x hx
    · exact ⟨fun hne => absurd rfl hne, fun hin => absurd hin hno⟩
  · have hmem : (n, off) ∈ c.entries.map (·.key) := List.mem_map.mpr ⟨e, he, hk⟩
    have hsize := h.linked.size
    refine ⟨some e.block, _, hget, ⟨h.linked.splice he e.block _, h.capacity_eq, ?_, ?_⟩, ?_, ?_⟩
    · show (spliceFront { e with block := e.block } c.entries).map (·.key) = _
      rw [mostRecent_append_some rfl, ← h.order, h.linked.spliceFront_keys he, hk,
        touch_of_mem (by rw [List.length_map, ← h.capacity_eq]; exact hsize) hmem]
    · intro x hx
      rw [hsame]
      rcases List.mem_cons.mp hx with rfl | hx
      · exact h.blocks x he
      · exact h.blocks x (List.mem_of_mem_filter hx)
    · rw [← h.order]
      exact ⟨fun _ => hmem, fun _ => by simp⟩
    · intro _
      rw [← hk, h.blocks e he]

theorem Tracks.put (h : Tracks capacity events c) (n off : Nat) (block : Bytes) :
    ∃ c', c.put n off block = some c' ∧
      Tracks capacity (events ++ [(.put n off block, none)]) c' := by
  have hlast : ∀ key, lastPut (events ++ [(.put n off block, none)]) key =
      if (n, off) = key then some block else lastPut events key := by
    intro key
    rw [lastPut_append, blockPut]
    split
    · rfl
    · rfl
  have hother : ∀ x ∈ c.entries, x.key ≠ (n, off) →
      lastPut (events ++ [(.put n off block, none)]) x.key = some x.block := by
    intro x hx hne
    rw [hlast, if_neg (Ne.symm hne)]
    exact h.blocks x hx
  have hsize := h.linked.size
  rcases h.linked.put_cases n off block with ⟨h0, hput⟩ | ⟨e, he, hk, hput⟩ | ⟨h0, hno, hput⟩
  · have hempty := h.linked.empty_of_zero h0
    refine ⟨c, hput, h.linked, h.capacity_eq, ?_, ?_⟩
    · rw [hempty, mostRecent, ← h.capacity_eq, h0]
      rfl
    · rw [hempty]
      intro x hx
      cases hx
  · have hmem : (n, off) ∈ c.entries.map (·.key) := List.mem_map.mpr ⟨e, he, hk⟩
    refine ⟨_, hput, h.linked.splice he block _, h.capacity_eq, ?_, ?_⟩
    · show (spliceFront { e with block := block } c.entries).map (·.key) = _
      rw [mostRecent_append_some rfl, ← h.order, h.linked.spliceFront_keys he, hk,
        touch_of_mem (by rw [List.length_map, ← h.capacity_eq]; exact hsize) hmem]
    · intro x hx
      rcases List.mem_cons.mp hx with rfl | hx
      · rw [hlast, if_pos hk.symm]
      · obtain ⟨hin, hne⟩ := List.mem_filter.mp hx
        refine hother x hin ?_
        intro hkey
        have heq := h.linked.key_inj hin he (hkey.trans hk.symm)
        simp [heq] at hne
  · obtain ⟨hlinked, hcap, hentries⟩ := h.linked.add hno block
    refine ⟨_, hput, hlinked, hcap.trans h.capacity_eq, ?_, ?_⟩
    · rw [hentries, mostRecent_append_some rfl, ← h.order, touch_of_notMem capacity hno,
        h.capacity_eq, List.map_take, List.map_cons]
    · intro x hx
      rw [hentries] at hx
      rcases List.mem_cons.mp (List.mem_of_mem_take hx) with rfl | hx
      · rw [hlast, if_pos rfl]
      · refine hother x hx ?_
        intro hkey
        exact hno (List.mem_map.mpr ⟨x, hx, hkey⟩)

theorem Tracks.call (h : Tracks capacity events c) (a : CacheCall) :
    ∃ found c', c.call a = some (found, c') ∧ Tracks capacity (events ++ [(a, found)]) c' := by
  cases a with
  | get n off =>
    obtain ⟨found, c', hget, htracks, _⟩ := h.get n off
    exact ⟨found, c', hget, htracks⟩
  | put n off block =>
    obtain ⟨c', hput, htracks⟩ := h.put n off block
    refine ⟨none, c', ?_, htracks⟩
    show (c.put n off block).map (fun c => ((none : Option Bytes), c)) = some (none, c')
    rw [hput]
    rfl

theorem Tracks.calls (h : Tracks capacity events c) (cs : List CacheCall) :
    ∃ later c', c.calls cs = some (later, c') ∧ later.map (·.1) = cs ∧
      Tracks capacity (events ++ later) c' := by
  induction cs generalizing c events with
  | nil => exact ⟨[], c, rfl, rfl, by simpa using h⟩
  | cons a cs ih =>
    obtain ⟨found, c₁, hcall, h₁⟩ := h.call a
    obtain ⟨later, c₂, hcalls, hmap, h₂⟩ := ih h₁
    refine ⟨(a, found) :: later, c₂, ?_, by simp [hmap], by simpa using h₂⟩
    simp only [LinkedCache.calls, hcall, hcalls]

/-! ## The cache of `BlockCache` -/

def toBlockCache (c : LinkedCache) : BlockCache where
  capacity := c.capacity
  entries := c.entries.map fun e => (e.key, e.block)
  index := c.index.map (·.1)
  hits := c.hits
  misses := c.misses

theorem map_eraseP_key (index : List ((Nat × Nat) × Nat)) (key : Nat × Nat) :
    (index.eraseP fun p => p.1 = key).map (·.1) = (index.map (·.1)).erase key := by
  induction index with
  | nil => rfl
  | cons p index ih =>
    by_cases hp : p.1 = key
    · rw [List.eraseP_cons_of_pos (by simpa using hp), List.map_cons, hp, List.erase_cons_head]
    · rw [List.eraseP_cons_of_neg (by simpa using hp), List.map_cons, List.map_cons, ih,
        List.erase_cons_tail (by simpa using hp)]

theorem toBlockCache_evict (fuel : Nat) (c : LinkedCache) :
    (evict fuel c).toBlockCache = BlockCache.evict fuel c.toBlockCache := by
  induction fuel generalizing c with
  | zero => rfl
  | succ fuel ih =>
    have hlen : c.toBlockCache.entries.length = c.entries.length := List.length_map _
    have hlast : c.toBlockCache.entries.getLast? =
        c.entries.getLast?.map fun e => (e.key, e.block) := List.getLast?_map
    rw [evict, BlockCache.evict, hlen, hlast]
    by_cases hlong : c.entries.length > c.capacity
    · rw [if_pos hlong, if_pos (show c.entries.length > c.toBlockCache.capacity from hlong)]
      cases c.entries.getLast? with
      | none => rfl
      | some e =>
        show (evict fuel _).toBlockCache = BlockCache.evict fuel _
        rw [ih]
        congr 1
        simp only [toBlockCache, map_eraseP_key, List.map_dropLast]
    · rw [if_neg hlong, if_neg (show ¬ c.entries.length > c.toBlockCache.capacity from hlong)]

theorem Linked.mem_toBlockCache_index (h : Linked c) (key : Nat × Nat) :
    key ∈ c.toBlockCache.index ↔ key ∈ c.entries.map (·.key) := by
  have hperm := h.index.map Prod.fst
  rw [List.map_map] at hperm
  exact hperm.mem_iff

theorem Linked.capacity_ne_zero (h : Linked c) (he : e ∈ c.entries) : c.capacity ≠ 0 := by
  intro h0
  rw [h.empty_of_zero h0] at he
  cases he

theorem Linked.spliceFront_toBlockCache (h : Linked c) (he : e ∈ c.entries) {key : Nat × Nat}
    (hk : e.key = key) (block : Bytes) :
    (spliceFront { e with block := block } c.entries).map (fun x => (x.key, x.block)) =
      (key, block) :: c.toBlockCache.entries.filter fun x => x.1 ≠ key := by
  subst hk
  rw [spliceFront, h.filter_iterator he, List.map_cons, toBlockCache, List.filter_map]
  rfl

/-- A lookup that follows iterators is the lookup of `BlockCache`. -/
theorem Linked.get_refines (h : Linked c) (n off : Nat) :
    ∃ found c', c.get n off = some (found, c') ∧ Linked c' ∧
      c.toBlockCache.get n off = (found, c'.toBlockCache) := by
  rcases h.get_cases n off with ⟨hno, hget⟩ | ⟨e, he, hk, hget⟩
  · refine ⟨none, _, hget, ⟨h.index, h.keys, h.iterators, h.fresh, h.size⟩, ?_⟩
    have hout : (n, off) ∉ c.toBlockCache.index := mt (h.mem_toBlockCache_index (n, off)).mp hno
    by_cases h0 : c.toBlockCache.capacity = 0
    · rw [BlockCache.get, if_pos h0]
      rfl
    · rw [BlockCache.get, if_neg h0, if_neg hout]
      rfl
  · refine ⟨some e.block, _, hget, h.splice he e.block _, ?_⟩
    have h0 : c.toBlockCache.capacity ≠ 0 := h.capacity_ne_zero he
    have hin : (n, off) ∈ c.toBlockCache.index :=
      (h.mem_toBlockCache_index (n, off)).mpr (List.mem_map.mpr ⟨e, he, hk⟩)
    have hfind : c.toBlockCache.entries.find? (fun x => x.1 = (n, off)) = some (e.key, e.block) := by
      cases hf : c.toBlockCache.entries.find? fun x => x.1 = (n, off) with
      | none =>
        have hnone := List.find?_eq_none.mp hf (e.key, e.block) (List.mem_map.mpr ⟨e, he, rfl⟩)
        simp [hk] at hnone
      | some x =>
        obtain ⟨y, hy, rfl⟩ := List.mem_map.mp (List.mem_of_find?_eq_some hf)
        have hyk : y.key = (n, off) := by simpa using List.find?_some hf
        rw [h.key_inj hy he (hyk.trans hk.symm)]
    have hmoved := h.spliceFront_toBlockCache he hk e.block
    simp only [BlockCache.get, h0, if_false, hin, if_true, hfind]
    rw [hk, ← hmoved]
    rfl

theorem Linked.put_refines (h : Linked c) (n off : Nat) (block : Bytes) :
    ∃ c', c.put n off block = some c' ∧ Linked c' ∧
      c.toBlockCache.put n off block = c'.toBlockCache := by
  rcases h.put_cases n off block with ⟨h0, hput⟩ | ⟨e, he, hk, hput⟩ | ⟨h0, hno, hput⟩
  · refine ⟨c, hput, h, ?_⟩
    have hzero : c.toBlockCache.capacity = 0 := h0
    simp only [BlockCache.put, hzero, if_true]
  · refine ⟨_, hput, h.splice he block _, ?_⟩
    have h0 : c.toBlockCache.capacity ≠ 0 := h.capacity_ne_zero he
    have hin : (n, off) ∈ c.toBlockCache.index :=
      (h.mem_toBlockCache_index (n, off)).mpr (List.mem_map.mpr ⟨e, he, hk⟩)
    have hmoved := h.spliceFront_toBlockCache he hk block
    simp only [BlockCache.put, h0, if_false, hin, if_true]
    rw [← hmoved]
    rfl
  · refine ⟨_, hput, (h.add hno block).1, ?_⟩
    have h0' : c.toBlockCache.capacity ≠ 0 := h0
    have hout : (n, off) ∉ c.toBlockCache.index := mt (h.mem_toBlockCache_index (n, off)).mp hno
    rw [toBlockCache_evict]
    simp only [BlockCache.put, h0', if_false, hout, List.length_cons]
    rw [show c.toBlockCache.entries.length = c.entries.length from List.length_map _]
    rfl

/-- After any calls on a cache of any capacity: list and index hold the same keys, once each
and at most `capacity` many; a lookup hits exactly the most recently used keys, and finds the
block of the last `Put`. A cache without capacity holds nothing. -/
theorem calls_leastRecentlyUsed (capacity : Nat) (cs : List CacheCall) :
    ∃ events c, calls { capacity := capacity } cs = some (events, c) ∧
      events.map (·.1) = cs ∧ Linked c ∧ c.capacity = capacity ∧
      (∀ n off, ∃ found c', c.get n off = some (found, c') ∧
        (found ≠ none ↔ (n, off) ∈ mostRecent capacity events) ∧
        (found ≠ none → found = lastPut events (n, off))) ∧
      (capacity = 0 → c.entries = [] ∧ c.index = [] ∧ ∀ n off, ∃ c', c.get n off = some (none, c')) := by
  obtain ⟨events, c, hcalls, hmap, htracks⟩ := (tracks_new capacity).calls cs
  rw [List.nil_append] at htracks
  refine ⟨events, c, hcalls, hmap, htracks.linked, htracks.capacity_eq, ?_, ?_⟩
  · intro n off
    obtain ⟨found, c', hget, _, hhit, hblock⟩ := htracks.get n off
    exact ⟨found, c', hget, hhit, hblock⟩
  · intro h0
    have hzero : c.capacity = 0 := htracks.capacity_eq.trans h0
    have hempty := htracks.linked.empty_of_zero hzero
    refine ⟨hempty, ?_, ?_⟩
    · have hindex := htracks.linked.index
      rw [hempty, List.map_nil] at hindex
      exact hindex.eq_nil
    · intro n off
      exact ⟨{ c with misses := c.misses + 1 }, by simp [LinkedCache.get, hzero]⟩

/-! ## Reads of many tables through one cache -/

def readRawBlock (failure : Option Status) (c : LinkedCache) (fileNumber : Nat) (t : TableFile)
    (item : IndexEntry) : Option (Except Status Bytes × LinkedCache) :=
  match c.get fileNumber item.blockOffset with
  | none => none
  | some (some block, c) => some (.ok block, c)
  | some (none, c) =>
    match failure with
    | some status => some (.error status, c)
    | none => (c.put fileNumber item.blockOffset (t.rawBlock item)).map fun c =>
      (.ok (t.rawBlock item), c)

/-- A read of a block: the number of its table, its place, and how the read of the file
fails, if it does. -/
structure BlockRead where
  fileNumber : Nat
  item : IndexEntry
  failure : Option Status := none
  deriving DecidableEq

def reads (tables : Nat → TableFile) : List BlockRead → LinkedCache →
    Option (List (Except Status Bytes) × LinkedCache)
  | [], c => some ([], c)
  | a :: rest, c =>
    match c.readRawBlock a.failure a.fileNumber (tables a.fileNumber) a.item with
    | none => none
    | some (block, c) => (reads tables rest c).map fun r => (block :: r.1, r.2)

theorem Linked.readRawBlock_refines (h : Linked c) (failure : Option Status) (n : Nat)
    (t : TableFile) (item : IndexEntry) :
    ∃ c', c.readRawBlock failure n t item =
        some ((t.readRawBlock failure c.toBlockCache n item).1, c') ∧
      Linked c' ∧ c'.toBlockCache = (t.readRawBlock failure c.toBlockCache n item).2 := by
  obtain ⟨found, c₁, hget, hlinked, hplain⟩ := h.get_refines n item.blockOffset
  unfold LinkedCache.readRawBlock TableFile.readRawBlock
  rw [hget, hplain]
  cases found with
  | some block => exact ⟨c₁, rfl, hlinked, rfl⟩
  | none =>
    cases failure with
    | some status => exact ⟨c₁, rfl, hlinked, rfl⟩
    | none =>
      obtain ⟨c₂, hput, hlinked', hplain'⟩ :=
        hlinked.put_refines n item.blockOffset (t.rawBlock item)
      refine ⟨c₂, ?_, hlinked', hplain'.symm⟩
      show (c₁.put n item.blockOffset (t.rawBlock item)).map _ = _
      rw [hput]
      rfl

def BlockOf (tables : Nat → TableFile) (key : Nat × Nat) (block : Bytes) : Prop :=
  ∃ item ∈ (tables key.1).index, item.blockOffset = key.2 ∧ block = (tables key.1).rawBlock item

/-- The read gave the bytes of the table's file, or failed as the file did. -/
def Serves (tables : Nat → TableFile) (a : BlockRead) (result : Except Status Bytes) : Prop :=
  result = .ok ((tables a.fileNumber).rawBlock a.item) ∨
    ∃ e, a.failure = some e ∧ result = .error e

theorem reads_of_holds {tables : Nat → TableFile} (hlaid : ∀ n, (tables n).Laid)
    (accesses : List BlockRead) (hin : ∀ a ∈ accesses, a.item ∈ (tables a.fileNumber).index)
    (h : Linked c) (hc : c.toBlockCache.Holds (BlockOf tables)) :
    ∃ results c', reads tables accesses c = some (results, c') ∧
      List.Forall₂ (Serves tables) accesses results ∧ Linked c' := by
  induction accesses generalizing c with
  | nil => exact ⟨[], c, rfl, List.Forall₂.nil, h⟩
  | cons a rest ih =>
    obtain ⟨n, item, failure⟩ := a
    have hitem : item ∈ (tables n).index := hin ⟨n, item, failure⟩ List.mem_cons_self
    have honly : ∀ b, BlockOf tables (n, item.blockOffset) b → b = (tables n).rawBlock item := by
      rintro b ⟨item', hitem', hoffset, rfl⟩
      rw [(hlaid n).offset_inj hitem' hitem hoffset]
    obtain ⟨hblock, hholds⟩ := TableFile.readRawBlock_spec failure hc
      (show BlockOf tables (n, item.blockOffset) _ from ⟨item, hitem, rfl, rfl⟩) honly
    obtain ⟨c₁, hread, hlinked, hplain⟩ := h.readRawBlock_refines failure n (tables n) item
    obtain ⟨results, c₂, hrest, hserves, hlinked'⟩ :=
      ih (fun b hb => hin b (List.mem_cons_of_mem _ hb)) hlinked (hplain ▸ hholds)
    refine ⟨_ :: results, c₂, ?_, List.Forall₂.cons hblock hserves, hlinked'⟩
    unfold reads
    rw [hread]
    show (reads tables rest c₁).map _ = _
    rw [hrest]
    rfl

/-- Tables that share a cache of any capacity, each under a number of its own: in whatever
order their blocks are read, whatever is evicted in between and whichever reads of files
fail, no iterator dangles and every read gives the bytes of the table's own file or the error
of its own failing read. -/
theorem reads_serve_files {tables : Nat → TableFile} (hlaid : ∀ n, (tables n).Laid)
    (capacity : Nat) (accesses : List BlockRead)
    (hin : ∀ a ∈ accesses, a.item ∈ (tables a.fileNumber).index) :
    ∃ results c, reads tables accesses { capacity := capacity } = some (results, c) ∧
      List.Forall₂ (Serves tables) accesses results ∧ Linked c :=
  reads_of_holds hlaid accesses hin (linked_new capacity) fun e he => by cases he

def oneBlock (n : Nat) : TableFile :=
  SSTable.tableOf [⟨ascii "a", 1, [Fin.ofNat 256 n], false⟩] 1 10

/-- The blocks of two tables, read in turns; the last read of the second fails. -/
def inTurns : List BlockRead :=
  [(1, none), (2, none), (1, none), (2, some (.ioError "failed to read SSTable"))].flatMap fun a =>
    (oneBlock a.1).index.map fun item => ⟨a.1, item, a.2⟩

theorem reads_serve_files_inTurns : inTurns.length = 4 ∧
    ∃ results c, reads oneBlock inTurns { capacity := 1 } = some (results, c) ∧
      List.Forall₂ (Serves oneBlock) inTurns results ∧ Linked c :=
  ⟨by decide +kernel, reads_serve_files (fun n => SSTable.tableOf_laid _ _ _) 1 inTurns
    (by decide +kernel)⟩

end LinkedCache

end KvMem
