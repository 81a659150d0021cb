import KvMem.Storage.InternalIterator

/-! # The merging iterator

Several sources are merged through a heap of source numbers. The top of the heap
is the source with the smallest key and, among equal keys, the newest version;
it is taken here as the first such number. Sources that agree in key and sequence
hold the same version, so their order among themselves does not matter.

The specification is the list of live keys of the view. Every call moves along
that list as if it had been computed beforehand.
-/

namespace KvMem

open Versions

structure MergingIterator where
  children : List InternalIterator
  heap : List Nat := []
  current : VersionedEntry := ⟨[], 0, [], false⟩
  found : Bool := false
  status : Status := .ok

namespace MergingIterator

/-- The version a source stands on; an invalid source answers with empty fields. -/
def entryAt (children : List InternalIterator) (i : Nat) : VersionedEntry :=
  (children[i]?.bind InternalIterator.current?).getD ⟨[], 0, [], false⟩

def heapTop (children : List InternalIterator) : List Nat → Option Nat
  | [] => none
  | i :: is =>
    match heapTop children is with
    | none => some i
    | some j => if EntryLt (entryAt children j) (entryAt children i) then some j else some i

/-- The loop of `RebuildHeap`; it stops at the first source with an error. -/
def rebuildLoop : List InternalIterator → Nat → List Nat → List Nat × Status
  | [], _, heap => (heap, .ok)
  | c :: cs, i, heap =>
    if c.status ≠ .ok then (heap, c.status)
    else rebuildLoop cs (i + 1) (if c.valid then heap ++ [i] else heap)

def rebuildHeap (m : MergingIterator) : MergingIterator :=
  let (heap, status) := rebuildLoop m.children 0 []
  { m with heap := heap, found := false, status := status }

variable (read : TableFile.Reader)

def advancePast (key : Bytes) : Nat → InternalIterator → InternalIterator
  | 0, c => c
  | fuel + 1, c => if c.valid ∧ c.key = key then advancePast key fuel (c.next read) else c

def advanceChildPastKey (m : MergingIterator) (i : Nat) (key : Bytes) : MergingIterator :=
  match m.children[i]? with
  | none => m
  | some c =>
    let c := advancePast read key (c.capacity + 1) c
    let m := { m with children := m.children.set i c }
    if c.status ≠ .ok then { m with status := c.status }
    else if c.valid then { m with heap := m.heap ++ [i] }
    else m

def passKey (key : Bytes) : Nat → MergingIterator → MergingIterator
  | 0, m => m
  | fuel + 1, m =>
    match heapTop m.children m.heap with
    | none => m
    | some i =>
      if (entryAt m.children i).key = key then
        passKey key fuel (advanceChildPastKey read { m with heap := m.heap.erase i } i key)
      else m

def advanceLoop : Nat → MergingIterator → MergingIterator
  | 0, m => m
  | fuel + 1, m =>
    if m.status ≠ .ok then m
    else
      match heapTop m.children m.heap with
      | none => m
      | some i =>
        let selected := entryAt m.children i
        let m := passKey read selected.key (m.children.length + 1) m
        if selected.deleted then advanceLoop fuel m
        else { m with current := selected, found := true }

def advanceToNextVisible (m : MergingIterator) : MergingIterator :=
  advanceLoop read ((m.children.map InternalIterator.capacity).sum + 1) { m with found := false }

def seekToFirst (m : MergingIterator) : MergingIterator :=
  advanceToNextVisible read
    (rebuildHeap { m with children := m.children.map (InternalIterator.seekToFirst read) })

def seek (m : MergingIterator) (target : Bytes) : MergingIterator :=
  advanceToNextVisible read
    (rebuildHeap { m with children := m.children.map (InternalIterator.seek read target) })

def valid (m : MergingIterator) : Bool := m.status = .ok && m.found

def next (m : MergingIterator) : MergingIterator :=
  if m.valid then advanceToNextVisible read m else m

def key (m : MergingIterator) : Bytes := if m.valid then m.current.key else []

def value (m : MergingIterator) : Bytes := if m.valid then m.current.value else []

end MergingIterator

/-! ## The view as a list -/

def sortedKeys (es : List VersionedEntry) : List Bytes :=
  ((es.map (·.key)).dedup).insertionSort (· ≤ ·)

/-- The live keys with their values at `r`, in key order. -/
def scanView (es : List VersionedEntry) (r : Nat) : List (Bytes × Bytes) :=
  (sortedKeys es).filterMap fun k => (visible es k r).map fun v => (k, v)

variable {es : List VersionedEntry} {k v : Bytes} {r : Nat}

theorem mem_sortedKeys : k ∈ sortedKeys es ↔ ∃ e ∈ es, e.key = k := by
  rw [sortedKeys, (List.perm_insertionSort _ _).mem_iff, List.mem_dedup, List.mem_map]

theorem sortedKeys_sorted (es : List VersionedEntry) : (sortedKeys es).Pairwise (· < ·) := by
  have hle : (sortedKeys es).Pairwise (· ≤ ·) := List.pairwise_insertionSort _ _
  have hne : (sortedKeys es).Nodup :=
    (List.perm_insertionSort _ _).nodup_iff.mpr (List.nodup_dedup _)
  exact (hle.and hne).imp fun h => lt_of_le_of_ne h.1 h.2

theorem exists_of_visible (h : visible es k r = some v) : ∃ e ∈ es, e.key = k := by
  rcases newest?_spec es k r with ⟨x, _, hn⟩ | ⟨hnone, _⟩
  · exact ⟨x, hn.mem, hn.key_eq⟩
  · rw [visible, hnone] at h
    cases h

theorem mem_scanView : (k, v) ∈ scanView es r ↔ visible es k r = some v := by
  rw [scanView, List.mem_filterMap]
  constructor
  · rintro ⟨k', _, h⟩
    obtain ⟨v', hv, he⟩ := Option.map_eq_some_iff.mp h
    cases he
    exact hv
  · intro h
    exact ⟨k, mem_sortedKeys.mpr (exists_of_visible h), by rw [h]; rfl⟩

theorem scanView_sorted (es : List VersionedEntry) (r : Nat) :
    (scanView es r).Pairwise fun a b => a.1 < b.1 := by
  rw [scanView, List.pairwise_filterMap]
  refine (sortedKeys_sorted es).imp ?_
  intro k k' hlt a ha b hb
  obtain ⟨v, _, rfl⟩ := Option.map_eq_some_iff.mp ha
  obtain ⟨v', _, rfl⟩ := Option.map_eq_some_iff.mp hb
  exact hlt

theorem view_ext {xs ys : List (Bytes × Bytes)} (hx : xs.Pairwise fun a b => a.1 < b.1)
    (hy : ys.Pairwise fun a b => a.1 < b.1) (h : ∀ k v, (k, v) ∈ xs ↔ (k, v) ∈ ys) : xs = ys := by
  have hne : ∀ {zs : List (Bytes × Bytes)}, zs.Pairwise (fun a b => a.1 < b.1) → zs.Nodup :=
    fun hz => hz.imp fun hlt he => by
      rw [he] at hlt
      exact lt_irrefl _ hlt
  have hperm : xs.Perm ys :=
    (List.perm_ext_iff_of_nodup (hne hx) (hne hy)).mpr fun ⟨k, v⟩ => h k v
  exact hperm.eq_of_pairwise (fun a b _ _ h₁ h₂ => absurd h₁ (lt_asymm h₂)) hx hy

theorem visible_filter_key (hf : Functional (setOf es)) (p : Bytes → Bool) (k : Bytes) (r : Nat) :
    visible (es.filter fun e => p e.key) k r = if p k then visible es k r else none := by
  by_cases hp : p k = true
  · rw [if_pos hp]
    have hf' : Functional (setOf (es.filter fun e => p e.key)) :=
      hf.mono fun x hx => List.mem_of_mem_filter hx
    rcases newest?_spec es k r with ⟨x, hx, hn⟩ | ⟨hnone, hno⟩
    · have hn' : Newest (setOf (es.filter fun e => p e.key)) k r x := by
        refine ⟨List.mem_filter.mpr ⟨hn.mem, ?_⟩, hn.key_eq, hn.seq_le, ?_⟩
        · rw [show x.key = k from hn.key_eq]
          exact hp
        · exact fun y hy => hn.newest y (List.mem_of_mem_filter hy)
      rw [visible, visible, hx, newest?_eq_some hf' hn']
    · have hno' : NoVersion (setOf (es.filter fun e => p e.key)) k r :=
        fun x hx => hno x (List.mem_of_mem_filter hx)
      rw [visible, visible, hnone, newest?_eq_none hno']
  · rw [if_neg hp]
    have hno : NoVersion (setOf (es.filter fun e => p e.key)) k r := by
      intro x hx hk
      have hpx := (List.mem_filter.mp hx).2
      rw [show x.key = k from hk] at hpx
      exact absurd hpx hp
    rw [visible, newest?_eq_none hno]
    rfl

theorem scanView_seek (hf : Functional (setOf es)) (r : Nat) (target : Bytes) :
    scanView (es.filter fun e => decide (target ≤ e.key)) r =
      (scanView es r).dropWhile fun p => p.1 < target := by
  have hdrop : ((scanView es r).dropWhile fun p => decide (p.1 < target)) =
      (scanView es r).filter fun p => decide (target ≤ p.1) := by
    have hs := scanView_sorted es r
    generalize scanView es r = view at hs
    induction view with
    | nil => rfl
    | cons p ps ih =>
      obtain ⟨hp, hps⟩ := List.pairwise_cons.mp hs
      by_cases hlt : p.1 < target
      · simp [hlt, not_le_of_gt hlt, ih hps]
      · have hge := not_lt.mp hlt
        have hall : ∀ q ∈ ps, target ≤ q.1 := fun q hq => hge.trans (le_of_lt (hp q hq))
        rw [List.dropWhile_cons, if_neg (by simpa using hlt), List.filter_cons,
          if_pos (by simpa using hge)]
        congr 1
        symm
        rw [List.filter_eq_self]
        intro q hq
        simpa using hall q hq
  rw [hdrop]
  apply view_ext (scanView_sorted _ _) ((scanView_sorted es r).filter _)
  intro k v
  rw [mem_scanView, List.mem_filter, mem_scanView,
    visible_filter_key hf (fun k => decide (target ≤ k))]
  by_cases hk : target ≤ k
  · simp [hk]
  · simp [hk]

theorem scanView_split (hf : Functional (setOf es)) {e : VersionedEntry}
    (hn : Newest (setOf es) e.key r e) (hmin : ∀ x ∈ es, e.key ≤ x.key) :
    scanView es r = (if e.deleted then [] else [(e.key, e.value)]) ++
      scanView (es.filter fun x => decide (e.key < x.key)) r := by
  have hvis : visible es e.key r = if e.deleted then none else some e.value := by
    rw [visible, newest?_eq_some hf hn]
    rfl
  have hrest : ∀ k v, (k, v) ∈ scanView (es.filter fun x => decide (e.key < x.key)) r ↔
      e.key < k ∧ visible es k r = some v := by
    intro k v
    rw [mem_scanView, visible_filter_key hf (fun k => decide (e.key < k))]
    by_cases hk : e.key < k
    · simp [hk]
    · simp [hk]
  apply view_ext (scanView_sorted _ _)
  · rw [List.pairwise_append]
    refine ⟨by split <;> simp, scanView_sorted _ _, ?_⟩
    intro a ha b hb
    obtain ⟨k, v⟩ := b
    split at ha
    · cases ha
    · rw [List.mem_singleton.mp ha]
      exact ((hrest k v).mp hb).1
  · intro k v
    rw [mem_scanView, List.mem_append, hrest]
    constructor
    · intro h
      obtain ⟨x, hx, rfl⟩ := exists_of_visible h
      rcases lt_or_eq_of_le (hmin x hx) with hlt | heq
      · exact Or.inr ⟨hlt, h⟩
      · left
        rw [← heq, hvis] at h
        split at h
        · cases h
        · rename_i hd
          rw [if_neg hd, ← heq, Option.some.inj h]
          exact List.mem_singleton.mpr rfl
    · rintro (h | ⟨_, h⟩)
      · split at h
        · cases h
        · rename_i hd
          cases List.mem_singleton.mp h
          rw [hvis, if_neg hd]
      · exact h

/-! ## What the sources have ahead of them -/

namespace MergingIterator

variable {i : Nat} {rests xs : List (List VersionedEntry)} {x : VersionedEntry}

theorem mem_flatten_of_getD (h : x ∈ rests.getD i []) : i < rests.length ∧ x ∈ rests.flatten := by
  rw [List.getD_eq_getElem?_getD] at h
  cases hr : rests[i]? with
  | none =>
    rw [hr] at h
    cases h
  | some rest =>
    rw [hr] at h
    have hlt : i < rests.length := by
      by_contra hge
      rw [List.getElem?_eq_none (by omega)] at hr
      cases hr
    exact ⟨hlt, List.mem_flatten_of_mem (List.mem_of_getElem? hr) h⟩

theorem exists_getD_of_mem (h : x ∈ rests.flatten) : ∃ i, x ∈ rests.getD i [] := by
  obtain ⟨rest, hrest, hx⟩ := List.mem_flatten.mp h
  obtain ⟨i, hi, rfl⟩ := List.mem_iff_getElem.mp hrest
  refine ⟨i, ?_⟩
  rw [List.getD_eq_getElem?_getD, List.getElem?_eq_getElem hi]
  exact hx

theorem getD_set (hi : i < xs.length) (j : Nat) (x : List VersionedEntry) :
    (xs.set i x).getD j [] = if j = i then x else xs.getD j [] := by
  rw [List.getD_eq_getElem?_getD, List.getD_eq_getElem?_getD, List.getElem?_set]
  by_cases hij : i = j
  · subst hij
    simp [hi]
  · have hji : ¬ j = i := fun h => hij h.symm
    simp [hij, hji]

theorem getD_map {f : List VersionedEntry → List VersionedEntry} (hf : f [] = [])
    (rests : List (List VersionedEntry)) (i : Nat) :
    (rests.map f).getD i [] = f (rests.getD i []) := by
  rw [List.getD_eq_getElem?_getD, List.getD_eq_getElem?_getD, List.getElem?_map]
  cases rests[i]? with
  | none => exact hf.symm
  | some x => rfl

theorem rests_ext {ys : List (List VersionedEntry)} (hlen : xs.length = ys.length)
    (h : ∀ i, xs.getD i [] = ys.getD i []) : xs = ys := by
  apply List.ext_getElem hlen
  intro i hx hy
  have hi := h i
  rw [List.getD_eq_getElem?_getD, List.getD_eq_getElem?_getD, List.getElem?_eq_getElem hx,
    List.getElem?_eq_getElem hy] at hi
  exact hi

def past (key : Bytes) (rest : List VersionedEntry) : List VersionedEntry :=
  rest.dropWhile fun e => e.key = key

theorem past_of_head {key : Bytes} {rest : List VersionedEntry}
    (h : rest.head?.map (·.key) ≠ some key) : past key rest = rest := by
  cases rest with
  | nil => rfl
  | cons e es =>
    have hk : e.key ≠ key := by simpa using h
    simp [past, hk]

theorem head_past (key : Bytes) (rest : List VersionedEntry) :
    (past key rest).head?.map (·.key) ≠ some key := by
  induction rest with
  | nil => simp [past]
  | cons e es ih =>
    by_cases hk : e.key = key
    · simpa [past, hk] using ih
    · simp [past, hk]

theorem past_eq_filter {key : Bytes} {rest : List VersionedEntry} (hs : SortedRun rest)
    (hmin : ∀ e ∈ rest, key ≤ e.key) :
    past key rest = rest.filter fun e => decide (key < e.key) := by
  induction rest with
  | nil => rfl
  | cons e es ih =>
    obtain ⟨he, hes⟩ := List.pairwise_cons.mp hs
    have hmin' : ∀ x ∈ es, key ≤ x.key := fun x hx => hmin x (List.mem_cons_of_mem e hx)
    by_cases hk : e.key = key
    · have hnot : ¬ key < e.key := by rw [hk]; exact lt_irrefl _
      rw [List.filter_cons, if_neg (by simpa using hnot), ← ih hes hmin']
      simp [past, hk]
    · have hlt : key < e.key :=
        lt_of_le_of_ne (hmin e List.mem_cons_self) fun h => hk h.symm
      have hall : ∀ x ∈ e :: es, decide (key < x.key) = true := by
        intro x hx
        rcases List.mem_cons.mp hx with rfl | hx'
        · simpa using hlt
        · simpa using hlt.trans_le (he x hx').key_le
      rw [List.filter_eq_self.mpr hall]
      simp [past, hk]

/-! ## Standing before the rest of every source -/

/-- All sources stand before `rests`, and the heap holds exactly those with
versions left. -/
structure Standing (m : MergingIterator) (r : Nat) (alls rests : List (List VersionedEntry)) :
    Prop where
  status : m.status = .ok
  alls_len : alls.length = m.children.length
  len : rests.length = m.children.length
  at_ : ∀ (i : Nat) (c : InternalIterator), m.children[i]? = some c →
    c.At r (alls.getD i []) (rests.getD i [])
  nodup : m.heap.Nodup
  heap : ∀ i, i ∈ m.heap ↔ rests.getD i [] ≠ []
  sorted : ∀ i, SortedRun (rests.getD i [])
  seen : ∀ i, ∀ e ∈ rests.getD i [], e.sequence ≤ r

section

variable {m : MergingIterator} {r : Nat} {alls rests : List (List VersionedEntry)}

theorem Standing.child (h : m.Standing r alls rests) {i : Nat} (hi : i < rests.length) :
    ∃ c, m.children[i]? = some c := by
  have hlt : i < m.children.length := by
    rw [← h.len]
    exact hi
  exact ⟨_, List.getElem?_eq_getElem hlt⟩

variable {e : VersionedEntry} {heap : List Nat} {c : InternalIterator}

theorem Standing.entryAt (h : m.Standing r alls rests) {i : Nat} {es : List VersionedEntry}
    (he : rests.getD i [] = e :: es) : MergingIterator.entryAt m.children i = e := by
  have hmem : e ∈ rests.getD i [] := by
    rw [he]
    exact List.mem_cons_self
  obtain ⟨c, hc⟩ := h.child (mem_flatten_of_getD hmem).1
  have hcur := (h.at_ i c hc).2.1
  rw [he] at hcur
  simp [MergingIterator.entryAt, hc, hcur]

theorem heapTop_spec (children : List InternalIterator) (h : heap ≠ []) :
    ∃ i, heapTop children heap = some i ∧ i ∈ heap ∧
      ∀ j ∈ heap, ¬ EntryLt (entryAt children j) (entryAt children i) := by
  induction heap with
  | nil => exact absurd rfl h
  | cons i is ih =>
    by_cases his : is = []
    · subst his
      refine ⟨i, rfl, List.mem_cons_self, ?_⟩
      intro j hj
      rw [List.mem_singleton.mp hj]
      exact EntryLt.irrefl _
    · obtain ⟨j, hj, hmem, hmin⟩ := ih his
      by_cases hlt : EntryLt (entryAt children j) (entryAt children i)
      · refine ⟨j, by simp [heapTop, hj, hlt], List.mem_cons_of_mem i hmem, ?_⟩
        intro x hx
        rcases List.mem_cons.mp hx with rfl | hx'
        · exact fun hc => EntryLt.irrefl _ (hlt.trans hc)
        · exact hmin x hx'
      · refine ⟨i, by simp [heapTop, hj, hlt], List.mem_cons_self, ?_⟩
        intro x hx
        rcases List.mem_cons.mp hx with rfl | hx'
        · exact EntryLt.irrefl _
        · intro hc
          rcases entryLt_trichotomy (entryAt children j) (entryAt children i) with h1 | h1 | h1
          · exact hlt h1
          · apply hmin x hx'
            unfold EntryLt at hc ⊢
            rwa [h1.1, h1.2]
          · exact hmin x hx' (hc.trans h1)

/-- The top of the heap is the newest version of the smallest key still ahead. -/
theorem Standing.top (h : m.Standing r alls rests) {i : Nat} (hi : i ∈ m.heap)
    (hmin : ∀ j ∈ m.heap,
      ¬ EntryLt (MergingIterator.entryAt m.children j) (MergingIterator.entryAt m.children i)) :
    ∃ e es, rests.getD i [] = e :: es ∧ MergingIterator.entryAt m.children i = e ∧
      Newest (setOf rests.flatten) e.key r e ∧ ∀ x ∈ rests.flatten, e.key ≤ x.key := by
  obtain ⟨e, es, hes⟩ := List.exists_cons_of_ne_nil ((h.heap i).mp hi)
  have hentry := h.entryAt hes
  rw [hentry] at hmin
  have hmem : e ∈ rests.getD i [] := by
    rw [hes]
    exact List.mem_cons_self
  have hall : ∀ x ∈ rests.flatten, e.key ≤ x.key ∧ (x.key = e.key → x.sequence ≤ e.sequence) := by
    intro x hx
    obtain ⟨j, hxj⟩ := exists_getD_of_mem hx
    obtain ⟨f, fs, hfs⟩ := List.exists_cons_of_ne_nil (List.ne_nil_of_mem hxj)
    have hjm : j ∈ m.heap := (h.heap j).mpr (by rw [hfs]; simp)
    have hnlt := hmin j hjm
    rw [h.entryAt hfs] at hnlt
    have hfx : EntryLe f x := by
      have hs := h.sorted j
      rw [hfs] at hs hxj
      rcases List.mem_cons.mp hxj with rfl | hx'
      · exact Or.inr rfl
      · exact (List.pairwise_cons.mp hs).1 x hx'
    have hef : e.key ≤ f.key := by
      by_contra hc
      exact hnlt (Or.inl (not_le.mp hc))
    refine ⟨hef.trans hfx.key_le, fun hk => ?_⟩
    have hfe : f.key = e.key := le_antisymm (hk ▸ hfx.key_le) hef
    have hseq : f.sequence ≤ e.sequence := by
      by_contra hc
      exact hnlt (Or.inr ⟨hfe, Nat.lt_of_not_le hc⟩)
    exact (hfx.sequence_le (hfe.trans hk.symm)).trans hseq
  refine ⟨e, es, hes, hentry, ⟨(mem_flatten_of_getD hmem).2, rfl, h.seen i e hmem, ?_⟩,
    fun x hx => (hall x hx).1⟩
  exact fun x hx hk _ => (hall x hx).2 hk

/-! ## Passing a key -/

theorem advancePast_at {all rest : List VersionedEntry} (key : Bytes) (fuel : Nat)
    (h : c.At r all rest) (hfuel : rest.length < fuel) :
    (advancePast TableFile.Reader.plain key fuel c).At r all (past key rest) := by
  induction fuel generalizing c rest with
  | zero => omega
  | succ fuel ih =>
    cases rest with
    | nil =>
      have hinv : c.valid = false := by
        rw [InternalIterator.valid, h.2.1]
        rfl
      simpa [advancePast, past, hinv] using h
    | cons e es =>
      have hval : c.valid = true := by
        rw [InternalIterator.valid, h.2.1]
        rfl
      have hkey : c.key = e.key := by
        rw [InternalIterator.key, h.2.1]
        rfl
      by_cases hk : e.key = key
      · have hnext := InternalIterator.next_at h (by simp)
        have hlt : es.length < fuel := by simpa using hfuel
        simpa [advancePast, past, hval, hkey, hk] using ih hnext hlt
      · simpa [advancePast, past, hval, hkey, hk] using h

theorem Standing.replace (h : m.Standing r alls rests) {i : Nat} (hi : i < rests.length)
    {rest : List VersionedEntry} (hc : c.At r (alls.getD i []) rest)
    (hsub : rest.Sublist (rests.getD i [])) (hnd : heap.Nodup)
    (hheap : ∀ j, j ∈ heap ↔ (j ∈ m.heap.erase i ∨ (j = i ∧ rest ≠ []))) :
    Standing { m with children := m.children.set i c, heap := heap } r alls
      (rests.set i rest) := by
  refine ⟨h.status, by simp [h.alls_len], by simp [h.len], ?_, hnd, ?_, ?_, ?_⟩
  · intro j d hd
    have hic : i < m.children.length := by
      rw [← h.len]
      exact hi
    simp only [List.getElem?_set] at hd
    rw [getD_set hi]
    by_cases hij : i = j
    · subst hij
      simp only [hic, if_true, Option.some.injEq] at hd
      rw [if_pos rfl, ← hd]
      exact hc
    · rw [if_neg hij] at hd
      rw [if_neg fun hji => hij hji.symm]
      exact h.at_ j d hd
  · intro j
    rw [hheap, getD_set hi]
    by_cases hij : j = i
    · subst hij
      have hno : j ∉ m.heap.erase j := h.nodup.not_mem_erase
      simp [hno]
    · rw [if_neg hij, List.mem_erase_of_ne hij, h.heap j]
      simp [hij]
  · intro j
    rw [getD_set hi]
    split
    · exact (h.sorted i).sublist hsub
    · exact h.sorted j
  · intro j e he
    rw [getD_set hi] at he
    split at he
    · exact h.seen i e (hsub.subset he)
    · exact h.seen j e he

theorem Standing.advanceChild (h : m.Standing r alls rests) {i : Nat} (hi : i ∈ m.heap)
    (key : Bytes) :
    (advanceChildPastKey TableFile.Reader.plain { m with heap := m.heap.erase i } i key).Standing r
      alls (rests.set i (past key (rests.getD i []))) := by
  obtain ⟨x, hx⟩ := List.exists_mem_of_ne_nil _ ((h.heap i).mp hi)
  have hlt := (mem_flatten_of_getD hx).1
  obtain ⟨c, hc⟩ := h.child hlt
  have hat := h.at_ i c hc
  have hadv := advancePast_at key (c.capacity + 1) hat (Nat.lt_succ_of_le hat.capacity)
  generalize hc' : advancePast TableFile.Reader.plain key (c.capacity + 1) c = c' at hadv
  have hvalid : c'.valid = true ↔ past key (rests.getD i []) ≠ [] := by
    rw [InternalIterator.valid, hadv.2.1]
    cases past key (rests.getD i []) <;> simp
  have hstatus : c'.status = .ok := hadv.status
  have hsub : (past key (rests.getD i [])).Sublist (rests.getD i []) := List.dropWhile_sublist _
  simp only [advanceChildPastKey, hc, hc', hstatus, ne_eq, not_true_eq_false, if_false]
  by_cases hv : c'.valid = true
  · rw [if_pos hv]
    apply h.replace hlt hadv hsub
    · rw [List.nodup_append]
      refine ⟨h.nodup.erase i, List.nodup_singleton i, ?_⟩
      intro a ha b hb hab
      rw [hab, List.mem_singleton.mp hb] at ha
      exact h.nodup.not_mem_erase ha
    · intro j
      have hne := hvalid.mp hv
      rw [List.mem_append, List.mem_singleton]
      simp only [hne, ne_eq, not_false_eq_true, and_true]
  · rw [if_neg hv]
    apply h.replace hlt hadv hsub (h.nodup.erase i)
    intro j
    have hnil : ¬ past key (rests.getD i []) ≠ [] := fun hp => hv (hvalid.mpr hp)
    simp only [hnil, and_false, or_false]

def onKey (key : Bytes) (rests : List (List VersionedEntry)) (heap : List Nat) : List Nat :=
  heap.filter fun i => (rests.getD i []).head?.map (·.key) = some key

theorem onKey_length_lt {key : Bytes} {heap' : List Nat} {i : Nat} (hi : i < rests.length)
    (hmem : i ∈ onKey key rests heap) (hnd : heap'.Nodup) (hsub : ∀ j ∈ heap', j ∈ heap) :
    (onKey key (rests.set i (past key (rests.getD i []))) heap').length <
      (onKey key rests heap).length := by
  have hsubset : onKey key (rests.set i (past key (rests.getD i []))) heap' ⊆
      (onKey key rests heap).erase i := by
    intro j hj
    rw [onKey, List.mem_filter, getD_set hi] at hj
    have hji : j ≠ i := by
      rintro rfl
      rw [if_pos rfl] at hj
      exact head_past key _ (by simpa using hj.2)
    rw [if_neg hji] at hj
    rw [List.mem_erase_of_ne hji, onKey, List.mem_filter]
    exact ⟨hsub j hj.1, hj.2⟩
  have hle := ((hnd.filter _).subperm hsubset).length_le
  have hpos := List.length_pos_of_mem hmem
  rw [List.length_erase_of_mem hmem] at hle
  unfold onKey at hle ⊢ hpos
  omega

theorem Standing.passed {key : Bytes} (h : m.Standing r alls rests)
    (hno : ∀ i, (rests.getD i []).head?.map (·.key) ≠ some key) :
    m.Standing r alls (rests.map (past key)) := by
  have hsame : rests.map (past key) = rests := by
    apply rests_ext (List.length_map _)
    intro i
    rw [getD_map rfl]
    exact past_of_head (hno i)
  rwa [hsame]

theorem mem_flatten_set {key : Bytes} {i : Nat} (hi : i < rests.length) {x : VersionedEntry}
    (hx : x ∈ (rests.set i (past key (rests.getD i []))).flatten) : x ∈ rests.flatten := by
  obtain ⟨j, hxj⟩ := exists_getD_of_mem hx
  rw [getD_set hi] at hxj
  split at hxj
  · exact (mem_flatten_of_getD ((List.dropWhile_sublist _).subset hxj)).2
  · exact (mem_flatten_of_getD hxj).2

theorem map_past_set (key : Bytes) {i : Nat} (hi : i < rests.length) :
    (rests.set i (past key (rests.getD i []))).map (past key) = rests.map (past key) := by
  apply rests_ext (by simp)
  intro j
  rw [getD_map rfl, getD_map rfl, getD_set hi]
  split
  · rename_i hji
    rw [hji, past_of_head (head_past key _)]
  · rfl

theorem onKey_lt {key : Bytes} {m' : MergingIterator} {i : Nat} {es : List VersionedEntry}
    (h : m.Standing r alls rests) (him : i ∈ m.heap) (hi : i < rests.length)
    (hes : rests.getD i [] = e :: es) (hk : e.key = key)
    (hst : m'.Standing r alls (rests.set i (past key (rests.getD i [])))) :
    (onKey key (rests.set i (past key (rests.getD i []))) m'.heap).length <
      (onKey key rests m.heap).length := by
  apply onKey_length_lt hi _ hst.nodup
  · intro j hj
    rw [hst.heap j, getD_set hi] at hj
    by_cases hji : j = i
    · exact hji ▸ him
    · rw [if_neg hji] at hj
      exact (h.heap j).mpr hj
  · rw [onKey, List.mem_filter, hes]
    exact ⟨him, by simp [hk]⟩

/-- When the top of the heap has left a smallest key, every source has. -/
theorem not_on_key {key : Bytes} (hle : ∀ x ∈ rests.flatten, e.key ≤ x.key)
    (hmin : ∀ x ∈ rests.flatten, key ≤ x.key) (he : e ∈ rests.flatten) (hk : e.key ≠ key)
    (j : Nat) : (rests.getD j []).head?.map (·.key) ≠ some key := by
  intro hj
  cases hrj : rests.getD j [] with
  | nil =>
    rw [hrj] at hj
    cases hj
  | cons f fs =>
    rw [hrj] at hj
    have hfk : f.key = key := by simpa using hj
    have hfmem : f ∈ rests.getD j [] := by
      rw [hrj]
      exact List.mem_cons_self
    have hef := hle f (mem_flatten_of_getD hfmem).2
    rw [hfk] at hef
    exact hk (le_antisymm hef (hmin e he))

/-- Passing a smallest key takes every source past it. The induction is on the
number of sources that stand on the key. -/
theorem passKey_standing (key : Bytes) (fuel : Nat) (h : m.Standing r alls rests)
    (hmin : ∀ x ∈ rests.flatten, key ≤ x.key) (hfuel : (onKey key rests m.heap).length < fuel) :
    (passKey TableFile.Reader.plain key fuel m).Standing r alls (rests.map (past key)) := by
  induction fuel generalizing m rests with
  | zero => omega
  | succ fuel ih =>
    by_cases hheap : m.heap = []
    · simp only [passKey, hheap, heapTop]
      apply h.passed
      intro i hi
      have hnil : ¬ i ∈ m.heap := by simp [hheap]
      rw [h.heap i, not_not] at hnil
      rw [hnil] at hi
      cases hi
    · obtain ⟨i, htop, him, hmini⟩ := heapTop_spec m.children hheap
      obtain ⟨e, es, hes, hentry, _, hle⟩ := h.top him hmini
      have hemem : e ∈ rests.getD i [] := by
        rw [hes]
        exact List.mem_cons_self
      obtain ⟨hilt, heflat⟩ := mem_flatten_of_getD hemem
      simp only [passKey, htop, hentry]
      by_cases hk : e.key = key
      · rw [if_pos hk, ← map_past_set key hilt]
        have hst := h.advanceChild him key
        have hlt := onKey_lt h him hilt hes hk hst
        exact ih hst (fun x hx => hmin x (mem_flatten_set hilt hx)) (by omega)
      · rw [if_neg hk]
        exact h.passed (not_on_key hle hmin heflat hk)

theorem onKey_length_le (key : Bytes) (h : m.Standing r alls rests) :
    (onKey key rests m.heap).length ≤ m.children.length := by
  have hsub : m.heap ⊆ List.range m.children.length := by
    intro i hi
    obtain ⟨x, hx⟩ := List.exists_mem_of_ne_nil _ ((h.heap i).mp hi)
    rw [List.mem_range, ← h.len]
    exact (mem_flatten_of_getD hx).1
  calc (onKey key rests m.heap).length
      ≤ m.heap.length := List.length_filter_le _ _
    _ ≤ (List.range m.children.length).length := (h.nodup.subperm hsub).length_le
    _ = m.children.length := List.length_range

theorem flatten_past {key : Bytes} (h : m.Standing r alls rests)
    (hmin : ∀ x ∈ rests.flatten, key ≤ x.key) :
    (rests.map (past key)).flatten = rests.flatten.filter fun e => decide (key < e.key) := by
  rw [List.filter_flatten]
  congr 1
  apply List.map_congr_left
  intro rest hrest
  obtain ⟨i, hi, rfl⟩ := List.mem_iff_getElem.mp hrest
  have hget : rests.getD i [] = rests[i] := by
    rw [List.getD_eq_getElem?_getD, List.getElem?_eq_getElem hi]
    rfl
  rw [← hget]
  exact past_eq_filter (h.sorted i) fun e he => hmin e (mem_flatten_of_getD he).2

/-! ## The iterator moves along the view -/

structure Sources (m : MergingIterator) (r : Nat) (alls : List (List VersionedEntry)) : Prop where
  alls_len : alls.length = m.children.length
  ready : ∀ (i : Nat) (c : InternalIterator), m.children[i]? = some c → c.Ready r (alls.getD i [])

theorem Standing.sources (h : m.Standing r alls rests) : m.Sources r alls :=
  ⟨h.alls_len, fun i c hc => (h.at_ i c hc).1⟩

/-- The iterator shows `view`: its head is the current key and value, its tail is
what the sources still have to show. -/
def Shows (m : MergingIterator) (r : Nat) (alls : List (List VersionedEntry))
    (view : List (Bytes × Bytes)) : Prop :=
  m.Sources r alls ∧ m.status = .ok ∧
    ((m.found = false ∧ view = []) ∨
     (m.found = true ∧ ∃ rests, m.Standing r alls rests ∧ Functional (setOf rests.flatten) ∧
        view = (m.current.key, m.current.value) :: scanView rests.flatten r))

theorem Standing.with_found (h : m.Standing r alls rests) (e : VersionedEntry) (b : Bool) :
    Standing { m with current := e, found := b } r alls rests :=
  ⟨h.status, h.alls_len, h.len, h.at_, h.nodup, h.heap, h.sorted, h.seen⟩

theorem passKey_found (read : TableFile.Reader) (key : Bytes) (fuel : Nat) (m : MergingIterator) :
    (passKey read key fuel m).found = m.found := by
  induction fuel generalizing m with
  | zero => rfl
  | succ fuel ih =>
    rw [passKey]
    cases heapTop m.children m.heap with
    | none => rfl
    | some i =>
      dsimp only
      split
      · rw [ih]
        unfold advanceChildPastKey
        cases m.children[i]? with
        | none => rfl
        | some c =>
          dsimp only
          split
          · rfl
          · split <;> rfl
      · rfl

/-- The loop finds the head of the view, or nothing when no live key is ahead. -/
theorem advanceLoop_shows (fuel : Nat) (h : m.Standing r alls rests)
    (hf : Functional (setOf rests.flatten)) (hfound : m.found = false)
    (hfuel : rests.flatten.length < fuel) :
    (advanceLoop TableFile.Reader.plain fuel m).Shows r alls (scanView rests.flatten r) := by
  induction fuel generalizing m rests with
  | zero => omega
  | succ fuel ih =>
    simp only [advanceLoop, h.status, ne_eq, not_true_eq_false, if_false]
    by_cases hheap : m.heap = []
    · have hnil : rests.flatten = [] := by
        rw [List.eq_nil_iff_forall_not_mem]
        intro x hx
        obtain ⟨i, hi⟩ := exists_getD_of_mem hx
        have him := (h.heap i).mpr (List.ne_nil_of_mem hi)
        rw [hheap] at him
        cases him
      simp only [hheap, heapTop]
      exact ⟨h.sources, h.status, Or.inl ⟨hfound, by rw [hnil]; rfl⟩⟩
    · obtain ⟨i, htop, him, hmini⟩ := heapTop_spec m.children hheap
      obtain ⟨e, es, hes, hentry, hnew, hle⟩ := h.top him hmini
      have hpass := passKey_standing e.key (m.children.length + 1) h hle
        (Nat.lt_succ_of_le (onKey_length_le e.key h))
      have hflat := flatten_past h hle
      have hsplit := scanView_split hf hnew hle
      rw [← hflat] at hsplit
      have hf' : Functional (setOf (rests.map (past e.key)).flatten) := by
        rw [hflat]
        exact hf.mono fun x hx => List.mem_of_mem_filter hx
      simp only [htop, hentry]
      by_cases hd : e.deleted = true
      · rw [if_pos hd, hsplit, if_pos hd, List.nil_append]
        apply ih hpass hf'
        · rw [passKey_found]
          exact hfound
        · have hlt : ((rests.flatten.filter fun x => decide (e.key < x.key)).length) <
              rests.flatten.length := by
            apply List.length_filter_lt_length_iff_exists.mpr
            exact ⟨e, hnew.mem, by simp⟩
          rw [hflat]
          omega
      · rw [if_neg hd, hsplit, if_neg hd]
        have hst := hpass.with_found e true
        exact ⟨hst.sources, hst.status, Or.inr ⟨rfl, _, hst, hf', rfl⟩⟩

theorem flatten_length_le (h : m.Standing r alls rests) :
    rests.flatten.length ≤ (m.children.map InternalIterator.capacity).sum := by
  rw [List.length_flatten]
  apply List.Forall₂.sum_le_sum
  rw [List.forall₂_iff_get]
  refine ⟨by simp [h.len], ?_⟩
  intro i hr hc
  simp only [List.length_map] at hr hc
  have hat := h.at_ i m.children[i] (List.getElem?_eq_getElem hc)
  have hget : rests.getD i [] = rests[i] := by
    rw [List.getD_eq_getElem?_getD, List.getElem?_eq_getElem hr]
    rfl
  rw [hget] at hat
  simpa using hat.capacity

theorem advanceToNextVisible_shows (h : m.Standing r alls rests)
    (hf : Functional (setOf rests.flatten)) :
    (advanceToNextVisible TableFile.Reader.plain m).Shows r alls (scanView rests.flatten r) := by
  apply advanceLoop_shows _ (h.with_found m.current false) hf rfl
  exact Nat.lt_succ_of_le (flatten_length_le h)

theorem next_shows {view : List (Bytes × Bytes)} (h : m.Shows r alls view) :
    (m.next TableFile.Reader.plain).Shows r alls view.tail := by
  obtain ⟨hsrc, hok, ⟨hfound, hview⟩ | ⟨hfound, rests, hst, hf, hview⟩⟩ := h
  · have hv : m.valid = false := by simp [valid, hfound]
    rw [next, if_neg (by simp [hv])]
    exact ⟨hsrc, hok, Or.inl ⟨hfound, by rw [hview]; rfl⟩⟩
  · have hv : m.valid = true := by simp [valid, hfound, hok]
    rw [next, if_pos hv, hview]
    exact advanceToNextVisible_shows hst hf

theorem rebuildLoop_spec (cs : List InternalIterator) (i : Nat) (heap : List Nat)
    (h : ∀ c ∈ cs, c.status = .ok) :
    ∃ tail, rebuildLoop cs i heap = (heap ++ tail, .ok) ∧ tail.Nodup ∧
      ∀ j, j ∈ tail ↔ i ≤ j ∧ ∃ c, cs[j - i]? = some c ∧ c.valid = true := by
  induction cs generalizing i heap with
  | nil => exact ⟨[], by simp [rebuildLoop]⟩
  | cons c cs ih =>
    have hc : c.status = .ok := h c List.mem_cons_self
    obtain ⟨tail, htail, hnd, hmem⟩ := ih (i + 1) (if c.valid then heap ++ [i] else heap)
      fun d hd => h d (List.mem_cons_of_mem c hd)
    have hstep : ∀ j, i + 1 ≤ j → (c :: cs)[j - i]? = cs[j - (i + 1)]? := by
      intro j hj
      rw [show j - i = (j - (i + 1)) + 1 by omega, List.getElem?_cons_succ]
    have hrun : rebuildLoop (c :: cs) i heap =
        ((if c.valid then heap ++ [i] else heap) ++ tail, .ok) := by
      rw [rebuildLoop, if_neg (by simp [hc]), htail]
    by_cases hv : c.valid = true
    · refine ⟨i :: tail, by simpa [hv] using hrun, ?_, ?_⟩
      · rw [List.nodup_cons]
        refine ⟨fun hi => ?_, hnd⟩
        have := ((hmem i).mp hi).1
        omega
      · intro j
        rw [List.mem_cons, hmem]
        constructor
        · rintro (rfl | ⟨hj, d, hd, hdv⟩)
          · exact ⟨le_refl _, c, by simp, hv⟩
          · exact ⟨by omega, d, by rw [hstep j hj]; exact hd, hdv⟩
        · rintro ⟨hj, d, hd, hdv⟩
          rcases Nat.eq_or_lt_of_le hj with rfl | hlt
          · exact Or.inl rfl
          · exact Or.inr ⟨hlt, d, by rw [← hstep j hlt]; exact hd, hdv⟩
    · refine ⟨tail, by simpa [hv] using hrun, hnd, ?_⟩
      intro j
      rw [hmem]
      constructor
      · rintro ⟨hj, d, hd, hdv⟩
        exact ⟨by omega, d, by rw [hstep j hj]; exact hd, hdv⟩
      · rintro ⟨hj, d, hd, hdv⟩
        rcases Nat.eq_or_lt_of_le hj with rfl | hlt
        · rw [Nat.sub_self] at hd
          cases hd
          exact absurd hdv hv
        · exact ⟨hlt, d, by rw [← hstep j hlt]; exact hd, hdv⟩

/-- The versions of the sources: sorted, visible, and free of contradictions. -/
structure Consistent (r : Nat) (alls : List (List VersionedEntry)) : Prop where
  sorted : ∀ i, SortedRun (alls.getD i [])
  seen : ∀ i, ∀ e ∈ alls.getD i [], e.sequence ≤ r
  functional : Functional (setOf alls.flatten)

theorem rebuildHeap_standing (halls : Consistent r alls)
    (f : List VersionedEntry → List VersionedEntry) (hf : ∀ es, (f es).Sublist es)
    (hsrc : alls.length = m.children.length)
    (hat : ∀ (i : Nat) (c : InternalIterator), m.children[i]? = some c →
      c.At r (alls.getD i []) (f (alls.getD i []))) :
    (rebuildHeap m).Standing r alls (alls.map f) := by
  have hnil : f [] = [] := List.sublist_nil.mp (hf [])
  have hst : ∀ c ∈ m.children, c.status = .ok := by
    intro c hc
    obtain ⟨i, hi⟩ := List.getElem?_of_mem hc
    exact (hat i c hi).status
  obtain ⟨tail, hrun, hnd, hmem⟩ := rebuildLoop_spec m.children 0 [] hst
  rw [List.nil_append] at hrun
  have hreb : rebuildHeap m = { m with heap := tail, found := false, status := .ok } := by
    rw [rebuildHeap, hrun]
  rw [hreb]
  refine ⟨rfl, hsrc, by simp [hsrc], ?_, hnd, ?_, ?_, ?_⟩
  · intro i c hc
    rw [getD_map hnil]
    exact hat i c hc
  · intro i
    rw [getD_map hnil, hmem]
    constructor
    · rintro ⟨_, c, hc, hv⟩ hempty
      have hcur := (hat i c hc).2.1
      rw [hempty] at hcur
      rw [InternalIterator.valid, hcur] at hv
      cases hv
    · intro hne
      obtain ⟨x, hx⟩ := List.exists_mem_of_ne_nil _ hne
      have hlt := (mem_flatten_of_getD ((hf _).subset hx)).1
      rw [hsrc] at hlt
      refine ⟨Nat.zero_le _, m.children[i], List.getElem?_eq_getElem hlt, ?_⟩
      rw [InternalIterator.valid, (hat i _ (List.getElem?_eq_getElem hlt)).2.1]
      obtain ⟨e, es, hes⟩ := List.exists_cons_of_ne_nil hne
      rw [hes]
      rfl
  · intro i
    rw [getD_map hnil]
    exact (halls.sorted i).sublist (hf _)
  · intro i e he
    rw [getD_map hnil] at he
    exact halls.seen i e ((hf _).subset he)

theorem position_shows (halls : Consistent r alls) (hsrc : m.Sources r alls)
    (g : InternalIterator → InternalIterator) (f : List VersionedEntry → List VersionedEntry)
    (hf : ∀ es, (f es).Sublist es)
    (hg : ∀ (c : InternalIterator) all, c.Ready r all → (g c).At r all (f all)) :
    (advanceToNextVisible TableFile.Reader.plain
      (rebuildHeap { m with children := m.children.map g })).Shows r alls
        (scanView (alls.map f).flatten r) := by
  apply advanceToNextVisible_shows
  · apply rebuildHeap_standing halls f hf
    · simpa using hsrc.alls_len
    · intro i c hc
      obtain ⟨d, hd, rfl⟩ : ∃ d, m.children[i]? = some d ∧ g d = c := by
        simpa [List.getElem?_map, Option.map_eq_some_iff] using hc
      exact hg d _ (hsrc.ready i d hd)
  · apply halls.functional.mono
    intro x hx
    obtain ⟨l, hl, hxl⟩ := List.mem_flatten.mp hx
    obtain ⟨es, hes, rfl⟩ := List.mem_map.mp hl
    exact List.mem_flatten_of_mem hes ((hf es).subset hxl)

theorem seekToFirst_shows (halls : Consistent r alls) (hsrc : m.Sources r alls) :
    (m.seekToFirst TableFile.Reader.plain).Shows r alls (scanView alls.flatten r) := by
  have h := position_shows halls hsrc (InternalIterator.seekToFirst TableFile.Reader.plain) id
    (fun es => List.Sublist.refl es) fun c all hc => InternalIterator.seekToFirst_at hc
  rwa [List.map_id] at h

theorem seek_shows (halls : Consistent r alls) (hsrc : m.Sources r alls) (hr : r ≤ maxUInt64)
    (target : Bytes) :
    (m.seek TableFile.Reader.plain target).Shows r alls
      ((scanView alls.flatten r).dropWhile fun p => p.1 < target) := by
  have h := position_shows halls hsrc (InternalIterator.seek TableFile.Reader.plain target)
    (fun es => es.dropWhile fun e => decide (e.key < target))
    (fun es => List.dropWhile_sublist _) fun c all hc => InternalIterator.seek_at hc hr target
  rw [← scanView_seek halls.functional, List.filter_flatten]
  have hmap : (alls.map fun es => es.dropWhile fun e => decide (e.key < target)) =
      alls.map (List.filter fun e => decide (target ≤ e.key)) := by
    apply List.map_congr_left
    intro es hes
    obtain ⟨i, hi, rfl⟩ := List.mem_iff_getElem.mp hes
    have hget : alls.getD i [] = alls[i] := by
      rw [List.getD_eq_getElem?_getD, List.getElem?_eq_getElem hi]
      rfl
    rw [← hget]
    exact (halls.sorted i).dropWhile_eq_filter target
  rwa [hmap] at h

/-! ## Any sequence of calls -/

inductive Call where
  | seekToFirst
  | seek (target : Bytes)
  | next

def callOn (read : TableFile.Reader) (m : MergingIterator) : Call → MergingIterator
  | .seekToFirst => m.seekToFirst read
  | .seek target => m.seek read target
  | .next => m.next read

/-- The same call on the view as a list: `full` is the whole view, `rest` what is
still ahead. -/
def cursorCall (full rest : List (Bytes × Bytes)) : Call → List (Bytes × Bytes)
  | .seekToFirst => full
  | .seek target => full.dropWhile fun p => p.1 < target
  | .next => rest.tail

theorem Shows.observe {view : List (Bytes × Bytes)} (h : m.Shows r alls view) :
    m.status = .ok ∧ m.valid = !view.isEmpty ∧
      ∀ k v, view.head? = some (k, v) → m.key = k ∧ m.value = v := by
  obtain ⟨_, hok, ⟨hfound, hview⟩ | ⟨hfound, rests, _, _, hview⟩⟩ := h
  · refine ⟨hok, by simp [valid, hok, hfound, hview], ?_⟩
    intro k v hhead
    rw [hview] at hhead
    cases hhead
  · have hv : m.valid = true := by simp [valid, hok, hfound]
    refine ⟨hok, by simp [hv, hview], ?_⟩
    intro k v hhead
    rw [hview] at hhead
    cases hhead
    simp [key, value, hv]

end

end MergingIterator

end KvMem
