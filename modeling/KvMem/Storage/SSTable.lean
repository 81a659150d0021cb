import KvMem.Storage.BloomFilter
import KvMem.Storage.Format
import KvMem.Storage.MemTable

/-! # Sorted tables

A table is a list of data blocks, an index with the last internal key of every
block, and a filter. The writer cuts a sorted run into blocks; versions of one
key never straddle two blocks. The reader finds the block by the index, the
restart interval by binary search, and scans from there.

Blocks are kept as the entries they encode. The bytes of a file are computed
from them; offsets and sizes in the index are byte positions.
-/

namespace KvMem

open Versions

structure IndexEntry where
  lastInternalKey : Bytes
  blockOffset : Nat
  blockSize : Nat
  deriving DecidableEq, Repr

structure TableFile where
  blocks : List (List VersionedEntry)
  index : List IndexEntry
  filter : BloomFilter
  deriving DecidableEq, Repr

namespace SSTable

def kSSTableMagic : Nat := 0x4b565354424c4b33

def kRecordHeaderSize : Nat := 17

def kDataBlockMagic : Nat := 0x344b4c42

def kRestartInterval : Nat := 16

/-! ## Bytes of a table -/

def sharedLength : Bytes → Bytes → Nat
  | a :: as, b :: bs => if a = b then sharedLength as bs + 1 else 0
  | _, _ => 0

structure BlockWriter where
  payload : Bytes
  restartOffsets : List Nat := []
  previousKey : Bytes := []
  position : Nat := 0

/-- One turn of the record loop of `EncodeBlock`. -/
def BlockWriter.append (w : BlockWriter) (e : VersionedEntry) : BlockWriter :=
  let restart := w.position % kRestartInterval = 0
  let shared := if restart then 0 else sharedLength w.previousKey e.key
  let unshared := e.key.drop shared
  { payload := w.payload ++ (encodeFixed32 shared ++ (encodeFixed32 unshared.length ++
      (encodeFixed32 e.value.length ++ ((if e.deleted then 2 else 1) ::
        (encodeFixed64 e.sequence ++ (unshared ++ e.value))))))
    restartOffsets := if restart then w.restartOffsets ++ [w.payload.length] else w.restartOffsets
    previousKey := e.key
    position := w.position + 1 }

def encodeBlock (entries : List VersionedEntry) : Bytes :=
  let start : BlockWriter :=
    { payload := encodeFixed32 kDataBlockMagic ++ (encodeFixed32 kRestartInterval ++
        encodeFixed64 entries.length) }
  let w := entries.foldl BlockWriter.append start
  let payload := w.payload ++ (w.restartOffsets.flatMap encodeFixed32 ++
    (encodeFixed32 w.restartOffsets.length ++ [0]))
  payload ++ encodeFixed32 (crc32 payload)

def encodeIndex (index : List IndexEntry) : Bytes :=
  encodeFixed64 index.length ++ index.flatMap fun item =>
    encodeFixed32 item.lastInternalKey.length ++ (item.lastInternalKey ++
      (encodeFixed64 item.blockOffset ++ encodeFixed64 item.blockSize))

def fileBytes (t : TableFile) : Bytes :=
  let data := t.blocks.flatMap encodeBlock
  let index := encodeIndex t.index
  let filter := t.filter.encode
  data ++ (index ++ (filter ++ (encodeFixed64 data.length ++ (encodeFixed64 index.length ++
    (encodeFixed64 (data.length + index.length) ++ (encodeFixed64 filter.length ++
      encodeFixed64 kSSTableMagic))))))

/-! ## Building a table -/

/-- Entries up to the size limit; the first one is always taken. -/
def takeBySize (blockSize : Nat) : Nat → List VersionedEntry → List VersionedEntry × List VersionedEntry
  | _, [] => ([], [])
  | approxSize, e :: es =>
    let approxSize := approxSize + (kRecordHeaderSize + e.key.length + e.value.length)
    if approxSize < blockSize then
      let (block, rest) := takeBySize blockSize approxSize es
      (e :: block, rest)
    else ([e], es)

/-- The entries of one block: up to the size limit, then the rest of the last key. -/
def takeBlock (blockSize : Nat) (es : List VersionedEntry) :
    List VersionedEntry × List VersionedEntry :=
  let (block, rest) := takeBySize blockSize 8 es
  match block.getLast? with
  | none => (block, rest)
  | some last =>
    (block ++ rest.takeWhile (fun e => e.key = last.key), rest.dropWhile fun e => e.key = last.key)

def cutBlocks (blockSize : Nat) : Nat → List VersionedEntry → List (List VersionedEntry)
  | 0, _ => []
  | fuel + 1, es =>
    if es = [] then []
    else
      let (block, rest) := takeBlock blockSize es
      block :: cutBlocks blockSize fuel rest

def lastKeyOf (block : List VersionedEntry) : Bytes :=
  match block.getLast? with
  | none => []
  | some e => encodeInternalKey e.key e.sequence

def indexBlocks : Nat → List (List VersionedEntry) → List IndexEntry
  | _, [] => []
  | offset, b :: bs =>
    ⟨lastKeyOf b, offset, (encodeBlock b).length⟩ :: indexBlocks (offset + (encodeBlock b).length) bs

def uniqueKeys (es : List VersionedEntry) : List Bytes := (es.map (·.key)).dedup

/-- The table `CreateFromEntries` makes of a run. -/
def tableOf (entries : List VersionedEntry) (blockSize bloomBitsPerKey : Nat) : TableFile :=
  let blocks := cutBlocks blockSize entries.length entries
  ⟨blocks, indexBlocks 0 blocks, BloomFilter.build (uniqueKeys entries) bloomBitsPerKey⟩

def checkCreate (entries : List VersionedEntry) (bloomBitsPerKey : Nat) : Status :=
  if bloomBitsPerKey = 0 ∨ bloomBitsPerKey > 64 ∨
      (uniqueKeys entries).length > (maxUInt32 - 7) / bloomBitsPerKey then
    .invalidArgument "Bloom filter exceeds supported size or bits-per-key range"
  else .ok

end SSTable

namespace TableFile

def entries (t : TableFile) : List VersionedEntry := t.blocks.flatten

def size (t : TableFile) : Nat := (SSTable.fileBytes t).length

/-! ## Reading a table -/

/-- How the blocks of a table are read: through the cache or from the file, by
their position in the index. -/
abbrev Reader := TableFile → Nat → Except Status (List VersionedEntry)

/-- A reader on which every block reads as written. -/
def Reader.plain : Reader := fun t i => .ok (t.blocks.getD i [])

def restartKey (block : List VersionedEntry) (i : Nat) : Bytes :=
  match block[SSTable.kRestartInterval * i]? with
  | none => []
  | some e => encodeInternalKey e.key e.sequence

def restartSearch (block : List VersionedEntry) (target : Bytes) : Nat → Nat → Nat → Nat
  | 0, left, _ => left
  | fuel + 1, left, right =>
    if left < right then
      let mid := left + (right - left) / 2
      if restartKey block mid ≤ target then restartSearch block target fuel (mid + 1) right
      else restartSearch block target fuel left mid
    else left

def scanBlock (key : Bytes) (readSequence : Nat) : List VersionedEntry → Option VersionedEntry
  | [] => none
  | e :: es =>
    if e.key = key ∧ e.sequence ≤ readSequence then some e
    else if key < e.key then none
    else scanBlock key readSequence es

def getFromBlock (block : List VersionedEntry) (key : Bytes) (readSequence : Nat) :
    Option VersionedEntry :=
  let target := encodeInternalKey key readSequence
  let restartCount := (block.length + SSTable.kRestartInterval - 1) / SSTable.kRestartInterval
  let left := restartSearch block target restartCount 0 restartCount
  let restartIndex := if left = 0 then 0 else left - 1
  scanBlock key readSequence (block.drop (SSTable.kRestartInterval * restartIndex))

def lastKeyAt (index : List IndexEntry) (i : Nat) : Bytes :=
  ((index[i]?).map IndexEntry.lastInternalKey).getD []

def lowerBoundLoop (index : List IndexEntry) (target : Bytes) : Nat → Nat → Nat → Nat
  | 0, first, _ => first
  | fuel + 1, first, len =>
    if len = 0 then first
    else
      let half := len / 2
      if lastKeyAt index (first + half) < target then
        lowerBoundLoop index target fuel (first + half + 1) (len - half - 1)
      else lowerBoundLoop index target fuel first half

/-- `std::lower_bound` over the index: in a sorted index the position of the first entry
not before `target`. -/
def lowerBound (index : List IndexEntry) (target : Bytes) : Nat :=
  lowerBoundLoop index target index.length 0 index.length

/-- A lookup; `none` is the status "key not found". -/
def get (read : Reader) (t : TableFile) (key : Bytes) (readSequence : Nat) :
    Except Status (Option VersionedEntry) :=
  if t.filter.mayContain key = false then .ok none
  else
    let i := lowerBound t.index (encodeInternalKey key readSequence)
    if i = t.index.length then .ok none
    else
      match read t i with
      | .error e => .error e
      | .ok block => .ok (getFromBlock block key readSequence)

/-! ## Well-formed tables -/

structure Wf (t : TableFile) : Prop where
  sorted : SortedRun t.entries
  keys : ∀ e ∈ t.entries, 0 ∉ e.key
  sequences : ∀ e ∈ t.entries, e.sequence ≤ maxUInt64
  nonempty : ∀ b ∈ t.blocks, b ≠ []
  index : t.index.map IndexEntry.lastInternalKey = t.blocks.map SSTable.lastKeyOf
  filter : ∀ e ∈ t.entries, t.filter.mayContain e.key = true

end TableFile

namespace SSTable

theorem takeBySize_append (blockSize approx : Nat) (es : List VersionedEntry) :
    (takeBySize blockSize approx es).1 ++ (takeBySize blockSize approx es).2 = es := by
  induction es generalizing approx with
  | nil => rfl
  | cons e es ih =>
    simp only [takeBySize]
    split
    · simp [ih]
    · rfl

variable {es : List VersionedEntry} {bits : Nat}

theorem takeBySize_ne_nil (blockSize approx : Nat) (h : es ≠ []) :
    (takeBySize blockSize approx es).1 ≠ [] := by
  cases es with
  | nil => exact absurd rfl h
  | cons e es =>
    simp only [takeBySize]
    split <;> simp

theorem takeBlock_append (blockSize : Nat) (es : List VersionedEntry) :
    (takeBlock blockSize es).1 ++ (takeBlock blockSize es).2 = es := by
  have h := takeBySize_append blockSize 8 es
  simp only [takeBlock]
  split
  · exact h
  · simp only [List.append_assoc, List.takeWhile_append_dropWhile]
    exact h

theorem takeBlock_ne_nil (blockSize : Nat) (h : es ≠ []) : (takeBlock blockSize es).1 ≠ [] := by
  have hne := takeBySize_ne_nil blockSize 8 h
  simp only [takeBlock]
  split
  · exact hne
  · simp [hne]

theorem cutBlocks_spec (blockSize fuel : Nat) (es : List VersionedEntry) (h : es.length ≤ fuel) :
    (cutBlocks blockSize fuel es).flatten = es ∧ ∀ b ∈ cutBlocks blockSize fuel es, b ≠ [] := by
  induction fuel generalizing es with
  | zero =>
    have hnil : es = [] := List.eq_nil_of_length_eq_zero (by omega)
    subst hnil
    exact ⟨rfl, fun b hb => by cases hb⟩
  | succ fuel ih =>
    simp only [cutBlocks]
    split
    · rename_i hnil
      subst hnil
      exact ⟨rfl, fun b hb => by cases hb⟩
    · rename_i hne
      have happ := takeBlock_append blockSize es
      have hblock := takeBlock_ne_nil blockSize hne
      have hlen : (takeBlock blockSize es).2.length ≤ fuel := by
        have hsum := congrArg List.length happ
        rw [List.length_append] at hsum
        have := List.length_pos_of_ne_nil hblock
        omega
      obtain ⟨hflat, hall⟩ := ih _ hlen
      refine ⟨by rw [List.flatten_cons, hflat, happ], ?_⟩
      intro b hb
      rcases List.mem_cons.mp hb with rfl | hb'
      · exact hblock
      · exact hall b hb'

theorem indexBlocks_keys (offset : Nat) (bs : List (List VersionedEntry)) :
    (indexBlocks offset bs).map IndexEntry.lastInternalKey = bs.map lastKeyOf := by
  induction bs generalizing offset with
  | nil => rfl
  | cons b bs ih => simp [indexBlocks, ih]

@[simp] theorem tableOf_entries (es : List VersionedEntry) (blockSize bits : Nat) :
    (tableOf es blockSize bits).entries = es :=
  (cutBlocks_spec blockSize es.length es (Nat.le_refl _)).1

theorem checkCreate_ok (h : checkCreate es bits = .ok) :
    1 ≤ bits ∧ (uniqueKeys es).length * bits ≤ maxUInt32 - 7 := by
  have hcheck : ¬ (bits = 0 ∨ bits > 64 ∨ (uniqueKeys es).length > (maxUInt32 - 7) / bits) := by
    intro hbad
    rw [checkCreate, if_pos hbad] at h
    cases h
  simp only [not_or, Nat.not_lt] at hcheck
  have hpos : 1 ≤ bits := Nat.one_le_iff_ne_zero.mpr hcheck.1
  exact ⟨hpos, (Nat.le_div_iff_mul_le hpos).mp hcheck.2.2⟩

/-- The writer makes a well-formed table of every sorted run it accepts. -/
theorem tableOf_wf (blockSize : Nat) (hs : SortedRun es) (hk : ∀ e ∈ es, 0 ∉ e.key)
    (hq : ∀ e ∈ es, e.sequence ≤ maxUInt64) (hc : checkCreate es bits = .ok) :
    (tableOf es blockSize bits).Wf := by
  have hent := tableOf_entries es blockSize bits
  obtain ⟨hpos, hsize⟩ := checkCreate_ok hc
  refine ⟨by rwa [hent], by rwa [hent], by rwa [hent], ?_, ?_, ?_⟩
  · exact (cutBlocks_spec blockSize es.length es (Nat.le_refl _)).2
  · exact indexBlocks_keys 0 _
  · intro e he
    rw [hent] at he
    apply BloomFilter.mayContain_build _ hsize hpos
    rw [uniqueKeys, List.mem_dedup]
    exact List.mem_map_of_mem he

end SSTable

namespace TableFile

/-! ## Lookups find the newest visible version -/

/-- The versions a read of `key` at `r` can return. -/
def matches? (key : Bytes) (r : Nat) (es : List VersionedEntry) : Option VersionedEntry :=
  es.find? fun e => e.key = key ∧ e.sequence ≤ r

variable {es b : List VersionedEntry} {r i : Nat} {e y : VersionedEntry} {t : TableFile}
  {index : List IndexEntry} {target : Bytes}

theorem scanBlock_eq {key : Bytes} (hs : SortedRun es) :
    scanBlock key r es = matches? key r es := by
  induction es with
  | nil => rfl
  | cons e es ih =>
    obtain ⟨he, hes⟩ := List.pairwise_cons.mp hs
    simp only [scanBlock, matches?, List.find?_cons]
    by_cases hc : e.key = key ∧ e.sequence ≤ r
    · simp [hc]
    · simp only [hc, if_false, decide_false]
      by_cases hlt : key < e.key
      · simp only [hlt, if_true]
        symm
        rw [List.find?_eq_none]
        intro y hy hcy
        simp only [decide_eq_true_eq] at hcy
        have hle := (he y hy).key_le
        rw [hcy.1] at hle
        exact absurd hlt (not_lt_of_ge hle)
      · simp only [hlt, if_false]
        exact ih hes

theorem not_match_of_lt {key : Bytes} (he : 0 ∉ e.key) (hk : 0 ∉ key) (hs : e.sequence ≤ maxUInt64)
    (hr : r ≤ maxUInt64) (h : encodeInternalKey e.key e.sequence < encodeInternalKey key r) :
    ¬ (e.key = key ∧ e.sequence ≤ r) := by
  rw [encodeInternalKey_lt_iff he hk hs hr] at h
  rintro ⟨hek, hle⟩
  rcases h with h | ⟨_, h⟩
  · rw [hek] at h
    exact lt_irrefl _ h
  · omega

theorem restartSearch_spec (block : List VersionedEntry) (target : Bytes) (fuel left right : Nat)
    (h : left = 0 ∨ restartKey block (left - 1) ≤ target) :
    restartSearch block target fuel left right = 0 ∨
      restartKey block (restartSearch block target fuel left right - 1) ≤ target := by
  induction fuel generalizing left right with
  | zero => exact h
  | succ fuel ih =>
    simp only [restartSearch]
    split
    · split
      · rename_i hle
        exact ih _ _ (Or.inr (by simpa using hle))
      · exact ih _ _ h
    · exact h

theorem restartSearch_le (block : List VersionedEntry) (target : Bytes) (fuel : Nat)
    {left right : Nat} (h : left ≤ right) :
    restartSearch block target fuel left right ≤ right := by
  induction fuel generalizing left right with
  | zero => exact h
  | succ fuel ih =>
    simp only [restartSearch]
    split
    · split
      · exact ih (by omega)
      · exact (ih (by omega)).trans (by omega)
    · exact h

theorem entryLe_of_index (hs : SortedRun es) {x : VersionedEntry} (hx : x ∈ es.take i)
    (hy : es[i]? = some y) : EntryLe x y := by
  obtain ⟨j, hj, rfl⟩ := List.mem_iff_getElem.mp hx
  obtain ⟨hi, rfl⟩ := List.getElem?_eq_some_iff.mp hy
  rw [List.length_take] at hj
  rw [List.getElem_take]
  exact List.pairwise_iff_getElem.mp hs j i (by omega) hi (by omega)

theorem find_drop {α : Type} {p : α → Bool} {xs : List α} (i : Nat)
    (h : ∀ x ∈ xs.take i, p x = false) : xs.find? p = (xs.drop i).find? p := by
  conv_lhs => rw [← List.take_append_drop i xs]
  rw [List.find?_append]
  have hnone : (xs.take i).find? p = none := by
    rw [List.find?_eq_none]
    intro x hx
    simp [h x hx]
  simp [hnone]

/-- Starting the search at a version not behind the target skips no match, except
copies of that version. -/
theorem matches_drop {block : List VersionedEntry} (hs : SortedRun block)
    (hk : ∀ e ∈ block, 0 ∉ e.key) (hq : ∀ e ∈ block, e.sequence ≤ maxUInt64) {key : Bytes}
    (hkey : 0 ∉ key) (hr : r ≤ maxUInt64) {start : Nat} (hy : block[start]? = some y)
    (hle : encodeInternalKey y.key y.sequence ≤ encodeInternalKey key r) :
    matches? key r block = matches? key r (block.drop start) := by
  have hym : y ∈ block := List.mem_of_getElem? hy
  by_cases hnone : ∀ x ∈ block.take start, ¬ (x.key = key ∧ x.sequence ≤ r)
  · apply find_drop
    intro x hx
    rw [decide_eq_false_iff_not]
    exact hnone x hx
  · simp only [not_forall, not_not] at hnone
    obtain ⟨x, hx, hmatch⟩ := hnone
    have hxm : x ∈ block := List.mem_of_mem_take hx
    have hge : encodeInternalKey key r ≤ encodeInternalKey x.key x.sequence := by
      by_contra hlt
      exact not_match_of_lt (hk x hxm) hkey (hq x hxm) hr (not_le.mp hlt) hmatch
    -- a skipped match is a copy of the version the search starts at
    have hxy : x = y := by
      rcases entryLe_of_index hs hx hy with hlt | heq
      · have henc : encodeInternalKey x.key x.sequence < encodeInternalKey y.key y.sequence := by
          rw [encodeInternalKey_lt_iff (hk x hxm) (hk y hym) (hq x hxm) (hq y hym)]
          exact hlt
        exact absurd (henc.trans_le (hle.trans hge)) (lt_irrefl _)
      · exact heq
    subst hxy
    have hseq : r ≤ x.sequence := by
      by_contra hlt
      apply not_lt_of_ge hle
      rw [encodeInternalKey_lt_iff hkey (hk x hxm) hr (hq x hxm)]
      exact Or.inr ⟨hmatch.1.symm, Nat.lt_of_not_le hlt⟩
    have hdrop : matches? key r (block.drop start) = some x := by
      obtain ⟨hlt, hget⟩ := List.getElem?_eq_some_iff.mp hy
      rw [List.drop_eq_getElem_cons hlt, hget, matches?, List.find?_cons, decide_eq_true hmatch]
    rw [hdrop]
    cases hz : matches? key r block with
    | none => exact absurd (by simpa using hmatch) (List.find?_eq_none.mp hz x hxm)
    | some z =>
      have hnew := hs.newest_of_find hz
      have hzr : z.sequence ≤ r := hnew.seq_le
      have hxz : x.sequence ≤ z.sequence := hnew.newest x hxm hmatch.1 hmatch.2
      have hzx : z = x :=
        hs.functional z hnew.mem x hxm (hnew.key_eq.trans hmatch.1.symm)
          (show z.sequence = x.sequence by omega)
      rw [hzx]

theorem getFromBlock_eq {block : List VersionedEntry} (hs : SortedRun block)
    (hk : ∀ e ∈ block, 0 ∉ e.key) (hq : ∀ e ∈ block, e.sequence ≤ maxUInt64) {key : Bytes}
    (hkey : 0 ∉ key) (hr : r ≤ maxUInt64) : getFromBlock block key r = matches? key r block := by
  simp only [getFromBlock]
  generalize hc : (block.length + SSTable.kRestartInterval - 1) / SSTable.kRestartInterval = count
  have hinv := restartSearch_spec block (encodeInternalKey key r) count 0 count (Or.inl rfl)
  generalize hl : restartSearch block (encodeInternalKey key r) count 0 count = left at hinv
  generalize hi : SSTable.kRestartInterval * (if left = 0 then 0 else left - 1) = start
  have hdrop : SortedRun (block.drop start) := hs.sublist (List.drop_sublist _ _)
  rw [scanBlock_eq hdrop]
  by_cases h0 : left = 0
  · rw [h0, if_pos rfl, Nat.mul_zero] at hi
    rw [← hi, List.drop_zero]
  · have hle := hinv.resolve_left h0
    rw [if_neg h0] at hi
    simp only [restartKey, hi] at hle
    cases hb : block[start]? with
    | none =>
      have hlen : block.length ≤ start := List.getElem?_eq_none_iff.mp hb
      -- a restart point behind the end cannot be reached by the search
      have hbound := restartSearch_le block (encodeInternalKey key r) count (Nat.zero_le count)
      rw [hl] at hbound
      have hempty : block = [] := by
        rw [← List.length_eq_zero_iff]
        simp only [SSTable.kRestartInterval] at hc hi
        omega
      simp [hempty, matches?]
    | some y =>
      rw [hb] at hle
      exact (matches_drop hs hk hq hkey hr hb hle).symm

theorem Wf.block_sorted (h : t.Wf) (hb : b ∈ t.blocks) : SortedRun b :=
  h.sorted.sublist (List.sublist_flatten_of_mem hb)

theorem Wf.mem_entries (hb : b ∈ t.blocks) (he : e ∈ b) : e ∈ t.entries :=
  List.mem_flatten_of_mem hb he

theorem le_lastKeyOf (hs : SortedRun b) (hk : ∀ e ∈ b, 0 ∉ e.key)
    (hq : ∀ e ∈ b, e.sequence ≤ maxUInt64) (he : e ∈ b) :
    encodeInternalKey e.key e.sequence ≤ SSTable.lastKeyOf b := by
  obtain ⟨front, last, rfl⟩ : ∃ front last, b = front ++ [last] :=
    ⟨b.dropLast, b.getLast (List.ne_nil_of_mem he), (List.dropLast_append_getLast _).symm⟩
  have hlast : SSTable.lastKeyOf (front ++ [last]) = encodeInternalKey last.key last.sequence := by
    simp [SSTable.lastKeyOf]
  rw [hlast]
  rcases List.mem_append.mp he with hf | hl
  · have hle : EntryLe e last := (List.pairwise_append.mp hs).2.2 e hf last List.mem_cons_self
    have hlm : last ∈ front ++ [last] := by simp
    rcases hle with hlt | rfl
    · refine le_of_lt ?_
      rw [encodeInternalKey_lt_iff (hk e he) (hk last hlm) (hq e he) (hq last hlm)]
      exact hlt
    · exact le_refl _
  · rw [List.mem_singleton.mp hl]

theorem Wf.index_sorted (h : t.Wf) : (t.index.map IndexEntry.lastInternalKey).Pairwise (· ≤ ·) := by
  rw [h.index, List.pairwise_map]
  have hcross : t.blocks.Pairwise fun a b => ∀ x ∈ a, ∀ y ∈ b, EntryLe x y :=
    (List.pairwise_flatten.mp h.sorted).2
  refine List.Pairwise.imp_of_mem ?_ hcross
  intro a b ha hb hab
  have hane := h.nonempty a ha
  have hbne := h.nonempty b hb
  have hlast : SSTable.lastKeyOf a =
      encodeInternalKey (a.getLast hane).key (a.getLast hane).sequence := by
    simp [SSTable.lastKeyOf, List.getLast?_eq_getLast_of_ne_nil hane]
  have hx := Wf.mem_entries ha (List.getLast_mem hane)
  have hy := Wf.mem_entries hb (List.getLast_mem hbne)
  have hle := le_lastKeyOf (h.block_sorted hb) (fun x hx => h.keys x (Wf.mem_entries hb hx))
    (fun x hx => h.sequences x (Wf.mem_entries hb hx)) (List.getLast_mem hbne)
  refine le_trans ?_ hle
  rw [hlast]
  rcases hab _ (List.getLast_mem hane) _ (List.getLast_mem hbne) with hlt | heq
  · refine le_of_lt ?_
    rw [encodeInternalKey_lt_iff (h.keys _ hx) (h.keys _ hy) (h.sequences _ hx)
      (h.sequences _ hy)]
    exact hlt
  · rw [heq]

theorem lastKeyAt_mono (hs : (index.map IndexEntry.lastInternalKey).Pairwise (· ≤ ·)) {j : Nat}
    (hij : i ≤ j) (hj : j < index.length) : lastKeyAt index i ≤ lastKeyAt index j := by
  rcases Nat.lt_or_eq_of_le hij with hlt | rfl
  · have hi : i < index.length := by omega
    have hpair := List.pairwise_iff_getElem.mp hs i j (by simpa using hi) (by simpa using hj) hlt
    simpa [lastKeyAt, hi, hj] using hpair
  · exact le_refl _

/-- The loop keeps what lies before `first` below the target and what lies behind
`first + len` not below it. -/
theorem lowerBoundLoop_spec (hs : (index.map IndexEntry.lastInternalKey).Pairwise (· ≤ ·))
    (target : Bytes) (fuel first len : Nat) (hfuel : len ≤ fuel) (hend : first + len ≤ index.length)
    (hbefore : ∀ i, i < first → lastKeyAt index i < target)
    (hbehind : ∀ i, first + len ≤ i → i < index.length → ¬ lastKeyAt index i < target) :
    lowerBoundLoop index target fuel first len ≤ index.length ∧
    (∀ i, i < lowerBoundLoop index target fuel first len → lastKeyAt index i < target) ∧
    ∀ i, lowerBoundLoop index target fuel first len ≤ i → i < index.length →
      ¬ lastKeyAt index i < target := by
  induction fuel generalizing first len with
  | zero =>
    have hlen : len = 0 := by omega
    subst hlen
    exact ⟨hend, hbefore, hbehind⟩
  | succ fuel ih =>
    simp only [lowerBoundLoop]
    split
    · rename_i hlen
      subst hlen
      exact ⟨hend, hbefore, hbehind⟩
    · rename_i hlen
      split
      · rename_i hlt
        refine ih (first + len / 2 + 1) (len - len / 2 - 1) (by omega) (by omega) ?_ ?_
        · intro i hi
          exact lt_of_le_of_lt (lastKeyAt_mono hs (by omega) (by omega)) hlt
        · intro i hi hil
          exact hbehind i (by omega) hil
      · rename_i hge
        refine ih first (len / 2) (by omega) (by omega) hbefore ?_
        intro i hi hil hlt
        exact hge (lt_of_le_of_lt (lastKeyAt_mono hs hi hil) hlt)

theorem Wf.lowerBound_spec (h : t.Wf) (target : Bytes) :
    lowerBound t.index target ≤ t.index.length ∧
    (∀ i, i < lowerBound t.index target → lastKeyAt t.index i < target) ∧
    ∀ i, lowerBound t.index target ≤ i → i < t.index.length → ¬ lastKeyAt t.index i < target :=
  lowerBoundLoop_spec h.index_sorted target t.index.length 0 t.index.length (Nat.le_refl _)
    (by omega) (fun i hi => absurd hi (Nat.not_lt_zero i)) (fun i hi hil => absurd hil (by omega))

theorem Wf.index_length (h : t.Wf) : t.index.length = t.blocks.length := by
  have hlen := congrArg List.length h.index
  simpa using hlen

theorem Wf.lastKeyAt_eq (h : t.Wf) (hb : t.blocks[i]? = some b) :
    lastKeyAt t.index i = SSTable.lastKeyOf b := by
  rw [lastKeyAt, ← List.getElem?_map, h.index, List.getElem?_map, hb]
  rfl

theorem lastKeyOf_lt_of_take (h : t.Wf) (hb : b ∈ t.blocks.take (lowerBound t.index target)) :
    SSTable.lastKeyOf b < target := by
  obtain ⟨i, hi, rfl⟩ := List.mem_iff_getElem.mp hb
  rw [List.length_take] at hi
  have hget : t.blocks[i]? = some t.blocks[i] := List.getElem?_eq_getElem (by omega)
  rw [List.getElem_take, ← h.lastKeyAt_eq hget]
  exact (h.lowerBound_spec target).2.1 i (by omega)

theorem le_lastKeyOf_of_get (h : t.Wf) (hb : t.blocks[lowerBound t.index target]? = some b) :
    target ≤ SSTable.lastKeyOf b := by
  have hlt : lowerBound t.index target < t.index.length := by
    rw [h.index_length]
    exact (List.getElem?_eq_some_iff.mp hb).1
  have hnot := (h.lowerBound_spec target).2.2 _ (Nat.le_refl _) hlt
  rw [h.lastKeyAt_eq hb] at hnot
  exact not_lt.mp hnot

/-- A lookup returns the newest visible version of the key. -/
theorem get_eq (h : t.Wf) {key : Bytes} (hkey : 0 ∉ key) (hr : r ≤ maxUInt64) :
    t.get Reader.plain key r = .ok (matches? key r t.entries) := by
  have hlen := h.index_length
  by_cases hfilter : t.filter.mayContain key = false
  · rw [get, if_pos hfilter]
    congr 1
    symm
    rw [matches?, List.find?_eq_none]
    intro e he hm
    simp only [decide_eq_true_eq] at hm
    have := h.filter e he
    rw [hm.1, hfilter] at this
    cases this
  · rw [get, if_neg hfilter]
    simp only
    generalize hi : lowerBound t.index (encodeInternalKey key r) = i
    have hskip : ∀ e ∈ (t.blocks.take i).flatten, ¬ (e.key = key ∧ e.sequence ≤ r) := by
      intro e he
      obtain ⟨b, hb, heb⟩ := List.mem_flatten.mp he
      have hbm : b ∈ t.blocks := List.mem_of_mem_take hb
      have hem := Wf.mem_entries hbm heb
      apply not_match_of_lt (h.keys e hem) hkey (h.sequences e hem) hr
      refine lt_of_le_of_lt (le_lastKeyOf (h.block_sorted hbm)
        (fun x hx => h.keys x (Wf.mem_entries hbm hx))
        (fun x hx => h.sequences x (Wf.mem_entries hbm hx)) heb) ?_
      exact lastKeyOf_lt_of_take h (hi ▸ hb)
    have hsplit : t.entries = (t.blocks.take i).flatten ++ (t.blocks.drop i).flatten := by
      rw [← List.flatten_append, List.take_append_drop]
      rfl
    have hfirst : matches? key r t.entries = matches? key r (t.blocks.drop i).flatten := by
      rw [matches?, hsplit, List.find?_append]
      have hnone : (t.blocks.take i).flatten.find? (fun e => e.key = key ∧ e.sequence ≤ r) = none := by
        rw [List.find?_eq_none]
        intro e he
        simpa using hskip e he
      rw [hnone]
      rfl
    by_cases hend : i = t.index.length
    · rw [if_pos hend, hfirst]
      have hnil : t.blocks.drop i = [] := List.drop_eq_nil_of_le (by omega)
      rw [hnil]
      rfl
    · rw [if_neg hend]
      have hbound := (h.lowerBound_spec (encodeInternalKey key r)).1
      have hlt : i < t.blocks.length := by omega
      obtain ⟨b, hb⟩ : ∃ b, t.blocks[i]? = some b := ⟨_, List.getElem?_eq_getElem hlt⟩
      have hbm : b ∈ t.blocks := List.mem_of_getElem? hb
      have hread : Reader.plain t i = .ok b := by
        simp [Reader.plain, List.getD_eq_getElem?_getD, hb]
      rw [hread]
      simp only
      rw [getFromBlock_eq (h.block_sorted hbm) (fun x hx => h.keys x (Wf.mem_entries hbm hx))
        (fun x hx => h.sequences x (Wf.mem_entries hbm hx)) hkey hr, hfirst]
      congr 1
      have hdrop : t.blocks.drop i = b :: t.blocks.drop (i + 1) := by
        rw [List.drop_eq_getElem_cons hlt]
        congr 1
        rw [List.getElem?_eq_getElem hlt] at hb
        exact Option.some.inj hb
      rw [hdrop, List.flatten_cons, matches?, matches?, List.find?_append]
      cases hf : b.find? fun e => e.key = key ∧ e.sequence ≤ r with
      | some x => rfl
      | none =>
        -- the block ends at or behind the target without a match, so all later keys are greater
        rw [Option.none_or]
        symm
        rw [List.find?_eq_none]
        intro y hy hm
        simp only [decide_eq_true_eq] at hm
        have hlast := le_lastKeyOf_of_get h (hi ▸ hb)
        have hbne := h.nonempty b hbm
        have hsorted : SortedRun (b ++ (t.blocks.drop (i + 1)).flatten) := by
          have hs := h.sorted
          rw [hsplit, hdrop, List.flatten_cons] at hs
          exact (List.pairwise_append.mp hs).2.1
        have hlm : b.getLast hbne ∈ b := List.getLast_mem hbne
        have hly : EntryLe (b.getLast hbne) y :=
          (List.pairwise_append.mp hsorted).2.2 _ hlm y hy
        have hlkey : SSTable.lastKeyOf b =
            encodeInternalKey (b.getLast hbne).key (b.getLast hbne).sequence := by
          simp [SSTable.lastKeyOf, List.getLast?_eq_getLast_of_ne_nil hbne]
        have hlno := List.find?_eq_none.mp hf _ hlm
        simp only [decide_eq_true_eq] at hlno
        have hlem := Wf.mem_entries hbm hlm
        rw [hlkey] at hlast
        apply hlno
        have hnlt : ¬ encodeInternalKey (b.getLast hbne).key (b.getLast hbne).sequence <
            encodeInternalKey key r := not_lt_of_ge hlast
        rw [encodeInternalKey_lt_iff (h.keys _ hlem) hkey (h.sequences _ hlem) hr,
          not_or] at hnlt
        have hkle : (b.getLast hbne).key ≤ key := hm.1 ▸ hly.key_le
        have hkeq : (b.getLast hbne).key = key := le_antisymm hkle (not_lt.mp hnlt.1)
        refine ⟨hkeq, ?_⟩
        by_contra hgt
        exact hnlt.2 ⟨hkeq, by omega⟩

theorem scanBlock_some {key : Bytes} (h : scanBlock key r es = some e) :
    e ∈ es ∧ e.key = key ∧ e.sequence ≤ r := by
  induction es with
  | nil => cases h
  | cons x es ih =>
    rw [scanBlock] at h
    split at h
    · rename_i hx
      cases h
      exact ⟨List.mem_cons_self, hx⟩
    · split at h
      · cases h
      · obtain ⟨hmem, hmatch⟩ := ih h
        exact ⟨List.mem_cons_of_mem x hmem, hmatch⟩

theorem getFromBlock_some {key : Bytes} (h : getFromBlock b key r = some e) :
    e ∈ b ∧ e.key = key ∧ e.sequence ≤ r := by
  obtain ⟨hmem, hmatch⟩ := scanBlock_some h
  exact ⟨List.mem_of_mem_drop hmem, hmatch⟩

theorem get_eq_of_any_key (h : t.Wf) (key : Bytes) (hr : r ≤ maxUInt64) :
    t.get Reader.plain key r = .ok (matches? key r t.entries) := by
  by_cases hkey : 0 ∈ key
  · have habsent : ∀ e ∈ t.entries, e.key ≠ key := by
      intro e he heq
      exact (h.keys e he) (heq ▸ hkey)
    have hnone : matches? key r t.entries = none := by
      rw [matches?, List.find?_eq_none]
      intro e he hm
      simp only [decide_eq_true_eq] at hm
      exact habsent e he hm.1
    rw [hnone, get]
    split
    · rfl
    · dsimp only
      split
      · rfl
      · generalize lowerBound t.index (encodeInternalKey key r) = i
        show Except.ok (getFromBlock (t.blocks.getD i []) key r) = _
        cases hg : getFromBlock (t.blocks.getD i []) key r with
        | none => rfl
        | some e =>
          obtain ⟨hblock, hek, _⟩ := getFromBlock_some hg
          rw [List.getD_eq_getElem?_getD] at hblock
          cases hb : t.blocks[i]? with
          | none =>
            rw [hb] at hblock
            cases hblock
          | some b =>
            rw [hb] at hblock
            exact absurd hek (habsent e (Wf.mem_entries (List.mem_of_getElem? hb) hblock))
  · exact get_eq h hkey hr

end TableFile

end KvMem
