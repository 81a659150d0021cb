import KvMem.Storage.SSTable

/-! # The block cache and raw block reads

The cache keeps raw blocks under the file number and the offset of the block. The
list is in order of use; the index holds the keys that are found without a
search. A table asks the cache first and reads its file only on a miss.
-/

namespace KvMem

structure BlockCache where
  capacity : Nat
  entries : List ((Nat × Nat) × Bytes) := []
  index : List (Nat × Nat) := []
  hits : Nat := 0
  misses : Nat := 0
  deriving DecidableEq, Repr

namespace BlockCache

def get (c : BlockCache) (fileNumber blockOffset : Nat) : Option Bytes × BlockCache :=
  let key := (fileNumber, blockOffset)
  let miss := (none, { c with misses := c.misses + 1 })
  if c.capacity = 0 then miss
  else if key ∈ c.index then
    match c.entries.find? fun e => e.1 = key with
    | none => miss
    | some e =>
      (some e.2, { c with
        entries := e :: c.entries.filter fun e => e.1 ≠ key
        hits := c.hits + 1 })
  else miss

def evict : Nat → BlockCache → BlockCache
  | 0, c => c
  | fuel + 1, c =>
    if c.entries.length > c.capacity then
      match c.entries.getLast? with
      | none => c
      | some e =>
        evict fuel { c with index := c.index.erase e.1, entries := c.entries.dropLast }
    else c

def put (c : BlockCache) (fileNumber blockOffset : Nat) (block : Bytes) : BlockCache :=
  let key := (fileNumber, blockOffset)
  if c.capacity = 0 then c
  else if key ∈ c.index then
    { c with entries := (key, block) :: c.entries.filter fun e => e.1 ≠ key }
  else
    let c := { c with entries := (key, block) :: c.entries, index := key :: c.index }
    evict c.entries.length c

/-- Every cached block is one that `P` allows for its key. -/
def Holds (c : BlockCache) (P : Nat × Nat → Bytes → Prop) : Prop := ∀ e ∈ c.entries, P e.1 e.2

variable {c : BlockCache} {P : Nat × Nat → Bytes → Prop}

theorem get_spec (h : c.Holds P) (n off : Nat) :
    (c.get n off).2.Holds P ∧ ∀ b, (c.get n off).1 = some b → P (n, off) b := by
  have hmiss : Holds { c with misses := c.misses + 1 } P := h
  simp only [get]
  split
  · exact ⟨hmiss, fun b hb => by cases hb⟩
  · split
    · split
      · exact ⟨hmiss, fun b hb => by cases hb⟩
      · rename_i e hfind
        have hmem := List.mem_of_find?_eq_some hfind
        have hkey : e.1 = (n, off) := by simpa using List.find?_some hfind
        constructor
        · intro x hx
          rcases List.mem_cons.mp hx with rfl | hx
          · exact h x hmem
          · exact h x (List.mem_of_mem_filter hx)
        · intro b hb
          cases hb
          exact hkey ▸ h e hmem
    · exact ⟨hmiss, fun b hb => by cases hb⟩

theorem evict_holds (fuel : Nat) (h : c.Holds P) : (evict fuel c).Holds P := by
  induction fuel generalizing c with
  | zero => exact h
  | succ fuel ih =>
    unfold evict
    split
    · split
      · exact h
      · exact ih fun e he => h e (List.mem_of_mem_dropLast he)
    · exact h

theorem put_holds (h : c.Holds P) {n off : Nat} {b : Bytes} (hb : P (n, off) b) :
    (c.put n off b).Holds P := by
  simp only [put]
  split
  · exact h
  · split
    · intro e he
      rcases List.mem_cons.mp he with rfl | he
      · exact hb
      · exact h e (List.mem_of_mem_filter he)
    · apply evict_holds
      intro e he
      rcases List.mem_cons.mp he with rfl | he
      · exact hb
      · exact h e he

end BlockCache

namespace TableFile

def rawBlock (t : TableFile) (index : IndexEntry) : Bytes :=
  ((SSTable.fileBytes t).drop index.blockOffset).take index.blockSize

/-- `ReadRawBlock`: the cache first, then the file. `failure` is the error of the read of
the file, if it fails. -/
def readRawBlock (failure : Option Status) (cache : BlockCache) (fileNumber : Nat) (t : TableFile)
    (index : IndexEntry) : Except Status Bytes × BlockCache :=
  match cache.get fileNumber index.blockOffset with
  | (some block, cache) => (.ok block, cache)
  | (none, cache) =>
    match failure with
    | some status => (.error status, cache)
    | none =>
      let block := t.rawBlock index
      (.ok block, cache.put fileNumber index.blockOffset block)

/-- A cache whose blocks under this number all come from this table serves the
bytes of the file, unless the file has to be read and the read fails. -/
theorem readRawBlock_spec {cache : BlockCache} {P : Nat × Nat → Bytes → Prop} {n : Nat}
    {t : TableFile} {index : IndexEntry} (failure : Option Status) (h : cache.Holds P)
    (hP : P (n, index.blockOffset) (t.rawBlock index))
    (honly : ∀ b, P (n, index.blockOffset) b → b = t.rawBlock index) :
    ((t.readRawBlock failure cache n index).1 = .ok (t.rawBlock index) ∨
        ∃ e, failure = some e ∧ (t.readRawBlock failure cache n index).1 = .error e) ∧
      (t.readRawBlock failure cache n index).2.Holds P := by
  obtain ⟨hcache, hblock⟩ := BlockCache.get_spec h n index.blockOffset
  unfold readRawBlock
  generalize hg : cache.get n index.blockOffset = g at hcache hblock
  obtain ⟨found, cache'⟩ := g
  cases found with
  | none =>
    cases failure with
    | none => exact ⟨Or.inl rfl, BlockCache.put_holds hcache hP⟩
    | some e => exact ⟨Or.inr ⟨e, rfl, rfl⟩, hcache⟩
  | some b => exact ⟨Or.inl (congrArg _ (honly b (hblock b rfl))), hcache⟩

/-! ## Where the blocks lie -/

def Laid (t : TableFile) : Prop := t.index = SSTable.indexBlocks 0 t.blocks

end TableFile

namespace SSTable

theorem tableOf_laid (es : List VersionedEntry) (blockSize bits : Nat) :
    (tableOf es blockSize bits).Laid := rfl

theorem encodeBlock_ne_nil (es : List VersionedEntry) : encodeBlock es ≠ [] := by
  intro h
  have hlen := congrArg List.length h
  rw [encodeBlock, List.length_append, encodeFixed32_length, List.length_nil] at hlen
  omega

theorem indexBlocks_offset_ge (offset : Nat) (blocks : List (List VersionedEntry))
    {item : IndexEntry} (h : item ∈ indexBlocks offset blocks) : offset ≤ item.blockOffset := by
  induction blocks generalizing offset with
  | nil => cases h
  | cons b bs ih =>
    rw [indexBlocks] at h
    rcases List.mem_cons.mp h with rfl | h
    · exact Nat.le_refl _
    · exact (Nat.le_add_right _ _).trans (ih _ h)

/-- An offset belongs to one block only: no block is empty. -/
theorem indexBlocks_offset_inj (offset : Nat) (blocks : List (List VersionedEntry))
    {x y : IndexEntry} (hx : x ∈ indexBlocks offset blocks) (hy : y ∈ indexBlocks offset blocks)
    (h : x.blockOffset = y.blockOffset) : x = y := by
  induction blocks generalizing offset with
  | nil => cases hx
  | cons b bs ih =>
    have hpos : 0 < (encodeBlock b).length := List.length_pos_of_ne_nil (encodeBlock_ne_nil b)
    rw [indexBlocks] at hx hy
    rcases List.mem_cons.mp hx with rfl | hx'
    · rcases List.mem_cons.mp hy with rfl | hy'
      · rfl
      · have hge := indexBlocks_offset_ge _ _ hy'
        rw [← h] at hge
        change offset + _ ≤ offset at hge
        omega
    · rcases List.mem_cons.mp hy with rfl | hy'
      · have hge := indexBlocks_offset_ge _ _ hx'
        rw [h] at hge
        change offset + _ ≤ offset at hge
        omega
      · exact ih _ hx' hy'

end SSTable

namespace TableFile

theorem Laid.offset_inj {t : TableFile} (h : t.Laid) {x y : IndexEntry} (hx : x ∈ t.index)
    (hy : y ∈ t.index) (he : x.blockOffset = y.blockOffset) : x = y := by
  rw [h] at hx hy
  exact SSTable.indexBlocks_offset_inj 0 t.blocks hx hy he

end TableFile

end KvMem
