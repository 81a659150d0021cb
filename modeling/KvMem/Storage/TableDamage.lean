import KvMem.Storage.Damage
import KvMem.Storage.TableReader

/-! # Damaged tables

What a lookup answers in a table file with one inverted bit. Data blocks carry a
checksum and the footer is determined by the sizes of the parts, so damage there is
reported. Index and filter are checked for their sizes only: a damaged index may name
another block or none, and a damaged filter may rule out a key the table has.
-/

namespace KvMem

open Parsing FixedWidth

/-! ## Slices of a damaged file -/

namespace SSTable

section Parts

variable (bit : Fin 8) (data index filter : Bytes)

end Parts

/-- Open a file and look a key up. The outer error is that of opening. -/
def lookup (file key : Bytes) (readSequence : Nat) :
    Except Status (Except Status (Option Bytes × Nat)) := do
  let table ← openFile file
  return table.get key readSequence

def Reported (answer : Except Status (Option Bytes × Nat)) : Prop :=
  ∃ message, answer = .error (.corruption message) ∨ answer = .error (.ioError message)

end SSTable

namespace LoadedTable

end LoadedTable

namespace TableFile

open SSTable

variable {t : TableFile}

def range (item : IndexEntry) : Nat × Nat := (item.blockOffset, item.blockSize)

def stopAt (index : List IndexEntry) (key : Bytes) (r : Nat) : Option IndexEntry :=
  index[lowerBound index (encodeInternalKey key r)]?

/-- What a range of the file has to pass before records are read from it. -/
def checkBlock (file : Bytes) (item : IndexEntry) : Except Status PrefixBlockLayout := do
  let block ← readExactAt file item.blockOffset item.blockSize
  let payload ← decodeBlockPayload block
  parsePrefixBlockLayout payload

/-- A damaged index does no silent harm to a lookup that stops at an entry with the range of
before or with a range that is no block; nor to the lookup of a key without a visible
version that stops at any block of the table. -/
inductive IndexHarmless (t : TableFile) (index : List IndexEntry) (key : Bytes) (r : Nat) : Prop where
  | same (h : (stopAt index key r).map range = (stopAt t.index key r).map range)
  | rejected (item : IndexEntry) (message : String) (hstop : stopAt index key r = some item)
      (h : checkBlock (fileBytes t) item = .error (.corruption message))
  | absent (hnone : matches? key r t.entries = none)
      (h : ∀ item, stopAt index key r = some item → range item ∈ t.index.map range)

theorem Placed.lookup (h : t.Placed) (key : Bytes) (r : Nat) :
    lookup (fileBytes t) key r = .ok (t.loaded.get key r) := by
  rw [SSTable.lookup, h.openFile]
  rfl

end TableFile

namespace TableFile

open Versions SSTable

variable {t : TableFile} {index : List IndexEntry} {key : Bytes} {r : Nat}

theorem searchBlock_of_range {index' : List IndexEntry} {file : Bytes} {filter filter' : BloomFilter}
    (h : (stopAt index key r).map range = (stopAt index' key r).map range) :
    LoadedTable.searchBlock ⟨file, index, filter⟩ key r =
      LoadedTable.searchBlock ⟨file, index', filter'⟩ key r := by
  unfold stopAt at h
  unfold LoadedTable.searchBlock LoadedTable.searchBlockFrom
  dsimp only
  cases hx : index[lowerBound index (encodeInternalKey key r)]? with
  | none =>
    rw [hx, Option.map_none, eq_comm, Option.map_eq_none_iff] at h
    rw [h]
  | some item =>
    rw [hx, Option.map_some, eq_comm, Option.map_eq_some_iff] at h
    obtain ⟨item', hx', hrange⟩ := h
    obtain ⟨hoffset, hsize⟩ := Prod.mk.inj hrange
    rw [hx']
    dsimp only
    rw [LoadedTable.getAt, LoadedTable.getAt, LoadedTable.readRawBlock, LoadedTable.readRawBlock,
      hoffset, hsize]

theorem searchBlock_of_rejected {file : Bytes} {filter : BloomFilter} {item : IndexEntry}
    {message : String} (hstop : stopAt index key r = some item)
    (h : checkBlock file item = .error (.corruption message)) :
    LoadedTable.searchBlock ⟨file, index, filter⟩ key r = .error (.corruption message) := by
  have hget : LoadedTable.getAt (LoadedTable.readRawBlock ⟨file, index, filter⟩) item key r =
      .error (.corruption message) := by
    rw [checkBlock] at h
    rw [LoadedTable.getAt, LoadedTable.readRawBlock]
    cases hread : readExactAt file item.blockOffset item.blockSize with
    | error e =>
      rw [hread] at h
      cases h
      rfl
    | ok block =>
      rw [hread, ok_bind] at h
      rw [ok_bind, SSTable.getFromBlock]
      cases hpayload : decodeBlockPayload block with
      | error e =>
        rw [hpayload] at h
        cases h
        rfl
      | ok payload =>
        rw [hpayload, ok_bind] at h
        rw [ok_bind, h]
        rfl
  unfold stopAt at hstop
  unfold LoadedTable.searchBlock LoadedTable.searchBlockFrom
  dsimp only
  rw [hstop]
  exact hget

theorem Storable.searchBlock_of_block (h : t.Storable) {item : IndexEntry}
    (hstop : stopAt index key r = some item) (hrange : range item ∈ t.index.map range) :
    ∃ (m : Nat) (b : List VersionedEntry) (named : IndexEntry), t.blocks[m]? = some b ∧
      t.index[m]? = some named ∧ range item = range named ∧
      LoadedTable.searchBlock ⟨fileBytes t, index, t.filter⟩ key r =
        found (TableFile.getFromBlock b key r) := by
  obtain ⟨named, hnamed, heq⟩ := List.mem_map.mp hrange
  obtain ⟨m, hm⟩ := List.mem_iff_getElem?.mp hnamed
  obtain ⟨b, hb, _⟩ := h.laid.block_of_item hm
  refine ⟨m, b, named, hb, hm, heq.symm, ?_⟩
  obtain ⟨hoffset, hsize⟩ := Prod.mk.inj heq
  rw [← h.getAt hm hb key r]
  unfold stopAt at hstop
  unfold LoadedTable.searchBlock LoadedTable.searchBlockFrom
  dsimp only
  rw [hstop]
  dsimp only
  rw [LoadedTable.getAt, LoadedTable.getAt, LoadedTable.readRawBlock, LoadedTable.readRawBlock,
    hoffset, hsize]
  rfl

theorem IndexHarmless.answer (hharm : IndexHarmless t index key r) (h : t.Storable) (hwf : t.Wf)
    (hr : r ≤ maxUInt64) :
    Reported (LoadedTable.searchBlock ⟨fileBytes t, index, t.filter⟩ key r) ∨
      LoadedTable.searchBlock ⟨fileBytes t, index, t.filter⟩ key r = t.loaded.searchBlock key r := by
  cases hharm with
  | same hsame => exact Or.inr (searchBlock_of_range hsame)
  | rejected item message hstop hbad =>
    exact Or.inl ⟨message, Or.inl (searchBlock_of_rejected hstop hbad)⟩
  | absent hnone hblocks =>
    right
    rw [h.searchBlock hwf key hr, hnone]
    cases hstop : stopAt index key r with
    | none =>
      unfold stopAt at hstop
      unfold LoadedTable.searchBlock LoadedTable.searchBlockFrom
      dsimp only
      rw [hstop]
      rfl
    | some item =>
      obtain ⟨m, b, _, hb, _, _, hanswer⟩ := h.searchBlock_of_block hstop (hblocks item hstop)
      rw [hanswer]
      cases hget : TableFile.getFromBlock b key r with
      | none => rfl
      | some e =>
        obtain ⟨hmem, hmatch⟩ := getFromBlock_some hget
        rw [matches?, List.find?_eq_none] at hnone
        exact absurd (decide_eq_true hmatch)
          (hnone e (Wf.mem_entries (List.mem_of_getElem? hb) hmem))

end TableFile

namespace SSTable

end SSTable

end KvMem
