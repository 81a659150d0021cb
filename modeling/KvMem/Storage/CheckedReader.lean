import KvMem.Foundation.CheckedAccess
import KvMem.Storage.TableReader

/-! # Table readers on positions

The readers of a table file once more, as the code has them: with positions in buffers,
sizes that are subtracted, and loops that go on while a condition holds. None of it
faults, whatever the bytes of the file are; the results are those of `TableReader`.
-/

namespace KvMem.CheckedTable

open CheckedAccess CheckedAccess.Access SSTable

abbrev Read (α : Type) := Access Status α

def fixed32At (buffer : Bytes) (offset : Nat) : Read Nat := do
  let bytes ← slice buffer offset 4
  return decodeFixed32 bytes

def fixed64At (buffer : Bytes) (offset : Nat) : Read Nat := do
  let bytes ← slice buffer offset 8
  return decodeFixed64 bytes

/-! ## Blocks -/

def decodeBlockPayload (block : Bytes) : Read Bytes := do
  require (kBlockTrailerSize + 16 ≤ block.length) (.corruption "invalid SSTable data block")
  let magic ← fixed32At block 0
  require (magic = kDataBlockMagic) (.corruption "invalid SSTable data block")
  let trailer ← sub block.length kBlockTrailerSize
  let compressionType ← item block trailer
  require (compressionType = kNoCompression) (.corruption "unknown SSTable compression type")
  let checksummed ← sub block.length 4
  let expectedCrc ← fixed32At block checksummed
  let bytes ← slice block 0 checksummed
  require (crc32 bytes = expectedCrc) (.corruption "SSTable data block checksum mismatch")
  slice block 0 trailer

def checkRestarts (payload : Bytes) (recordsEnd recordsSize : Nat) : Nat → Nat → Nat → Read Unit
  | 0, _, _ => .value ()
  | count + 1, i, previousOffset => do
      let offset ← fixed32At payload (recordsEnd + i * 4 % 2 ^ 32)
      require (16 ≤ offset) (.corruption "invalid prefix-compressed SSTable restart offset")
      let position ← sub offset 16
      let limit ← sub recordsSize 21
      require (position ≤ limit) (.corruption "invalid prefix-compressed SSTable restart offset")
      require (i = 0 → offset = 16)
        (.corruption "invalid prefix-compressed SSTable restart offset")
      require (0 < i → previousOffset < offset)
        (.corruption "invalid prefix-compressed SSTable restart offset")
      let shared ← fixed32At payload offset
      require (shared = 0) (.corruption "invalid prefix-compressed SSTable restart offset")
      checkRestarts payload recordsEnd recordsSize count (i + 1) offset

def parsePrefixBlockLayout (payload : Bytes) : Read PrefixBlockLayout := do
  require (20 ≤ payload.length) (.corruption "invalid prefix-compressed SSTable block")
  let magic ← fixed32At payload 0
  require (magic = kDataBlockMagic) (.corruption "invalid prefix-compressed SSTable block")
  let restartInterval ← fixed32At payload 4
  let recordCount ← fixed64At payload 8
  require (restartInterval ≠ 0 ∧ recordCount ≠ 0)
    (.corruption "invalid prefix-compressed SSTable restart interval")
  let last ← sub payload.length 4
  let restartCount ← fixed32At payload last
  let restartBytes := restartCount * 4 + 4
  let expectedRestartCount :=
    recordCount / restartInterval + if recordCount % restartInterval = 0 then 0 else 1
  require (restartCount ≠ 0 ∧ restartCount = expectedRestartCount ∧
      16 + restartBytes ≤ payload.length)
    (.corruption "invalid prefix-compressed SSTable restart area")
  let recordsEnd ← sub payload.length restartBytes
  let recordsSize ← sub recordsEnd 16
  require (recordCount ≤ recordsSize / 21)
    (.corruption "invalid prefix-compressed SSTable record count")
  checkRestarts payload recordsEnd recordsSize restartCount 0 0
  return ⟨payload, recordsEnd, restartCount, recordCount⟩

def decodePrefixRecordAt (layout : PrefixBlockLayout) (ptr : Nat) (previousKey : Bytes) :
    Read (VersionedEntry × Nat) := do
  require (16 ≤ ptr) (.corruption "invalid prefix-compressed SSTable record")
  require (ptr ≤ layout.recordsEnd) (.corruption "invalid prefix-compressed SSTable record")
  let room ← sub layout.recordsEnd ptr
  require (21 ≤ room) (.corruption "invalid prefix-compressed SSTable record")
  let shared ← fixed32At layout.payload ptr
  let unshared ← fixed32At layout.payload (ptr + 4)
  let valueSize ← fixed32At layout.payload (ptr + 8)
  let type ← item layout.payload (ptr + 12)
  let sequence ← fixed64At layout.payload (ptr + 13)
  let room ← sub layout.recordsEnd (ptr + 21)
  require (shared ≤ previousKey.length ∧ unshared + valueSize ≤ room)
    (.corruption "invalid prefix-compressed SSTable payload")
  let front ← slice previousKey 0 shared
  let back ← slice layout.payload (ptr + 21) unshared
  let value ← slice layout.payload (ptr + 21 + unshared) valueSize
  let next := ptr + 21 + unshared + valueSize
  if type = 1 then return (⟨front ++ back, sequence, value, false⟩, next)
  else if type = 2 then return (⟨front ++ back, sequence, [], true⟩, next)
  else .refused (.corruption "unknown SSTable record type")

def decodeRecords (layout : PrefixBlockLayout) :
    Nat → Nat → Bytes → Read (List VersionedEntry × Nat)
  | 0, ptr, _ => .value ([], ptr)
  | count + 1, ptr, previousKey => do
      let (entry, next) ← decodePrefixRecordAt layout ptr previousKey
      let (entries, last) ← decodeRecords layout count next entry.key
      return (entry :: entries, last)

def decodePrefixCompressedPayload (payload : Bytes) : Read (List VersionedEntry) := do
  let layout ← parsePrefixBlockLayout payload
  let (entries, ptr) ← decodeRecords layout layout.recordCount 16 []
  require (ptr = layout.recordsEnd)
    (.corruption "trailing prefix-compressed SSTable record bytes")
  return entries

def decodeBlock (block : Bytes) : Read (List VersionedEntry) := do
  let payload ← decodeBlockPayload block
  decodePrefixCompressedPayload payload

def restartKey (layout : PrefixBlockLayout) (restartIndex : Nat) : Read Bytes := do
  require (restartIndex < layout.restartCount)
    (.corruption "invalid prefix-compressed SSTable restart index")
  let offset ← fixed32At layout.payload (layout.recordsEnd + restartIndex * 4 % 2 ^ 32)
  let (entry, _) ← decodePrefixRecordAt layout offset []
  return encodeInternalKey entry.key entry.sequence

/-- The binary search over the restart points, for at most `turns` turns. -/
def restartSearch (layout : PrefixBlockLayout) (target : Bytes) : Nat → Nat → Nat → Read Nat
  | 0, _, _ => .fault .endless
  | turns + 1, left, right =>
    if left < right then do
      let span ← sub right left
      let mid := left + span / 2
      let key ← restartKey layout mid
      if key ≤ target then restartSearch layout target turns (mid + 1) right
      else restartSearch layout target turns left mid
    else return left

def scanRecords (layout : PrefixBlockLayout) (key : Bytes) (readSequence : Nat) :
    Nat → Nat → Bytes → Read (Option VersionedEntry)
  | 0, _, _ => .fault .endless
  | turns + 1, ptr, previousKey =>
    if ptr < layout.recordsEnd then do
      let (entry, next) ← decodePrefixRecordAt layout ptr previousKey
      if entry.key = key ∧ entry.sequence ≤ readSequence then return some entry
      else if key < entry.key then return none
      else scanRecords layout key readSequence turns next entry.key
    else return none

def getFromBlock (block key : Bytes) (readSequence : Nat) : Read (Option VersionedEntry) := do
  let payload ← decodeBlockPayload block
  let layout ← parsePrefixBlockLayout payload
  let left ← restartSearch layout (encodeInternalKey key readSequence) (layout.restartCount + 1) 0
    layout.restartCount
  let restartIndex ← (if left = 0 then .value 0 else sub left 1 : Read Nat)
  let startOffset ← fixed32At layout.payload (layout.recordsEnd + restartIndex * 4 % 2 ^ 32)
  scanRecords layout key readSequence (payload.length + 1) startOffset []

/-! ## The file -/

/-- `ReadExactAt`; `pread` itself gives nothing from behind the end of the file. -/
def readExactAt (file : Bytes) (offset size : Nat) : Read Bytes := do
  require (offset ≤ maxOffset) (.corruption "SSTable read range is too large")
  if 0 < size then do
    let last ← sub size 1
    let room ← sub maxOffset offset
    require (last ≤ room) (.corruption "SSTable read range is too large")
    require (offset + size ≤ file.length) (.corruption "incomplete SSTable read")
    slice file offset size
  else return []

def readIndexEntry (indexOffset : Nat) (indexBlock : Bytes) (_ ptr : Nat) :
    Read (IndexEntry × Nat) := do
  let room ← sub indexBlock.length ptr
  require (4 ≤ room) (.corruption "invalid SSTable index key size")
  let keySize ← fixed32At indexBlock ptr
  let room ← sub indexBlock.length (ptr + 4)
  require (keySize + 16 ≤ room) (.corruption "invalid SSTable index entry")
  let lastInternalKey ← slice indexBlock (ptr + 4) keySize
  let blockOffset ← fixed64At indexBlock (ptr + 4 + keySize)
  let blockSize ← fixed64At indexBlock (ptr + 4 + keySize + 8)
  require (blockOffset ≤ indexOffset) (.corruption "invalid SSTable data block range")
  let space ← sub indexOffset blockOffset
  require (blockSize ≤ space) (.corruption "invalid SSTable data block range")
  return (⟨lastInternalKey, blockOffset, blockSize⟩, ptr + 4 + keySize + 16)

def decodeIndex (indexOffset : Nat) (indexBlock : Bytes) : Read (List IndexEntry) := do
  require (8 ≤ indexBlock.length) (.corruption "invalid SSTable index")
  let indexCount ← fixed64At indexBlock 0
  let (index, ptr) ← times (readIndexEntry indexOffset indexBlock) indexCount 0 8
  require (ptr = indexBlock.length) (.corruption "trailing SSTable index bytes")
  return index

def decodeFooter (footer : Bytes) : Read Footer := do
  let indexOffset ← fixed64At footer 0
  let indexSize ← fixed64At footer 8
  let filterOffset ← fixed64At footer 16
  let filterSize ← fixed64At footer 24
  let magic ← fixed64At footer 32
  return ⟨indexOffset, indexSize, filterOffset, filterSize, magic⟩

def checkFooter (dataEnd : Nat) (footer : Footer) : Read Unit := do
  require (footer.magic = kSSTableMagic) (.corruption "invalid SSTable magic")
  require (footer.indexOffset ≤ footer.filterOffset) (.corruption "invalid SSTable footer")
  let indexSpace ← sub footer.filterOffset footer.indexOffset
  require (footer.indexSize = indexSpace) (.corruption "invalid SSTable footer")
  require (footer.filterOffset ≤ dataEnd) (.corruption "invalid SSTable footer")
  let filterSpace ← sub dataEnd footer.filterOffset
  require (footer.filterSize = filterSpace) (.corruption "invalid SSTable footer")

def decodeFilter (data : Bytes) : Read BloomFilter := do
  require (8 ≤ data.length) (.corruption "invalid bloom filter")
  let bitCount ← fixed32At data 0
  let hashCount ← fixed32At data 4
  require (data.length = (bitCount + 7) / 8 + 8 ∧ bitCount ≠ 0 ∧ hashCount ≠ 0 ∧ hashCount ≤ 30)
    (.corruption "invalid bloom filter payload")
  let size ← sub data.length 8
  let bits ← slice data 8 size
  return ⟨bitCount, hashCount, bits⟩

def probeAll (filter : BloomFilter) (key : Bytes) : List Nat → Read Bool
  | [] => .value true
  | i :: is => do
      let bit := BloomFilter.probe filter.bitCount key i
      let byte ← item filter.bits (bit / 8)
      if byte.val.testBit (bit % 8) then probeAll filter key is else return false

def mayContain (filter : BloomFilter) (key : Bytes) : Read Bool :=
  if filter.bitCount = 0 ∨ filter.hashCount = 0 then .value true
  else probeAll filter key (List.range filter.hashCount)

def openFile (file : Bytes) : Read LoadedTable := do
  require (kFooterSize ≤ file.length) (.corruption "SSTable too small")
  let dataEnd ← sub file.length kFooterSize
  let footerBytes ← readExactAt file dataEnd kFooterSize
  let footer ← decodeFooter footerBytes
  checkFooter dataEnd footer
  let indexBlock ← readExactAt file footer.indexOffset footer.indexSize
  let index ← decodeIndex footer.indexOffset indexBlock
  let filterBlock ← readExactAt file footer.filterOffset footer.filterSize
  let filter ← decodeFilter filterBlock
  return ⟨file, index, filter⟩

def readRawBlock (t : LoadedTable) (entry : IndexEntry) : Read Bytes :=
  readExactAt t.file entry.blockOffset entry.blockSize

def readBlock (t : LoadedTable) (entry : IndexEntry) : Read (List VersionedEntry) := do
  let block ← readRawBlock t entry
  decodeBlock block

def readBlocks (t : LoadedTable) : List IndexEntry → Read (List VersionedEntry)
  | [] => .value []
  | entry :: index => do
      let block ← readBlock t entry
      let rest ← readBlocks t index
      return block ++ rest

def lowerBoundLoop (index : List IndexEntry) (target : Bytes) : Nat → Nat → Nat → Read Nat
  | 0, _, _ => .fault .endless
  | turns + 1, first, len =>
    if len = 0 then return first
    else do
      let half := len / 2
      let entry ← item index (first + half)
      if entry.lastInternalKey < target then do
        let rest ← sub len half
        let rest ← sub rest 1
        lowerBoundLoop index target turns (first + half + 1) rest
      else lowerBoundLoop index target turns first half

def lowerBound (index : List IndexEntry) (target : Bytes) : Read Nat :=
  lowerBoundLoop index target (index.length + 1) 0 index.length

def get (t : LoadedTable) (key : Bytes) (readSequence : Nat) : Read (Option Bytes × Nat) := do
  let possible ← mayContain t.filter key
  if possible = false then .refused (.notFound "key not found")
  else do
    let i ← lowerBound t.index (encodeInternalKey key readSequence)
    if i = t.index.length then .refused (.notFound "key not found")
    else do
      let entry ← item t.index i
      let block ← readRawBlock t entry
      let found ← getFromBlock block key readSequence
      match found with
      | none => .refused (.notFound "key not found")
      | some e => return LoadedTable.answer e

/-! ## Iterators -/

/-- `EnsureBlockLoaded`, for at most `turns` turns; a read error becomes the status. -/
def ensureBlockLoaded (t : LoadedTable) : Nat → SSTableIterator → Read (Bool × SSTableIterator)
  | 0, _ => .fault .endless
  | turns + 1, it =>
    if it.loadedBlock then return (true, it)
    else if t.index.length ≤ it.blockIndex then return (false, it)
    else do
      let entry ← item t.index it.blockIndex
      match readBlock t entry with
      | .fault f => .fault f
      | .refused e => return (false, { it with blockEntries := [], status := e })
      | .value es =>
        if es = [] then
          ensureBlockLoaded t turns
            { it with blockEntries := [], status := .ok, entryIndex := 0,
                      blockIndex := it.blockIndex + 1 }
        else
          return (true, { it with blockEntries := es, status := .ok, loadedBlock := true,
                                  entryIndex := 0 })

def skipUntilVisible (t : LoadedTable) (target : Bytes) : Nat → SSTableIterator →
    Read SSTableIterator
  | 0, _ => .fault .endless
  | turns + 1, it => do
      let (loaded, it) ← ensureBlockLoaded t (t.index.length + 1) it
      if loaded then do
        let e ← item it.blockEntries it.entryIndex
        if target ≠ [] ∧ e.key < target then skipUntilVisible t target turns it.advanceRaw
        else if e.sequence > it.readSequence then skipUntilVisible t target turns it.advanceRaw
        else return it
      else return it

def valid (it : SSTableIterator) : Bool :=
  it.status = .ok ∧ it.loadedBlock ∧ it.entryIndex < it.blockEntries.length

def current (it : SSTableIterator) : Read (Option VersionedEntry) :=
  if valid it then do
    let e ← item it.blockEntries it.entryIndex
    return some e
  else return none

inductive IteratorCall where
  | seekToFirst
  | seek (target : Bytes)
  | next
  deriving DecidableEq, Repr

def call (t : LoadedTable) (it : SSTableIterator) : IteratorCall → Read SSTableIterator
  | .seekToFirst => skipUntilVisible t [] it.fuel (it.restartAt 0)
  | .seek target => do
      let i ← lowerBound t.index (encodeInternalKey target it.readSequence)
      skipUntilVisible t target it.fuel (it.restartAt i)
  | .next => if valid it then skipUntilVisible t [] it.fuel it.advanceRaw else return it

/-- Calls on an iterator; after each of them the entry it stands on is read. -/
def calls (t : LoadedTable) : List IteratorCall → SSTableIterator → Read SSTableIterator
  | [], it => .value it
  | c :: cs, it => do
      let it ← call t it c
      let _ ← current it
      calls t cs it

/-! ## Accesses that stay inside -/

variable {buffer file : Bytes} {offset turns i : Nat} {α : Type} {layout : PrefixBlockLayout}
  {t : LoadedTable} {it : SSTableIterator}

theorem fixed32At_bind (h : offset + 4 ≤ buffer.length) (f : Nat → Read α) :
    (fixed32At buffer offset >>= f) = f (decodeFixed32 (buffer.drop offset)) := by
  have hread : fixed32At buffer offset = .value (decodeFixed32 (buffer.drop offset)) := by
    rw [fixed32At, slice_bind h, decodeFixed32_take]
    rfl
  rw [hread]
  rfl

theorem fixed64At_bind (h : offset + 8 ≤ buffer.length) (f : Nat → Read α) :
    (fixed64At buffer offset >>= f) = f (decodeFixed64 (buffer.drop offset)) := by
  have hread : fixed64At buffer offset = .value (decodeFixed64 (buffer.drop offset)) := by
    rw [fixed64At, slice_bind h, decodeFixed64_take]
    rfl
  rw [hread]
  rfl

theorem decodeBlockPayload_eq (block : Bytes) :
    decodeBlockPayload block = ofExcept (SSTable.decodeBlockPayload block) := by
  unfold decodeBlockPayload SSTable.decodeBlockPayload
  refine require_and_bind fun hlen => ?_
  have hlen : 21 ≤ block.length := hlen
  rw [fixed32At_bind (by omega), List.drop_zero]
  refine require_bind fun _ => ?_
  have htrailer : kBlockTrailerSize ≤ block.length := by
    unfold kBlockTrailerSize
    omega
  rw [sub_bind htrailer]
  have hin : block.length - kBlockTrailerSize < block.length := by
    unfold kBlockTrailerSize
    omega
  have hget := List.getElem?_eq_getElem hin
  rw [item_bind hget, hget]
  simp only [Option.some.injEq]
  refine require_bind fun _ => ?_
  rw [sub_bind (by omega), fixed32At_bind (by omega), slice_bind (by omega)]
  simp only [List.drop_zero]
  refine require_bind fun _ => ?_
  rw [slice, if_pos (by omega), List.drop_zero]
  rfl

theorem checkRestarts_eq
    (harea : layout.recordsEnd + (layout.restartCount * 4 + 4) = layout.payload.length)
    (hroom : 37 ≤ layout.recordsEnd) (count i previous : Nat)
    (hi : i + count ≤ layout.restartCount) :
    checkRestarts layout.payload layout.recordsEnd (layout.recordsEnd - 16) count i previous =
      ofExcept (SSTable.checkRestarts layout count i previous) := by
  induction count generalizing i previous with
  | zero => rfl
  | succ count ih =>
    rw [checkRestarts, SSTable.checkRestarts]
    have hmod : i * 4 % 2 ^ 32 ≤ i * 4 := Nat.mod_le _ _
    rw [fixed32At_bind (by omega)]
    dsimp only [PrefixBlockLayout.restartOffset]
    refine require_and_bind fun hge => ?_
    rw [sub_bind hge, sub_bind (by omega)]
    refine require_and_bind fun hpos => ?_
    refine require_and_bind fun _ => ?_
    refine require_and_bind fun _ => ?_
    rw [fixed32At_bind (by omega)]
    exact require_bind fun _ => ih (i + 1) _ (by omega)

theorem parsePrefixBlockLayout_eq (payload : Bytes) :
    parsePrefixBlockLayout payload = ofExcept (SSTable.parsePrefixBlockLayout payload) := by
  unfold parsePrefixBlockLayout SSTable.parsePrefixBlockLayout
  refine require_and_bind fun hlen => ?_
  rw [fixed32At_bind (by omega), List.drop_zero]
  refine require_bind fun _ => ?_
  rw [fixed32At_bind (by omega), fixed64At_bind (by omega)]
  dsimp only
  refine require_bind fun hcounts => ?_
  have hcount := (of_decide_eq_true hcounts).2
  rw [sub_bind (by omega), fixed32At_bind (by omega)]
  refine require_bind fun harea => ?_
  have harea := (of_decide_eq_true harea).2.2
  rw [sub_bind (by omega), sub_bind (by omega)]
  refine require_bind fun hrecords => ?_
  have hrecords := of_decide_eq_true hrecords
  -- there is a record, so the records take at least the 21 bytes of one
  have hroom : 37 ≤ payload.length -
      (decodeFixed32 (payload.drop (payload.length - 4)) * 4 + 4) := by
    have hpos : 1 ≤ (payload.length -
        (decodeFixed32 (payload.drop (payload.length - 4)) * 4 + 4) - 16) / 21 :=
      (Nat.one_le_iff_ne_zero.mpr hcount).trans hrecords
    omega
  refine bind_eq_ofExcept (@checkRestarts_eq ⟨payload, _, _, _⟩ ?_ hroom _ 0 0 ?_) ?_
  · exact Nat.sub_add_cancel (by omega)
  · exact Nat.le_of_eq (Nat.zero_add _)
  · intro _ _
    rfl

/-- What the readers rely on after the layout was accepted: the restart area lies behind
the records, up to the end of the payload. -/
theorem parsePrefixBlockLayout_area {payload : Bytes}
    (h : SSTable.parsePrefixBlockLayout payload = .ok layout) : layout.payload = payload ∧
      layout.recordsEnd + (layout.restartCount * 4 + 4) = layout.payload.length := by
  rw [SSTable.parsePrefixBlockLayout, Parsing.bind_ok] at h
  obtain ⟨_, hlen, h⟩ := h
  obtain ⟨_, _, h⟩ := Parsing.bind_ok.mp h
  obtain ⟨_, harea, h⟩ := Parsing.bind_ok.mp h
  obtain ⟨_, _, h⟩ := Parsing.bind_ok.mp h
  obtain ⟨_, _, h⟩ := Parsing.bind_ok.mp h
  cases h
  have harea := (of_decide_eq_true (Parsing.require_ok harea)).2.2
  exact ⟨rfl, Nat.sub_add_cancel (by omega)⟩

section Layout

variable {layout : PrefixBlockLayout}
  (harea : layout.recordsEnd + (layout.restartCount * 4 + 4) = layout.payload.length)
include harea

theorem decodePrefixRecordAt_eq (ptr : Nat) (previousKey : Bytes) :
    decodePrefixRecordAt layout ptr previousKey =
      ofExcept (SSTable.decodePrefixRecordAt layout ptr previousKey) := by
  unfold decodePrefixRecordAt SSTable.decodePrefixRecordAt
  refine require_and_bind fun _ => ?_
  refine require_and_bind fun hle => ?_
  rw [sub_bind hle]
  refine require_bind fun hroom => ?_
  have hroom := of_decide_eq_true hroom
  have hitem : layout.payload[ptr + 12]? = some ((layout.payload.drop ptr).getD 12 0) := by
    have hin : ptr + 12 < layout.payload.length := by omega
    rw [List.getD_eq_getElem?_getD, List.getElem?_drop, List.getElem?_eq_getElem hin]
    rfl
  rw [fixed32At_bind (by omega), fixed32At_bind (by omega), fixed32At_bind (by omega),
    item_bind hitem, fixed64At_bind (by omega), sub_bind (by omega)]
  simp only [List.drop_drop]
  refine require_bind fun hdata => ?_
  have hdata := of_decide_eq_true hdata
  rw [slice_bind (by omega), slice_bind (by omega), slice_bind (by omega), List.drop_zero]
  by_cases hput : (layout.payload.drop ptr).getD 12 0 = 1
  · rw [if_pos hput, if_pos hput]
    rfl
  · rw [if_neg hput, if_neg hput]
    by_cases hdelete : (layout.payload.drop ptr).getD 12 0 = 2
    · rw [if_pos hdelete, if_pos hdelete]
      rfl
    · rw [if_neg hdelete, if_neg hdelete]
      rfl

theorem decodeRecords_eq (count ptr : Nat) (previousKey : Bytes) :
    decodeRecords layout count ptr previousKey =
      ofExcept (SSTable.decodeRecords layout count ptr previousKey) := by
  induction count generalizing ptr previousKey with
  | zero => rfl
  | succ count ih =>
    rw [decodeRecords, SSTable.decodeRecords]
    refine bind_eq_ofExcept (decodePrefixRecordAt_eq harea ptr previousKey) ?_
    rintro ⟨entry, next⟩ _
    refine bind_eq_ofExcept (ih next entry.key) ?_
    rintro ⟨entries, last⟩ _
    rfl

theorem fixed32At_restart {α : Type} {i : Nat} (hi : i ≤ layout.restartCount) (f : Nat → Read α) :
    (fixed32At layout.payload (layout.recordsEnd + i * 4 % 2 ^ 32) >>= f) =
      f (layout.restartOffset i) := by
  have hmod : i * 4 % 2 ^ 32 ≤ i * 4 := Nat.mod_le _ _
  exact fixed32At_bind (by omega) f

theorem restartKey_eq (i : Nat) :
    restartKey layout i = ofExcept (SSTable.restartKey layout i) := by
  unfold restartKey SSTable.restartKey
  refine require_bind fun hi => ?_
  rw [fixed32At_restart harea (Nat.le_of_lt (of_decide_eq_true hi))]
  refine bind_eq_ofExcept (decodePrefixRecordAt_eq harea _ []) ?_
  rintro ⟨entry, next⟩ _
  rfl

variable {left right ptr : Nat}

theorem restartSearch_eq (target : Bytes) {turns : Nat} (h : right - left ≤ turns) :
    restartSearch layout target (turns + 1) left right =
      ofExcept (SSTable.restartSearch layout target turns left right) := by
  induction turns generalizing left right with
  | zero =>
    rw [restartSearch, if_neg (by omega)]
    rfl
  | succ turns ih =>
    rw [restartSearch, SSTable.restartSearch]
    by_cases hlt : left < right
    · rw [if_pos hlt, if_pos hlt, sub_bind (Nat.le_of_lt hlt)]
      refine bind_eq_ofExcept (restartKey_eq harea _) ?_
      intro key _
      by_cases hle : key ≤ target
      · rw [if_pos hle, if_pos hle]
        exact ih (by omega)
      · rw [if_neg hle, if_neg hle]
        exact ih (by omega)
    · rw [if_neg hlt, if_neg hlt]
      rfl

omit harea in
theorem restartSearch_le {target : Bytes} {turns position : Nat} (hle : left ≤ right)
    (h : SSTable.restartSearch layout target turns left right = .ok position) :
    position ≤ right := by
  induction turns generalizing left right with
  | zero =>
    cases h
    exact hle
  | succ turns ih =>
    rw [SSTable.restartSearch] at h
    by_cases hlt : left < right
    · rw [if_pos hlt] at h
      obtain ⟨key, _, h⟩ := Parsing.bind_ok.mp h
      by_cases hkey : key ≤ target
      · rw [if_pos hkey] at h
        exact ih (by omega) h
      · rw [if_neg hkey] at h
        have := ih (by omega) h
        omega
    · rw [if_neg hlt] at h
      cases h
      exact hle

omit harea in
theorem decodePrefixRecordAt_lt {next : Nat} {previousKey : Bytes} {e : VersionedEntry}
    (h : SSTable.decodePrefixRecordAt layout ptr previousKey = .ok (e, next)) : ptr < next := by
  rw [SSTable.decodePrefixRecordAt, Parsing.bind_ok] at h
  obtain ⟨_, _, h⟩ := h
  obtain ⟨_, _, h⟩ := Parsing.bind_ok.mp h
  split at h
  · cases h
    omega
  · split at h
    · cases h
      omega
    · cases h

theorem scanRecords_eq (key : Bytes) (readSequence : Nat) {turns : Nat} (previousKey : Bytes)
    (h : layout.recordsEnd - ptr ≤ turns) :
    scanRecords layout key readSequence (turns + 1) ptr previousKey =
      ofExcept (SSTable.scanRecords layout key readSequence turns ptr previousKey) := by
  induction turns generalizing ptr previousKey with
  | zero =>
    rw [scanRecords, if_neg (by omega)]
    rfl
  | succ turns ih =>
    rw [scanRecords, SSTable.scanRecords]
    by_cases hlt : ptr < layout.recordsEnd
    · rw [if_pos hlt, if_pos hlt]
      refine bind_eq_ofExcept (decodePrefixRecordAt_eq harea ptr previousKey) ?_
      rintro ⟨entry, next⟩ hentry
      have hnext := decodePrefixRecordAt_lt hentry
      dsimp only
      by_cases hfound : entry.key = key ∧ entry.sequence ≤ readSequence
      · rw [if_pos hfound, if_pos hfound]
        rfl
      · rw [if_neg hfound, if_neg hfound]
        by_cases hbehind : key < entry.key
        · rw [if_pos hbehind, if_pos hbehind]
          rfl
        · rw [if_neg hbehind, if_neg hbehind]
          exact ih entry.key (by omega)
    · rw [if_neg hlt, if_neg hlt]
      rfl

end Layout

theorem decodeBlock_eq (block : Bytes) :
    decodeBlock block = ofExcept (SSTable.decodeBlock block) := by
  refine bind_eq_ofExcept (decodeBlockPayload_eq block) fun payload _ => ?_
  refine bind_eq_ofExcept (parsePrefixBlockLayout_eq payload) fun layout hlayout => ?_
  have harea := (parsePrefixBlockLayout_area hlayout).2
  refine bind_eq_ofExcept (decodeRecords_eq harea _ _ _) ?_
  rintro ⟨entries, ptr⟩ _
  exact require_bind fun _ => rfl

theorem getFromBlock_eq (block key : Bytes) (readSequence : Nat) :
    getFromBlock block key readSequence =
      ofExcept (SSTable.getFromBlock block key readSequence) := by
  refine bind_eq_ofExcept (decodeBlockPayload_eq block) fun payload _ => ?_
  refine bind_eq_ofExcept (parsePrefixBlockLayout_eq payload) fun layout hlayout => ?_
  obtain ⟨hpayload, harea⟩ := parsePrefixBlockLayout_area hlayout
  refine bind_eq_ofExcept (restartSearch_eq harea _ (by omega)) fun left hleft => ?_
  have hle := restartSearch_le (Nat.zero_le _) hleft
  have hindex : (if left = 0 then .value 0 else sub left 1 : Read Nat) =
      .value (if left = 0 then 0 else left - 1) := by
    split
    · rfl
    · rw [sub, if_pos (by omega)]
  rw [hindex, value_bind, fixed32At_restart harea (by split <;> omega)]
  rw [hpayload] at harea
  exact scanRecords_eq (hpayload.symm ▸ harea) key readSequence [] (by omega)

/-! ## Index and filter -/

theorem readExactAt_eq (file : Bytes) (offset size : Nat) :
    readExactAt file offset size = ofExcept (SSTable.readExactAt file offset size) := by
  unfold readExactAt SSTable.readExactAt
  refine require_and_bind fun hoffset => ?_
  by_cases hsize : 0 < size
  · have hfirst : decide (0 < size → size - 1 ≤ maxOffset - offset) =
        decide (size - 1 ≤ maxOffset - offset) :=
      decide_eq_decide.mpr ⟨fun h => h hsize, fun h _ => h⟩
    have hsecond : decide (size = 0 ∨ offset + size ≤ file.length) =
        decide (offset + size ≤ file.length) :=
      decide_eq_decide.mpr (or_iff_right (Nat.ne_of_gt hsize))
    rw [if_pos hsize, sub_bind hsize, sub_bind hoffset, hfirst, hsecond]
    refine require_bind fun _ => require_bind fun hin => ?_
    rw [slice, if_pos (of_decide_eq_true hin)]
    rfl
  · obtain rfl : size = 0 := by omega
    rw [if_neg hsize, decide_eq_true fun h => absurd h (Nat.lt_irrefl 0), List.take_zero]
    rfl

theorem readExactAt_length {bytes : Bytes} {size : Nat}
    (h : SSTable.readExactAt file offset size = .ok bytes) : bytes.length = size := by
  rw [SSTable.readExactAt, Parsing.bind_ok] at h
  obtain ⟨_, _, h⟩ := h
  obtain ⟨_, hin, h⟩ := Parsing.bind_ok.mp h
  cases h
  have hin := of_decide_eq_true (Parsing.require_ok hin)
  rw [List.length_take, List.length_drop]
  omega

theorem readIndexEntry_follows (indexOffset : Nat) (indexBlock : Bytes) (i : Nat) {ptr : Nat}
    (hptr : ptr ≤ indexBlock.length) :
    Follows indexBlock ptr (SSTable.readIndexEntry indexOffset i (indexBlock.drop ptr))
      (readIndexEntry indexOffset indexBlock i ptr) := by
  unfold readIndexEntry SSTable.readIndexEntry
  rw [sub_bind hptr]
  simp only [List.drop_drop, List.length_drop]
  refine Follows.require fun hfour => ?_
  have hfour := of_decide_eq_true hfour
  rw [fixed32At_bind (by omega), sub_bind (by omega)]
  refine Follows.require fun hkey => ?_
  have hkey := of_decide_eq_true hkey
  rw [slice_bind (by omega), fixed64At_bind (by omega), fixed64At_bind (by omega)]
  refine Follows.require_and fun hle => ?_
  rw [sub_bind hle]
  refine Follows.require fun _ => ?_
  exact Follows.value _ (by omega) (by omega)

theorem decodeIndex_eq (indexOffset : Nat) (indexBlock : Bytes) :
    decodeIndex indexOffset indexBlock = ofExcept (SSTable.decodeIndex indexOffset indexBlock) := by
  unfold decodeIndex SSTable.decodeIndex
  refine require_bind fun hlen => ?_
  have hlen := of_decide_eq_true hlen
  rw [fixed64At_bind (by omega), List.drop_zero]
  have hfollows := Follows.times
    (fun i ptr hptr => readIndexEntry_follows indexOffset indexBlock i hptr)
    (decodeFixed64 indexBlock) 0 hlen
  rcases hfollows with ⟨e, hx, hy⟩ | ⟨index, ptr, _, hptr, hx, hy⟩
  · rw [hx, hy]
    rfl
  · rw [hx, hy]
    have hend : decide (ptr = indexBlock.length) = decide (indexBlock.drop ptr = []) := by
      refine decide_eq_decide.mpr ?_
      rw [List.drop_eq_nil_iff]
      omega
    show (require (decide (ptr = indexBlock.length)) _ >>= fun _ => _) = _
    rw [hend]
    exact require_bind fun _ => rfl

theorem decodeFooter_eq {footer : Bytes} (h : footer.length = kFooterSize) :
    decodeFooter footer = .value (SSTable.decodeFooter footer) := by
  unfold kFooterSize at h
  unfold decodeFooter
  rw [fixed64At_bind (by omega), fixed64At_bind (by omega), fixed64At_bind (by omega),
    fixed64At_bind (by omega), fixed64At_bind (by omega)]
  rfl

theorem checkFooter_eq (dataEnd : Nat) (footer : Footer) :
    checkFooter dataEnd footer = ofExcept (SSTable.checkFooter dataEnd footer) := by
  unfold checkFooter SSTable.checkFooter
  refine require_bind fun _ => ?_
  by_cases hindex : footer.indexOffset ≤ footer.filterOffset
  · rw [decide_eq_true hindex, sub_bind hindex]
    by_cases hsize : footer.indexSize = footer.filterOffset - footer.indexOffset
    · by_cases hfilter : footer.filterOffset ≤ dataEnd
      · rw [decide_eq_true hsize, decide_eq_true hfilter, sub_bind hfilter]
        simp only [hindex, hsize, hfilter, true_and]
        by_cases hlast : footer.filterSize = dataEnd - footer.filterOffset
        · simp only [hlast]
          rfl
        · simp only [hlast]
          rfl
      · simp only [hfilter]
        rw [decide_eq_true hsize]
        simp only [false_and, and_false]
        rfl
    · simp only [hsize, false_and, and_false]
      rfl
  · simp only [hindex, false_and]
    rfl

def FilterOk (filter : BloomFilter) : Prop := filter.bits.length = (filter.bitCount + 7) / 8

theorem decodeFilter_eq (data : Bytes) : decodeFilter data = ofExcept (BloomFilter.decode data) := by
  unfold decodeFilter BloomFilter.decode
  by_cases hlen : 8 ≤ data.length
  · rw [decide_eq_true hlen, if_neg (by omega)]
    show (fixed32At data 0 >>= _) = _
    rw [fixed32At_bind (by omega), fixed32At_bind (by omega), List.drop_zero]
    dsimp only
    by_cases hok : data.length = (decodeFixed32 data + 7) / 8 + 8 ∧ decodeFixed32 data ≠ 0 ∧
        decodeFixed32 (data.drop 4) ≠ 0 ∧ decodeFixed32 (data.drop 4) ≤ 30
    · have hbad : ¬ (data.length ≠ (decodeFixed32 data + 7) / 8 + 8 ∨ decodeFixed32 data = 0 ∨
          decodeFixed32 (data.drop 4) = 0 ∨ decodeFixed32 (data.drop 4) > 30) := by
        omega
      rw [decide_eq_true hok, if_neg hbad]
      show (sub data.length 8 >>= _) = _
      rw [sub_bind hlen, slice_bind (by omega), List.take_of_length_le (by rw [List.length_drop])]
      rfl
    · have hbad : data.length ≠ (decodeFixed32 data + 7) / 8 + 8 ∨ decodeFixed32 data = 0 ∨
          decodeFixed32 (data.drop 4) = 0 ∨ decodeFixed32 (data.drop 4) > 30 := by
        omega
      rw [decide_eq_false hok, if_pos hbad]
      rfl
  · rw [decide_eq_false hlen, if_pos (by omega)]
    rfl

theorem decodeFilter_ok {data : Bytes} {filter : BloomFilter}
    (h : BloomFilter.decode data = .ok filter) : FilterOk filter := by
  unfold BloomFilter.decode at h
  split at h
  · cases h
  · dsimp only at h
    split at h
    · cases h
    · rename_i hgood
      cases h
      simp only [not_or, not_not] at hgood
      show (data.drop 8).length = (decodeFixed32 data + 7) / 8
      rw [List.length_drop]
      omega

theorem probeAll_eq {filter : BloomFilter} (hok : FilterOk filter) (hbits : filter.bitCount ≠ 0)
    (key : Bytes) (is : List Nat) : probeAll filter key is = .value (is.all fun i =>
      BloomFilter.testBit filter.bits (BloomFilter.probe filter.bitCount key i)) := by
  induction is with
  | nil => rfl
  | cons i is ih =>
    have hprobe : BloomFilter.probe filter.bitCount key i < filter.bitCount :=
      Nat.mod_lt _ (Nat.pos_of_ne_zero hbits)
    have hin : BloomFilter.probe filter.bitCount key i / 8 < filter.bits.length := by
      rw [hok]
      omega
    have hget := List.getElem?_eq_getElem hin
    rw [probeAll]
    rw [item_bind hget, ih, List.all_cons]
    have htest : BloomFilter.testBit filter.bits (BloomFilter.probe filter.bitCount key i) =
        (filter.bits[BloomFilter.probe filter.bitCount key i / 8]).val.testBit
          (BloomFilter.probe filter.bitCount key i % 8) := by
      rw [BloomFilter.testBit, List.getD_eq_getElem?_getD, hget]
      rfl
    rw [htest]
    cases (filter.bits[BloomFilter.probe filter.bitCount key i / 8]).val.testBit
      (BloomFilter.probe filter.bitCount key i % 8) with
    | true => rfl
    | false => rfl

theorem mayContain_eq {filter : BloomFilter} (hok : FilterOk filter) (key : Bytes) :
    mayContain filter key = .value (filter.mayContain key) := by
  unfold mayContain BloomFilter.mayContain
  split
  · rfl
  · rename_i hne
    exact probeAll_eq hok (fun hz => hne (Or.inl hz)) key _

theorem openFile_eq (file : Bytes) : openFile file = ofExcept (SSTable.openFile file) := by
  unfold openFile SSTable.openFile
  refine require_bind fun hlen => ?_
  rw [sub_bind (of_decide_eq_true hlen)]
  refine bind_eq_ofExcept (readExactAt_eq file _ _) fun footerBytes hfooter => ?_
  rw [decodeFooter_eq (readExactAt_length hfooter), value_bind]
  refine bind_eq_ofExcept (checkFooter_eq _ _) fun _ _ => ?_
  refine bind_eq_ofExcept (readExactAt_eq file _ _) fun indexBlock _ => ?_
  refine bind_eq_ofExcept (decodeIndex_eq _ indexBlock) fun index _ => ?_
  refine bind_eq_ofExcept (readExactAt_eq file _ _) fun filterBlock _ => ?_
  refine bind_eq_ofExcept (decodeFilter_eq filterBlock) fun filter _ => ?_
  rfl

theorem openFile_filter (h : SSTable.openFile file = .ok t) : FilterOk t.filter := by
  rw [SSTable.openFile, Parsing.bind_ok] at h
  obtain ⟨_, _, h⟩ := h
  obtain ⟨_, _, h⟩ := Parsing.bind_ok.mp h
  obtain ⟨_, _, h⟩ := Parsing.bind_ok.mp h
  obtain ⟨_, _, h⟩ := Parsing.bind_ok.mp h
  obtain ⟨_, _, h⟩ := Parsing.bind_ok.mp h
  obtain ⟨_, _, h⟩ := Parsing.bind_ok.mp h
  obtain ⟨_, hfilter, h⟩ := Parsing.bind_ok.mp h
  cases h
  exact decodeFilter_ok hfilter

/-! ## Reading an open table -/

theorem lowerBoundLoop_eq (index : List IndexEntry) (target : Bytes) {first len : Nat}
    (hlen : len ≤ turns) (hin : first + len ≤ index.length) :
    lowerBoundLoop index target (turns + 1) first len =
      .value (TableFile.lowerBoundLoop index target turns first len) ∧
    TableFile.lowerBoundLoop index target turns first len ≤ index.length := by
  induction turns generalizing first len with
  | zero =>
    obtain rfl : len = 0 := by omega
    exact ⟨rfl, by rw [TableFile.lowerBoundLoop]; omega⟩
  | succ turns ih =>
    rw [lowerBoundLoop, TableFile.lowerBoundLoop]
    by_cases hzero : len = 0
    · rw [if_pos hzero, if_pos hzero]
      exact ⟨rfl, by omega⟩
    · rw [if_neg hzero, if_neg hzero]
      have hmid : first + len / 2 < index.length := by omega
      have hget := List.getElem?_eq_getElem hmid
      have hkey : TableFile.lastKeyAt index (first + len / 2) =
          (index[first + len / 2]).lastInternalKey := by
        rw [TableFile.lastKeyAt, hget]
        rfl
      dsimp only
      rw [item_bind hget, hkey]
      by_cases hlt : (index[first + len / 2]).lastInternalKey < target
      · rw [if_pos hlt, if_pos hlt, sub_bind (by omega), sub_bind (by omega)]
        exact ih (by omega) (by omega)
      · rw [if_neg hlt, if_neg hlt]
        exact ih (by omega) (by omega)

theorem lowerBound_eq (index : List IndexEntry) (target : Bytes) :
    lowerBound index target = .value (TableFile.lowerBound index target) ∧
      TableFile.lowerBound index target ≤ index.length :=
  lowerBoundLoop_eq index target (Nat.le_refl _) (Nat.le_of_eq (Nat.zero_add _))

theorem readBlock_eq (t : LoadedTable) (entry : IndexEntry) :
    readBlock t entry = ofExcept (t.readBlock entry) :=
  bind_eq_ofExcept (readExactAt_eq _ _ _) fun block _ => decodeBlock_eq block

theorem readBlocks_eq (t : LoadedTable) (index : List IndexEntry) :
    readBlocks t index = ofExcept (t.readBlocks index) := by
  induction index with
  | nil => rfl
  | cons entry index ih =>
    refine bind_eq_ofExcept (readBlock_eq t entry) fun block _ => ?_
    exact bind_eq_ofExcept ih fun rest _ => rfl

theorem get_eq (hfilter : FilterOk t.filter) (key : Bytes) (readSequence : Nat) :
    get t key readSequence = ofExcept (t.get key readSequence) := by
  obtain ⟨hbound, hle⟩ := lowerBound_eq t.index (encodeInternalKey key readSequence)
  rw [get, LoadedTable.get_eq, mayContain_eq hfilter, value_bind]
  by_cases hpossible : t.filter.mayContain key = false
  · rw [if_pos hpossible, if_pos hpossible]
    rfl
  · rw [if_neg hpossible, if_neg hpossible, hbound, value_bind, LoadedTable.searchBlock,
      LoadedTable.searchBlockFrom]
    by_cases hend : TableFile.lowerBound t.index (encodeInternalKey key readSequence) =
        t.index.length
    · rw [if_pos hend, List.getElem?_eq_none (by omega)]
      rfl
    · have hin := List.getElem?_eq_getElem (Nat.lt_of_le_of_ne hle hend)
      rw [if_neg hend, item_bind hin, hin]
      refine bind_eq_ofExcept (readExactAt_eq _ _ _) fun block _ => ?_
      refine bind_eq_ofExcept (getFromBlock_eq block key readSequence) fun found _ => ?_
      cases found with
      | none => rfl
      | some e => rfl

/-! ## Iterators stay inside -/

/-- An iterator of an open table: what is loaded is the block it stands in. -/
structure Placed (t : LoadedTable) (it : SSTableIterator) : Prop where
  table : it.table = t.table
  block : it.loadedBlock = true → it.table.blocks[it.blockIndex]? = some it.blockEntries
  entry : it.loadedBlock = true → it.entryIndex < it.blockEntries.length

theorem placed_unloaded (h : it.table = t.table) (hl : it.loadedBlock = false) : Placed t it := by
  have hno : ¬ it.loadedBlock = true := by simp [hl]
  exact ⟨h, fun hc => absurd hc hno, fun hc => absurd hc hno⟩

theorem placed_restartAt (h : it.table = t.table) (i : Nat) :
    Placed t (it.restartAt i) := placed_unloaded h rfl

theorem Placed.advanceRaw (h : Placed t it) (hl : it.loadedBlock = true) :
    Placed t it.advanceRaw ∧ it.advanceRaw.remaining.length < it.remaining.length := by
  have hlt := h.entry hl
  have hrem : it.remaining = it.blockEntries.drop it.entryIndex ++
      (it.table.blocks.drop (it.blockIndex + 1)).flatten := by
    rw [SSTableIterator.remaining, if_pos hl]
  rw [hrem, SSTableIterator.advanceRaw, if_neg (not_not.mpr hl)]
  split
  · refine ⟨placed_unloaded h.table rfl, ?_⟩
    rw [SSTableIterator.remaining, if_neg (by simp)]
    simp only [List.length_append, List.length_drop]
    omega
  · rename_i hmore
    refine ⟨⟨h.table, h.block, fun _ => Nat.lt_of_not_le hmore⟩, ?_⟩
    rw [SSTableIterator.remaining, if_pos hl]
    simp only [List.length_append, List.length_drop]
    omega

theorem table_block (t : LoadedTable) {entry : IndexEntry} {es : List VersionedEntry}
    (hi : t.index[i]? = some entry) (hread : t.readBlock entry = .ok es) :
    t.table.blocks[i]? = some es := by
  show (t.index.map _)[i]? = some es
  rw [List.getElem?_map, hi, Option.map_some, hread]
  rfl

theorem reader_get {entry : IndexEntry} (hi : t.index[i]? = some entry) (table : TableFile) :
    t.reader table i = t.readBlock entry := by
  rw [LoadedTable.reader, hi]

/-- Loading moves past empty blocks only, so nothing that is ahead gets lost. -/
theorem ensureBlockLoaded_eq (h : Placed t it) (hturns : t.index.length - it.blockIndex < turns) :
    ∃ loaded out, it.ensureBlockLoaded t.reader turns = (loaded, out) ∧
      ensureBlockLoaded t turns it = .value (loaded, out) ∧ Placed t out ∧
      out.loadedBlock = loaded ∧ out.remaining = it.remaining := by
  induction turns generalizing it with
  | zero => omega
  | succ turns ih =>
    have hindex : it.table.index = t.index := by rw [h.table]; rfl
    rw [ensureBlockLoaded, SSTableIterator.ensureBlockLoaded, hindex]
    by_cases hl : it.loadedBlock = true
    · rw [if_pos hl, if_pos hl]
      exact ⟨true, it, rfl, rfl, h, hl, rfl⟩
    · rw [if_neg hl, if_neg hl]
      have hlf : it.loadedBlock = false := by simpa using hl
      by_cases hend : t.index.length ≤ it.blockIndex
      · rw [if_pos hend, if_pos hend]
        exact ⟨false, it, rfl, rfl, h, hlf, rfl⟩
      · have hget := List.getElem?_eq_getElem (Nat.lt_of_not_le hend)
        rw [if_neg hend, if_neg hend, item_bind hget, readBlock_eq, reader_get hget]
        cases hread : t.readBlock t.index[it.blockIndex] with
        | error e =>
          refine ⟨false, { it with blockEntries := [], status := e }, rfl, rfl,
            placed_unloaded h.table hlf, hlf, ?_⟩
          simp only [SSTableIterator.remaining, hlf]
          rfl
        | ok es =>
          have hblock : it.table.blocks[it.blockIndex]? = some es := by
            rw [h.table]
            exact table_block t hget hread
          have hrem : it.remaining =
              es ++ (it.table.blocks.drop (it.blockIndex + 1)).flatten := by
            rw [SSTableIterator.remaining, if_neg hl,
              SSTableIterator.drop_of_getElem? hblock, List.flatten_cons]
          dsimp only [Access.ofExcept]
          by_cases hnil : es = []
          · rw [if_pos hnil, if_pos hnil]
            subst hnil
            have hnext : Placed t { it with
                blockEntries := [], status := .ok, entryIndex := 0,
                blockIndex := it.blockIndex + 1 } := placed_unloaded h.table hlf
            obtain ⟨loaded, out, hmodel, heq, hplaced, hload, hout⟩ :=
              ih hnext (show t.index.length - (it.blockIndex + 1) < turns by omega)
            refine ⟨loaded, out, hmodel, heq, hplaced, hload, hout.trans ?_⟩
            rw [hrem, SSTableIterator.remaining, if_neg hl, List.nil_append]
          · rw [if_neg hnil, if_neg hnil]
            refine ⟨true, _, rfl, rfl, ⟨h.table, fun _ => hblock,
              fun _ => List.length_pos_of_ne_nil hnil⟩, rfl, ?_⟩
            rw [hrem, SSTableIterator.remaining, if_pos rfl, List.drop_zero]

theorem skipUntilVisible_eq (target : Bytes) (h : Placed t it)
    (hturns : it.remaining.length < turns) :
    skipUntilVisible t target turns it = .value (it.skipUntilVisible t.reader target turns) ∧
      Placed t (it.skipUntilVisible t.reader target turns) := by
  induction turns generalizing it with
  | zero => omega
  | succ turns ih =>
    have hindex : it.table.index = t.index := by rw [h.table]; rfl
    obtain ⟨loaded, out, hmodel, heq, hplaced, hload, hrem⟩ :=
      ensureBlockLoaded_eq h (show t.index.length - it.blockIndex < t.index.length + 1 by omega)
    rw [skipUntilVisible, SSTableIterator.skipUntilVisible, heq, value_bind, hindex, hmodel]
    cases loaded with
    | false => exact ⟨rfl, hplaced⟩
    | true =>
      obtain ⟨hnext, hless⟩ := hplaced.advanceRaw hload
      rw [hrem] at hless
      have hlast := ih hnext (by omega)
      have hget := List.getElem?_eq_getElem (hplaced.entry hload)
      dsimp only
      rw [if_pos rfl, item_bind hget, hget]
      dsimp only
      split
      · exact hlast
      · split
        · exact hlast
        · exact ⟨rfl, hplaced⟩

theorem valid_eq (it : SSTableIterator) : valid it = it.current?.isSome := by
  rw [valid, SSTableIterator.current?]
  by_cases hcond : it.status = .ok ∧ it.loadedBlock = true
  · rw [if_pos hcond]
    by_cases hin : it.entryIndex < it.blockEntries.length
    · rw [List.getElem?_eq_getElem hin, decide_eq_true ⟨hcond.1, hcond.2, hin⟩]
      rfl
    · rw [List.getElem?_eq_none (Nat.le_of_not_lt hin), decide_eq_false fun h => hin h.2.2]
      rfl
  · rw [if_neg hcond, decide_eq_false fun h => hcond ⟨h.1, h.2.1⟩]
    rfl

theorem current_eq (it : SSTableIterator) : current it = .value it.current? := by
  unfold current
  split
  · rename_i hvalid
    obtain ⟨hstatus, hload, hin⟩ := of_decide_eq_true hvalid
    have hget := List.getElem?_eq_getElem hin
    rw [item_bind hget, SSTableIterator.current?, if_pos ⟨hstatus, hload⟩, hget]
    rfl
  · rename_i hvalid
    rw [valid_eq] at hvalid
    rw [Option.not_isSome_iff_eq_none.mp hvalid]
    rfl

def moved (read : TableFile.Reader) (it : SSTableIterator) : IteratorCall → SSTableIterator
  | .seekToFirst => it.seekToFirst read
  | .seek target => it.seek read target
  | .next => it.next read

theorem call_eq (h : Placed t it) (c : IteratorCall) :
    call t it c = .value (moved t.reader it c) ∧ Placed t (moved t.reader it c) := by
  have hindex : it.table.index = t.index := by rw [h.table]; rfl
  have hstart : ∀ i, (it.restartAt i).remaining.length < it.fuel := by
    intro i
    exact Nat.lt_succ_of_le (SSTableIterator.remaining_length_le (placed_restartAt h.table i).block)
  cases c with
  | seekToFirst => exact skipUntilVisible_eq [] (placed_restartAt h.table 0) (hstart 0)
  | seek target =>
    rw [call, (lowerBound_eq t.index _).1, value_bind, moved, SSTableIterator.seek, hindex]
    exact skipUntilVisible_eq target (placed_restartAt h.table _) (hstart _)
  | next =>
    rw [call, moved, SSTableIterator.next, ← valid_eq]
    split
    · rename_i hvalid
      obtain ⟨hnext, hless⟩ := h.advanceRaw (of_decide_eq_true hvalid).2.1
      have hle := SSTableIterator.remaining_length_le h.block
      refine skipUntilVisible_eq [] hnext ?_
      show it.advanceRaw.remaining.length < it.table.entries.length + 1
      omega
    · exact ⟨rfl, h⟩

theorem calls_eq (cs : List IteratorCall) (h : Placed t it) :
    calls t cs it = .value (cs.foldl (moved t.reader) it) := by
  induction cs generalizing it with
  | nil => rfl
  | cons c cs ih =>
    obtain ⟨hcall, hplaced⟩ := call_eq h c
    rw [calls, hcall, value_bind, current_eq, value_bind]
    exact ih hplaced

/-- No bytes make a table reader fault: every access stays inside of its buffer, no size
falls below zero, and every loop ends. -/
theorem readers_safe (file : Bytes) :
    (openFile file).Safe ∧
    (∀ block, (decodeBlock block).Safe ∧
      ∀ key readSequence, (getFromBlock block key readSequence).Safe) ∧
    (∀ data, (decodeFilter data).Safe ∧
      ∀ filter, decodeFilter data = .value filter → ∀ key, (mayContain filter key).Safe) ∧
    ∀ t, openFile file = .value t →
      (∀ key readSequence, (get t key readSequence).Safe) ∧
      (∀ entry, (readBlock t entry).Safe) ∧ (readBlocks t t.index).Safe ∧
      ∀ readSequence cs, (calls t cs (t.newIterator readSequence)).Safe := by
  have hvalue : ∀ {α : Type} {x : Read α} {a : α}, x = .value a → x.Safe := by
    rintro α x a rfl f hf
    cases hf
  have hmodel : ∀ {α : Type} {x : Except Status α} {a : α},
      ofExcept x = .value a → x = .ok a := by
    intro α x a hx
    cases x with
    | ok b =>
      cases hx
      rfl
    | error e => cases hx
  refine ⟨?_, ?_, ?_, ?_⟩
  · rw [openFile_eq]
    exact ofExcept_safe _
  · intro block
    refine ⟨?_, fun key readSequence => ?_⟩
    · rw [decodeBlock_eq]
      exact ofExcept_safe _
    · rw [getFromBlock_eq]
      exact ofExcept_safe _
  · intro data
    refine ⟨?_, fun filter hfilter key => ?_⟩
    · rw [decodeFilter_eq]
      exact ofExcept_safe _
    · rw [decodeFilter_eq] at hfilter
      exact hvalue (mayContain_eq (decodeFilter_ok (hmodel hfilter)) key)
  · intro t ht
    rw [openFile_eq] at ht
    have hfilter := openFile_filter (hmodel ht)
    refine ⟨fun key readSequence => ?_, fun entry => ?_, ?_, fun readSequence cs => ?_⟩
    · rw [get_eq hfilter]
      exact ofExcept_safe _
    · rw [readBlock_eq]
      exact ofExcept_safe _
    · rw [readBlocks_eq]
      exact ofExcept_safe _
    · have hnew : Placed t (t.newIterator readSequence) := placed_unloaded rfl rfl
      exact hvalue (calls_eq cs hnew)

end KvMem.CheckedTable
