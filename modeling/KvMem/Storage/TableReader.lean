import KvMem.Storage.BlockCache
import KvMem.Storage.BlockFormat
import KvMem.Storage.InternalIterator

/-! # Reading table files

The reader opens a file by its footer, loads index and filter, and reads data blocks
when it needs them. What `CreateFromEntries` wrote is read back: as a whole, key by
key, and by an iterator.
-/

namespace KvMem

open Parsing Versions

def maxOffset : Nat := 2 ^ 63 - 1

/-- A table that is open: the file and what `LoadIndex` read of it. -/
structure LoadedTable where
  file : Bytes
  index : List IndexEntry
  filter : BloomFilter
  deriving DecidableEq, Repr

namespace SSTable

def kFooterSize : Nat := 40

/-! ## Opening -/

def readExactAt (file : Bytes) (offset size : Nat) : Except Status Bytes := do
  require (offset ≤ maxOffset ∧ (0 < size → size - 1 ≤ maxOffset - offset))
    (.corruption "SSTable read range is too large")
  require (size = 0 ∨ offset + size ≤ file.length) (.corruption "incomplete SSTable read")
  return (file.drop offset).take size

def readIndexEntry (indexOffset _ : Nat) (input : Bytes) : Except Status (IndexEntry × Bytes) := do
  require (4 ≤ input.length) (.corruption "invalid SSTable index key size")
  let keySize := decodeFixed32 input
  let rest := input.drop 4
  require (keySize + 16 ≤ rest.length) (.corruption "invalid SSTable index entry")
  let lastInternalKey := rest.take keySize
  let rest := rest.drop keySize
  let blockOffset := decodeFixed64 rest
  let blockSize := decodeFixed64 (rest.drop 8)
  require (blockOffset ≤ indexOffset ∧ blockSize ≤ indexOffset - blockOffset)
    (.corruption "invalid SSTable data block range")
  return (⟨lastInternalKey, blockOffset, blockSize⟩, rest.drop 16)

def decodeIndex (indexOffset : Nat) (indexBlock : Bytes) : Except Status (List IndexEntry) := do
  require (8 ≤ indexBlock.length) (.corruption "invalid SSTable index")
  let (index, rest) ← times (readIndexEntry indexOffset) (decodeFixed64 indexBlock) 0
    (indexBlock.drop 8)
  require (rest = []) (.corruption "trailing SSTable index bytes")
  return index

structure Footer where
  indexOffset : Nat
  indexSize : Nat
  filterOffset : Nat
  filterSize : Nat
  magic : Nat
  deriving DecidableEq, Repr

def decodeFooter (footer : Bytes) : Footer :=
  ⟨decodeFixed64 footer, decodeFixed64 (footer.drop 8), decodeFixed64 (footer.drop 16),
    decodeFixed64 (footer.drop 24), decodeFixed64 (footer.drop 32)⟩

def checkFooter (dataEnd : Nat) (footer : Footer) : Except Status Unit := do
  require (footer.magic = kSSTableMagic) (.corruption "invalid SSTable magic")
  require (footer.indexOffset ≤ footer.filterOffset ∧
      footer.indexSize = footer.filterOffset - footer.indexOffset ∧
      footer.filterOffset ≤ dataEnd ∧ footer.filterSize = dataEnd - footer.filterOffset)
    (.corruption "invalid SSTable footer")

/-- `Open` and `LoadIndex`, on a file with this content. -/
def openFile (file : Bytes) : Except Status LoadedTable := do
  require (kFooterSize ≤ file.length) (.corruption "SSTable too small")
  let footerBytes ← readExactAt file (file.length - kFooterSize) kFooterSize
  let footer := decodeFooter footerBytes
  checkFooter (file.length - kFooterSize) footer
  let indexBlock ← readExactAt file footer.indexOffset footer.indexSize
  let index ← decodeIndex footer.indexOffset indexBlock
  let filterBlock ← readExactAt file footer.filterOffset footer.filterSize
  let filter ← BloomFilter.decode filterBlock
  return ⟨file, index, filter⟩

/-- The file `CreateFromEntries` leaves behind. No file grows beyond the largest
offset. -/
def createFile (entries : List VersionedEntry) (blockSize bloomBitsPerKey : Nat) :
    Except Status Bytes :=
  match checkCreate entries bloomBitsPerKey with
  | .ok =>
    let file := fileBytes (tableOf entries blockSize bloomBitsPerKey)
    if file.length ≤ maxOffset then .ok file
    else .error (.ioError "failed to flush SSTable temp file")
  | e => .error e

end SSTable

namespace LoadedTable

/-! ## Reading -/

def readRawBlock (t : LoadedTable) (item : IndexEntry) : Except Status Bytes :=
  SSTable.readExactAt t.file item.blockOffset item.blockSize

def readBlock (t : LoadedTable) (item : IndexEntry) : Except Status (List VersionedEntry) := do
  let block ← t.readRawBlock item
  SSTable.decodeBlock block

def readBlocks (t : LoadedTable) : List IndexEntry → Except Status (List VersionedEntry)
  | [] => .ok []
  | item :: items => do
      let block ← t.readBlock item
      let rest ← readBlocks t items
      return block ++ rest

def entries (t : LoadedTable) : Except Status (List VersionedEntry) := t.readBlocks t.index

/-- What `Get` returns for the entry it found: the value, or none for a tombstone, and
the sequence number. -/
def answer (e : VersionedEntry) : Option Bytes × Nat :=
  (if e.deleted then none else some e.value, e.sequence)

/-- `Get` once a block is chosen; `raw` is what `ReadRawBlock` gives. -/
def getAt (raw : IndexEntry → Except Status Bytes) (item : IndexEntry) (key : Bytes)
    (readSequence : Nat) : Except Status (Option Bytes × Nat) := do
  let block ← raw item
  let found ← SSTable.getFromBlock block key readSequence
  match found with
  | none => .error (.notFound "key not found")
  | some e => return answer e

def searchBlockFrom (raw : IndexEntry → Except Status Bytes) (t : LoadedTable) (key : Bytes)
    (readSequence : Nat) : Except Status (Option Bytes × Nat) :=
  match t.index[TableFile.lowerBound t.index (encodeInternalKey key readSequence)]? with
  | none => .error (.notFound "key not found")
  | some item => getAt raw item key readSequence

def getFrom (raw : IndexEntry → Except Status Bytes) (t : LoadedTable) (key : Bytes)
    (readSequence : Nat) : Except Status (Option Bytes × Nat) :=
  if t.filter.mayContain key = false then .error (.notFound "key not found")
  else t.searchBlockFrom raw key readSequence

def searchBlock (t : LoadedTable) (key : Bytes) (readSequence : Nat) :
    Except Status (Option Bytes × Nat) :=
  t.searchBlockFrom t.readRawBlock key readSequence

def get (t : LoadedTable) (key : Bytes) (readSequence : Nat) : Except Status (Option Bytes × Nat) :=
  t.getFrom t.readRawBlock key readSequence

def reader (t : LoadedTable) : TableFile.Reader := fun _ i =>
  match t.index[i]? with
  | none => .ok []
  | some item => t.readBlock item

/-- The blocks of an open table as far as they can be read. -/
def table (t : LoadedTable) : TableFile :=
  ⟨t.index.map fun item => ((t.readBlock item).toOption).getD [], t.index, t.filter⟩

def newIterator (t : LoadedTable) (readSequence : Nat) : SSTableIterator :=
  SSTableIterator.new t.table readSequence

theorem get_eq (t : LoadedTable) (key : Bytes) (readSequence : Nat) :
    t.get key readSequence =
      if t.filter.mayContain key = false then .error (.notFound "key not found")
      else t.searchBlock key readSequence := rfl

theorem getFrom_fails {P : Status → Prop} {raw : IndexEntry → Except Status Bytes} {t : LoadedTable}
    (h : ∀ item, raw item = t.readRawBlock item ∨ ∃ e, P e ∧ raw item = .error e) (key : Bytes)
    (readSequence : Nat) :
    t.getFrom raw key readSequence = t.get key readSequence ∨
      ∃ e, P e ∧ t.getFrom raw key readSequence = .error e := by
  unfold get getFrom searchBlockFrom
  split
  · exact Or.inl rfl
  · split
    · exact Or.inl rfl
    · rename_i item _
      rcases h item with heq | ⟨e, he, herr⟩
      · rw [getAt, getAt, heq]
        exact Or.inl rfl
      · rw [getAt, getAt, herr]
        exact Or.inr ⟨e, he, rfl⟩

theorem readBlock_fails (t : LoadedTable) (item : IndexEntry) :
    Fails Status.IsCorruption (t.readBlock item) :=
  ((fails_require _ ⟨_, rfl⟩).bind fun _ => (fails_require _ ⟨_, rfl⟩).bind fun _ => fails_ok _).bind
    SSTable.decodeBlock_fails

end LoadedTable

namespace SSTableIterator

/-- The entries an iterator stands on while it is valid, up to `steps` of them. -/
def walk (read : TableFile.Reader) : Nat → SSTableIterator → List VersionedEntry
  | 0, _ => []
  | steps + 1, it =>
    match it.current? with
    | none => []
    | some e => e :: walk read steps (it.next read)

end SSTableIterator

namespace SSTable

/-! ## The parts of a file -/

def footerBytes (dataSize indexSize filterSize : Nat) : Bytes :=
  encodeFixed64 dataSize ++ (encodeFixed64 indexSize ++ (encodeFixed64 (dataSize + indexSize) ++
    (encodeFixed64 filterSize ++ encodeFixed64 kSSTableMagic)))

/-- A file of the three parts, with the footer that belongs to them. -/
def assemble (data index filter : Bytes) : Bytes :=
  data ++ (index ++ (filter ++ footerBytes data.length index.length filter.length))

theorem fileBytes_eq (t : TableFile) : fileBytes t =
    assemble (t.blocks.flatMap encodeBlock) (encodeIndex t.index) t.filter.encode := rfl

theorem footerBytes_length (d i f : Nat) : (footerBytes d i f).length = 40 := by
  simp [footerBytes]

theorem assemble_length (data index filter : Bytes) :
    (assemble data index filter).length = data.length + index.length + filter.length + 40 := by
  simp only [assemble, List.length_append, footerBytes_length]
  omega

variable {file part : Bytes} {i indexOffset : Nat}

theorem readExactAt_slice {front back : Bytes} (hfile : file = front ++ (part ++ back))
    (hlen : file.length ≤ maxOffset) : readExactAt file front.length part.length = .ok part := by
  have hsum : file.length = front.length + (part.length + back.length) := by
    rw [hfile, List.length_append, List.length_append]
  rw [readExactAt, require_of_true (decide_eq_true ⟨by omega, fun _ => by omega⟩), ok_bind,
    require_of_true (decide_eq_true (Or.inr (by omega))), ok_bind, hfile, List.drop_left,
    List.take_left]
  rfl

theorem readExactAt_ok {offset size : Nat} (h : readExactAt file offset size = .ok part) :
    part = (file.drop offset).take size := by
  rw [readExactAt, bind_ok] at h
  obtain ⟨_, _, h⟩ := h
  rw [bind_ok] at h
  obtain ⟨_, _, h⟩ := h
  exact (Except.ok.inj h).symm

theorem decodeFooter_footerBytes {d f : Nat} (hsum : d + i + f ≤ maxUInt64) :
    decodeFooter (footerBytes d i f) = ⟨d, i, d + i, f, kSSTableMagic⟩ := by
  have h8 : (footerBytes d i f).drop 8 = encodeFixed64 i ++ (encodeFixed64 (d + i) ++
      (encodeFixed64 f ++ encodeFixed64 kSSTableMagic)) := by
    rw [footerBytes, List.drop_left' (encodeFixed64_length _)]
  have h16 : (footerBytes d i f).drop 16 = encodeFixed64 (d + i) ++
      (encodeFixed64 f ++ encodeFixed64 kSSTableMagic) := by
    rw [show 16 = 8 + 8 from rfl, ← List.drop_drop, h8, List.drop_left' (encodeFixed64_length _)]
  have h24 : (footerBytes d i f).drop 24 = encodeFixed64 f ++ encodeFixed64 kSSTableMagic := by
    rw [show 24 = 16 + 8 from rfl, ← List.drop_drop, h16, List.drop_left' (encodeFixed64_length _)]
  have h32 : (footerBytes d i f).drop 32 = encodeFixed64 kSSTableMagic ++ [] := by
    rw [show 32 = 24 + 8 from rfl, ← List.drop_drop, h24, List.drop_left' (encodeFixed64_length _),
      List.append_nil]
  rw [decodeFooter, h8, h16, h24, h32, footerBytes, decodeFixed64_encode (by omega),
    decodeFixed64_encode (by omega), decodeFixed64_encode (by omega), decodeFixed64_encode (by omega),
    decodeFixed64_encode (by decide)]

theorem openFile_assemble {data index filter : Bytes}
    (hlen : (assemble data index filter).length ≤ maxOffset) :
    openFile (assemble data index filter) = do
      let entries ← decodeIndex data.length index
      let bloom ← BloomFilter.decode filter
      return ⟨assemble data index filter, entries, bloom⟩ := by
  have hsize := assemble_length data index filter
  have hmax : maxOffset ≤ maxUInt64 := by decide
  have hdata : (assemble data index filter).length - kFooterSize =
      (data ++ (index ++ filter)).length := by
    simp only [hsize, List.length_append, kFooterSize]
    omega
  have hfooter : readExactAt (assemble data index filter)
      ((assemble data index filter).length - kFooterSize) kFooterSize =
        .ok (footerBytes data.length index.length filter.length) := by
    have hparts : assemble data index filter = (data ++ (index ++ filter)) ++
        (footerBytes data.length index.length filter.length ++ []) := by
      simp only [assemble, List.append_assoc, List.append_nil]
    have hread := readExactAt_slice hparts hlen
    rwa [footerBytes_length, ← hdata] at hread
  have hindex : readExactAt (assemble data index filter) data.length index.length = .ok index :=
    readExactAt_slice rfl hlen
  have hfilter : readExactAt (assemble data index filter) (data.length + index.length)
      filter.length = .ok filter := by
    have hparts : assemble data index filter = (data ++ index) ++
        (filter ++ footerBytes data.length index.length filter.length) := by
      simp only [assemble, List.append_assoc]
    have hread := readExactAt_slice hparts hlen
    rwa [List.length_append] at hread
  have hcheck : checkFooter ((assemble data index filter).length - kFooterSize)
      ⟨data.length, index.length, data.length + index.length, filter.length, kSSTableMagic⟩ =
        .ok () := by
    have hend : (assemble data index filter).length - kFooterSize =
        data.length + index.length + filter.length := by
      rw [hsize]
      rfl
    rw [checkFooter, require_of_true (decide_eq_true rfl), ok_bind, hend]
    refine require_of_true (decide_eq_true ?_) _
    refine ⟨?_, ?_, ?_, ?_⟩
    · exact Nat.le_add_right _ _
    · exact (Nat.add_sub_cancel_left _ _).symm
    · exact Nat.le_add_right _ _
    · exact (Nat.add_sub_cancel_left _ _).symm
  have hbig : kFooterSize ≤ (assemble data index filter).length := by
    rw [hsize]
    exact Nat.le_add_left _ _
  rw [openFile, require_of_true (decide_eq_true hbig), ok_bind, hfooter, ok_bind]
  simp only [decodeFooter_footerBytes (show data.length + index.length + filter.length ≤ maxUInt64 by
    omega)]
  rw [hcheck, ok_bind, hindex, ok_bind]
  simp only [hfilter]
  rfl

/-! ## Index entries and block positions -/

theorem indexBlocks_get (offset : Nat) (blocks : List (List VersionedEntry)) (i : Nat) :
    (indexBlocks offset blocks)[i]? = (blocks[i]?).map fun b =>
      ⟨lastKeyOf b, offset + ((blocks.take i).flatMap encodeBlock).length,
        (encodeBlock b).length⟩ := by
  induction blocks generalizing offset i with
  | nil => rfl
  | cons b blocks ih =>
    rw [indexBlocks]
    cases i with
    | zero => rfl
    | succ i =>
      rw [List.getElem?_cons_succ, List.getElem?_cons_succ, ih, List.take_succ_cons,
        List.flatMap_cons, List.length_append]
      simp only [Nat.add_assoc]

theorem flatMap_slice (blocks : List (List VersionedEntry)) {b : List VersionedEntry}
    (hb : blocks[i]? = some b) (back : Bytes) :
    ((blocks.flatMap encodeBlock ++ back).drop ((blocks.take i).flatMap encodeBlock).length).take
      (encodeBlock b).length = encodeBlock b ∧
    ((blocks.take i).flatMap encodeBlock).length + (encodeBlock b).length ≤
      (blocks.flatMap encodeBlock).length := by
  obtain ⟨hi, rfl⟩ := List.getElem?_eq_some_iff.mp hb
  have hsplit : blocks.flatMap encodeBlock = (blocks.take i).flatMap encodeBlock ++
      (encodeBlock blocks[i] ++ (blocks.drop (i + 1)).flatMap encodeBlock) := by
    conv_lhs => rw [← List.take_append_drop i blocks, List.drop_eq_getElem_cons hi]
    rw [List.flatMap_append, List.flatMap_cons]
  constructor
  · rw [hsplit, List.append_assoc, List.drop_left, List.append_assoc, List.take_left]
  · rw [hsplit, List.length_append, List.length_append]
    omega

def indexEntryBytes (item : IndexEntry) : Bytes :=
  encodeFixed32 item.lastInternalKey.length ++ (item.lastInternalKey ++
    (encodeFixed64 item.blockOffset ++ encodeFixed64 item.blockSize))

theorem readIndexEntry_bytes {item : IndexEntry} (hkey : item.lastInternalKey.length ≤ maxUInt32)
    (hrange : item.blockOffset + item.blockSize ≤ indexOffset) (hmax : indexOffset ≤ maxUInt64)
    (i : Nat) (rest : Bytes) :
    readIndexEntry indexOffset i (indexEntryBytes item ++ rest) = .ok (item, rest) := by
  have hinput : indexEntryBytes item ++ rest = encodeFixed32 item.lastInternalKey.length ++
      (item.lastInternalKey ++ (encodeFixed64 item.blockOffset ++
        (encodeFixed64 item.blockSize ++ rest))) := by
    simp only [indexEntryBytes, List.append_assoc]
  have hsize : decodeFixed32 (indexEntryBytes item ++ rest) = item.lastInternalKey.length := by
    rw [hinput, decodeFixed32_encode hkey]
  have hdrop4 : (indexEntryBytes item ++ rest).drop 4 = item.lastInternalKey ++
      (encodeFixed64 item.blockOffset ++ (encodeFixed64 item.blockSize ++ rest)) := by
    rw [hinput, List.drop_left' (encodeFixed32_length _)]
  have hlong : 4 ≤ (indexEntryBytes item ++ rest).length := by
    rw [hinput, List.length_append, encodeFixed32_length]
    exact Nat.le_add_right _ _
  have hfields : item.lastInternalKey.length + 16 ≤ (item.lastInternalKey ++
      (encodeFixed64 item.blockOffset ++ (encodeFixed64 item.blockSize ++ rest))).length := by
    simp only [List.length_append, encodeFixed64_length]
    omega
  rw [readIndexEntry, require_of_true (decide_eq_true hlong), ok_bind]
  simp only [hsize, hdrop4]
  rw [require_of_true (decide_eq_true hfields), ok_bind, List.take_left, List.drop_left,
    decodeFixed64_encode (by omega), List.drop_left' (encodeFixed64_length _),
    decodeFixed64_encode (by omega), require_of_true (decide_eq_true ⟨by omega, by omega⟩), ok_bind,
    show 16 = 8 + 8 from rfl, ← List.drop_drop, List.drop_left' (encodeFixed64_length _),
    List.drop_left' (encodeFixed64_length _)]
  rfl

theorem decodeIndex_encodeIndex {index : List IndexEntry} (hcount : index.length ≤ maxUInt64)
    (hmax : indexOffset ≤ maxUInt64)
    (hitems : ∀ item ∈ index, item.lastInternalKey.length ≤ maxUInt32 ∧
      item.blockOffset + item.blockSize ≤ indexOffset) :
    decodeIndex indexOffset (encodeIndex index) = .ok index := by
  have hlong : 8 ≤ (encodeIndex index).length := by
    rw [encodeIndex, List.length_append, encodeFixed64_length]
    exact Nat.le_add_right _ _
  have hnumber : decodeFixed64 (encodeIndex index) = index.length := by
    rw [encodeIndex, decodeFixed64_encode hcount]
  have hdrop : (encodeIndex index).drop 8 = index.flatMap indexEntryBytes ++ [] := by
    rw [encodeIndex, List.drop_left' (encodeFixed64_length _), List.append_nil]
    rfl
  rw [decodeIndex, require_of_true (decide_eq_true hlong), ok_bind, hnumber, hdrop,
    times_append indexEntryBytes index (fun item hitem i rest =>
      readIndexEntry_bytes (hitems item hitem).1 (hitems item hitem).2 hmax i rest), ok_bind]
  dsimp only
  rw [require_of_true (decide_eq_true rfl), ok_bind]
  rfl

end SSTable

namespace TableFile

/-! ## Tables as files -/

/-- The index of a table says where its blocks are, and index and filter fit their
fields. -/
structure Placed (t : TableFile) : Prop where
  laid : t.Laid
  keys : ∀ b ∈ t.blocks, (SSTable.lastKeyOf b).length ≤ maxUInt32
  filter : t.filter.Wf
  size : (SSTable.fileBytes t).length ≤ maxOffset

structure Storable (t : TableFile) : Prop where
  laid : t.Laid
  blocks : ∀ b ∈ t.blocks, SSTable.BlockFits b
  size : (SSTable.fileBytes t).length ≤ maxOffset

def loaded (t : TableFile) : LoadedTable := ⟨SSTable.fileBytes t, t.index, t.filter⟩

variable {t : TableFile}

variable {b : List VersionedEntry} {i r : Nat}

theorem Laid.index_get (h : t.Laid) (hb : t.blocks[i]? = some b) :
    t.index[i]? = some ⟨SSTable.lastKeyOf b, ((t.blocks.take i).flatMap SSTable.encodeBlock).length,
      (SSTable.encodeBlock b).length⟩ := by
  rw [h, SSTable.indexBlocks_get, hb, Nat.zero_add]
  rfl

theorem Laid.index_length (h : t.Laid) : t.index.length = t.blocks.length := by
  have hlen := congrArg List.length (SSTable.indexBlocks_keys 0 t.blocks)
  rw [← h] at hlen
  simpa using hlen

theorem Laid.block_of_item (h : t.Laid) {item : IndexEntry} (hi : t.index[i]? = some item) :
    ∃ b, t.blocks[i]? = some b ∧
      item = ⟨SSTable.lastKeyOf b, ((t.blocks.take i).flatMap SSTable.encodeBlock).length,
        (SSTable.encodeBlock b).length⟩ := by
  have hlt : i < t.blocks.length := by
    rw [← h.index_length]
    exact (List.getElem?_eq_some_iff.mp hi).1
  have hb : t.blocks[i]? = some t.blocks[i] := List.getElem?_eq_getElem hlt
  refine ⟨_, hb, ?_⟩
  rw [h.index_get hb] at hi
  exact (Option.some.inj hi).symm

theorem length_le_encodeIndex (index : List IndexEntry) :
    index.length ≤ (SSTable.encodeIndex index).length := by
  have hflat : index.length ≤ (index.flatMap SSTable.indexEntryBytes).length := by
    induction index with
    | nil => simp
    | cons item index ih =>
      have hpos : 4 ≤ (SSTable.indexEntryBytes item).length := by
        rw [SSTable.indexEntryBytes, List.length_append, encodeFixed32_length]
        exact Nat.le_add_right _ _
      rw [List.flatMap_cons, List.length_append, List.length_cons]
      omega
  have hindex : SSTable.encodeIndex index =
      encodeFixed64 index.length ++ index.flatMap SSTable.indexEntryBytes := rfl
  rw [hindex, List.length_append]
  omega

theorem lastKeyOf_length_le (h : SSTable.BlockOk b) : (SSTable.lastKeyOf b).length ≤ maxUInt32 := by
  have hkey := SSTable.keyBefore_length_le b
  have hpayload := h.payload_le
  have hlen := SSTable.blockPayload_length b
  have hoff : SSTable.offsetAfter b = 16 + (SSTable.records 0 [] b).length := rfl
  have hlast : (SSTable.lastKeyOf b).length ≤ (SSTable.keyBefore [] b).length + 9 := by
    unfold SSTable.lastKeyOf SSTable.keyBefore
    cases b.getLast? with
    | none => simp
    | some e => simp [encodeInternalKey]
  omega

theorem Placed.decodeIndex (h : t.Placed) :
    SSTable.decodeIndex (t.blocks.flatMap SSTable.encodeBlock).length
      (SSTable.encodeIndex t.index) = .ok t.index := by
  have hsize := h.size
  rw [SSTable.fileBytes_eq, SSTable.assemble_length] at hsize
  have hmax : maxOffset ≤ maxUInt64 := by decide
  have hcount := length_le_encodeIndex t.index
  refine SSTable.decodeIndex_encodeIndex (by omega) (by omega) ?_
  intro item hitem
  obtain ⟨i, hi⟩ := List.mem_iff_getElem?.mp hitem
  obtain ⟨b, hb, rfl⟩ := h.laid.block_of_item hi
  exact ⟨h.keys b (List.mem_of_getElem? hb), (SSTable.flatMap_slice t.blocks hb []).2⟩

theorem Placed.openFile (h : t.Placed) : SSTable.openFile (SSTable.fileBytes t) = .ok t.loaded := by
  rw [SSTable.fileBytes_eq, SSTable.openFile_assemble h.size, h.decodeIndex, ok_bind,
    BloomFilter.decode_encode h.filter, ok_bind]
  rfl

theorem Laid.fileBytes_split (h : t.Laid) {item : IndexEntry} (hi : t.index[i]? = some item)
    (hb : t.blocks[i]? = some b) :
    ∃ front back, SSTable.fileBytes t = front ++ (SSTable.encodeBlock b ++ back) ∧
      item.blockOffset = front.length ∧ item.blockSize = (SSTable.encodeBlock b).length := by
  obtain ⟨b', hb', rfl⟩ := h.block_of_item hi
  have hbb : b = b' := Option.some.inj (hb.symm.trans hb')
  subst hbb
  obtain ⟨hblt, hget⟩ := List.getElem?_eq_some_iff.mp hb
  have hsplit : t.blocks.flatMap SSTable.encodeBlock =
      (t.blocks.take i).flatMap SSTable.encodeBlock ++ (SSTable.encodeBlock b ++
        (t.blocks.drop (i + 1)).flatMap SSTable.encodeBlock) := by
    conv_lhs => rw [← List.take_append_drop i t.blocks, List.drop_eq_getElem_cons hblt, hget]
    rw [List.flatMap_append, List.flatMap_cons]
  refine ⟨(t.blocks.take i).flatMap SSTable.encodeBlock,
    (t.blocks.drop (i + 1)).flatMap SSTable.encodeBlock ++ (SSTable.encodeIndex t.index ++
      (t.filter.encode ++ SSTable.footerBytes (t.blocks.flatMap SSTable.encodeBlock).length
        (SSTable.encodeIndex t.index).length t.filter.encode.length)), ?_, rfl, rfl⟩
  rw [SSTable.fileBytes_eq, SSTable.assemble]
  conv_lhs => rw [hsplit]
  simp only [List.append_assoc]
  rw [← hsplit]

theorem Laid.readRawBlock (h : t.Laid) (hsize : (SSTable.fileBytes t).length ≤ maxOffset)
    {item : IndexEntry} (hi : t.index[i]? = some item) (hb : t.blocks[i]? = some b) :
    t.loaded.readRawBlock item = .ok (SSTable.encodeBlock b) := by
  obtain ⟨front, back, hfile, hoffset, hlength⟩ := h.fileBytes_split hi hb
  rw [LoadedTable.readRawBlock, hoffset, hlength]
  exact SSTable.readExactAt_slice hfile hsize

theorem Storable.readBlock (h : t.Storable) {item : IndexEntry} (hi : t.index[i]? = some item)
    (hb : t.blocks[i]? = some b) : t.loaded.readBlock item = .ok b := by
  rw [LoadedTable.readBlock, h.laid.readRawBlock h.size hi hb, ok_bind]
  exact SSTable.decodeBlock_encodeBlock (h.blocks b (List.mem_of_getElem? hb))

theorem Storable.reader_eq (h : t.Storable) (i : Nat) : t.loaded.reader t i = Reader.plain t i := by
  unfold LoadedTable.reader Reader.plain
  have hindex : t.loaded.index = t.index := rfl
  rw [hindex, List.getD_eq_getElem?_getD]
  cases hi : t.index[i]? with
  | none =>
    have hnone : t.blocks[i]? = none := by
      rw [List.getElem?_eq_none_iff] at hi ⊢
      rw [← h.laid.index_length]
      exact hi
    rw [hnone]
    rfl
  | some item =>
    obtain ⟨b, hb, _⟩ := h.laid.block_of_item hi
    rw [hb]
    exact h.readBlock hi hb

/-- How the blocks of a table are read from the bytes of its file. -/
def Reader.stored : Reader := fun t => t.loaded.reader t

/-- A block that was written is read back or reported as corrupt, also where a restart offset
has lost its upper bits. -/
theorem Laid.stored_read (h : t.Laid) (hfit : ∀ b ∈ t.blocks, SSTable.RecordsFit b) (i : Nat) :
    Reader.stored t i = Reader.plain t i ∨ ∃ e, e.IsCorruption ∧ Reader.stored t i = .error e := by
  show t.loaded.reader t i = _ ∨ ∃ e, _ ∧ t.loaded.reader t i = _
  unfold LoadedTable.reader Reader.plain
  have hindex : t.loaded.index = t.index := rfl
  rw [hindex, List.getD_eq_getElem?_getD]
  cases hi : t.index[i]? with
  | none =>
    have hnone : t.blocks[i]? = none := by
      rw [List.getElem?_eq_none_iff] at hi ⊢
      rwa [← h.index_length]
    rw [hnone]
    exact Or.inl rfl
  | some item =>
    obtain ⟨b, hb, _⟩ := h.block_of_item hi
    rw [hb]
    dsimp only [Option.getD_some]
    cases hread : t.loaded.readBlock item with
    | error e => exact Or.inr ⟨e, LoadedTable.readBlock_fails t.loaded item e hread, rfl⟩
    | ok es =>
      rw [LoadedTable.readBlock, bind_ok] at hread
      obtain ⟨block, hraw, hdecode⟩ := hread
      obtain ⟨front, back, hfile, hoffset, hlength⟩ := h.fileBytes_split hi hb
      have hblock : block = SSTable.encodeBlock b := by
        rw [SSTable.readExactAt_ok hraw, hoffset, hlength]
        show ((SSTable.fileBytes t).drop _).take _ = _
        rw [hfile, List.drop_left, List.take_left]
      rw [hblock] at hdecode
      exact Or.inl (congrArg Except.ok
        (SSTable.decodeBlock_exact (hfit b (List.mem_of_getElem? hb)) hdecode))

theorem Storable.table_eq (h : t.Storable) : t.loaded.table = t := by
  have hblocks : t.index.map (fun item => ((t.loaded.readBlock item).toOption).getD []) =
      t.blocks := by
    apply List.ext_getElem?
    intro i
    rw [List.getElem?_map]
    cases hi : t.index[i]? with
    | none =>
      rw [List.getElem?_eq_none_iff] at hi
      rw [h.laid.index_length] at hi
      rw [List.getElem?_eq_none_iff.mpr hi]
      rfl
    | some item =>
      obtain ⟨b, hb, _⟩ := h.laid.block_of_item hi
      rw [hb, Option.map_some, h.readBlock hi hb]
      rfl
  rw [LoadedTable.table]
  show (⟨t.index.map _, t.index, t.filter⟩ : TableFile) = t
  rw [hblocks]

/-! ## The three readers -/

theorem Storable.readBlocks (h : t.Storable) (n : Nat) :
    t.loaded.readBlocks (t.index.drop n) = .ok (t.blocks.drop n).flatten := by
  have hlen := h.laid.index_length
  induction hk : t.index.length - n generalizing n with
  | zero =>
    rw [List.drop_eq_nil_of_le (by omega), List.drop_eq_nil_of_le (by omega)]
    rfl
  | succ k ih =>
    have hi : t.index[n]? = some (t.index[n]) := List.getElem?_eq_getElem (by omega)
    have hb : t.blocks[n]? = some (t.blocks[n]) := List.getElem?_eq_getElem (by omega)
    rw [List.drop_eq_getElem_cons (by omega : n < t.index.length),
      List.drop_eq_getElem_cons (by omega : n < t.blocks.length), LoadedTable.readBlocks,
      h.readBlock hi hb, ok_bind, ih (n + 1) (by omega), ok_bind, List.flatten_cons]
    rfl

theorem Storable.entries (h : t.Storable) : t.loaded.entries = .ok t.entries :=
  h.readBlocks 0

def found (e : Option VersionedEntry) : Except Status (Option Bytes × Nat) :=
  match e with
  | none => .error (.notFound "key not found")
  | some e => .ok (LoadedTable.answer e)

theorem Storable.getAt (h : t.Storable) {item : IndexEntry} (hi : t.index[i]? = some item)
    (hb : t.blocks[i]? = some b) (key : Bytes) (r : Nat) :
    LoadedTable.getAt t.loaded.readRawBlock item key r = found (getFromBlock b key r) := by
  rw [LoadedTable.getAt, h.laid.readRawBlock h.size hi hb, ok_bind,
    SSTable.getFromBlock_encodeBlock (h.blocks b (List.mem_of_getElem? hb)), ok_bind]
  cases getFromBlock b key r with
  | none => rfl
  | some e => rfl

theorem Storable.searchBlock (h : t.Storable) (hwf : t.Wf) (key : Bytes) (hr : r ≤ maxUInt64) :
    t.loaded.searchBlock key r = found (matches? key r t.entries) := by
  have hopen : ({ t with filter := ⟨0, 0, []⟩ } : TableFile).Wf :=
    ⟨hwf.sorted, hwf.keys, hwf.sequences, hwf.nonempty, hwf.index, fun _ _ => rfl⟩
  have hmay : (⟨0, 0, []⟩ : BloomFilter).mayContain key = true := rfl
  have hget : TableFile.get Reader.plain { t with filter := ⟨0, 0, []⟩ } key r =
      .ok (matches? key r t.entries) := get_eq_of_any_key hopen key hr
  rw [TableFile.get, hmay, if_neg (by decide)] at hget
  dsimp only at hget
  have hbound := (hwf.lowerBound_spec (encodeInternalKey key r)).1
  unfold LoadedTable.searchBlock LoadedTable.searchBlockFrom
  dsimp only [loaded]
  generalize lowerBound t.index (encodeInternalKey key r) = i at hget hbound ⊢
  cases hi : t.index[i]? with
  | none =>
    have hge : t.index.length ≤ i := List.getElem?_eq_none_iff.mp hi
    rw [if_pos (by omega)] at hget
    rw [← Except.ok.inj hget]
    rfl
  | some item =>
    obtain ⟨b, hb, _⟩ := h.laid.block_of_item hi
    have hlt := (List.getElem?_eq_some_iff.mp hi).1
    have hread : Reader.plain { t with filter := ⟨0, 0, []⟩ } i = .ok b := by
      simp [Reader.plain, List.getD_eq_getElem?_getD, hb]
    rw [if_neg (by omega), hread] at hget
    dsimp only at hget
    rw [← Except.ok.inj hget]
    exact h.getAt hi hb key r

theorem matches?_some {key : Bytes} {es : List VersionedEntry} {e : VersionedEntry}
    (h : matches? key r es = some e) : e ∈ es ∧ e.key = key ∧ e.sequence ≤ r := by
  have hmatch := List.find?_some h
  simp only [decide_eq_true_eq] at hmatch
  exact ⟨List.mem_of_find?_eq_some h, hmatch⟩

/-- A lookup in the file finds the first visible version of the key. -/
theorem Storable.get (h : t.Storable) (hwf : t.Wf) (key : Bytes) (hr : r ≤ maxUInt64) :
    t.loaded.get key r = found (matches? key r t.entries) := by
  rw [LoadedTable.get_eq, h.searchBlock hwf key hr]
  split
  · rename_i hfilter
    cases hmatch : matches? key r t.entries with
    | none => rfl
    | some e =>
      obtain ⟨hmem, hkey, _⟩ := matches?_some hmatch
      have hmay := hwf.filter e hmem
      rw [hkey] at hmay
      exact absurd (hmay.symm.trans hfilter) (by decide)
  · rfl

end TableFile

namespace SSTableIterator

/-! ## Iterators on files -/

variable {read read' : TableFile.Reader} {t : TableFile}

variable {it : SSTableIterator}

theorem ensureBlockLoaded_congr (h : ∀ i, read t i = read' t i) (fuel : Nat) (ht : it.table = t) :
    ensureBlockLoaded read fuel it = ensureBlockLoaded read' fuel it := by
  induction fuel generalizing it with
  | zero => rfl
  | succ fuel ih =>
    subst ht
    rw [ensureBlockLoaded, ensureBlockLoaded, h it.blockIndex]
    split
    · rfl
    · split
      · rfl
      · split
        · rfl
        · split
          · exact ih rfl
          · rfl

theorem skipUntilVisible_congr (h : ∀ i, read t i = read' t i) (target : Bytes) (fuel : Nat)
    (ht : it.table = t) :
    skipUntilVisible read target fuel it = skipUntilVisible read' target fuel it := by
  induction fuel generalizing it with
  | zero => rfl
  | succ fuel ih =>
    have hload := same_ensureBlockLoaded read' (it.table.index.length + 1) it
    rw [skipUntilVisible, skipUntilVisible, ensureBlockLoaded_congr h _ ht]
    generalize ensureBlockLoaded read' (it.table.index.length + 1) it = out at hload
    obtain ⟨loaded, it'⟩ := out
    have hstep := ih ((same_advanceRaw it').1.trans (hload.1.trans ht))
    cases loaded with
    | false => rfl
    | true =>
      dsimp only
      split
      · rfl
      · split
        · exact hstep
        · split
          · exact hstep
          · rfl

theorem next_congr (h : ∀ i, read t i = read' t i) (ht : it.table = t) :
    it.next read = it.next read' := by
  unfold next
  split
  · exact skipUntilVisible_congr h [] it.fuel ((same_advanceRaw it).1.trans ht)
  · rfl

theorem walk_congr (h : ∀ i, read t i = read' t i) (steps : Nat) (ht : it.table = t) :
    walk read steps it = walk read' steps it := by
  induction steps generalizing it with
  | zero => rfl
  | succ steps ih =>
    rw [walk, walk, next_congr h ht, ih ((same_next read' it).1.trans ht)]

theorem walk_at {r : Nat} {all rest : List VersionedEntry}
    (h : (InternalIterator.sstable it).At r all rest) (steps : Nat) :
    walk TableFile.Reader.plain steps it = rest.take steps := by
  induction steps generalizing it rest with
  | zero => rfl
  | succ steps ih =>
    have hcur : it.current? = rest.head? := h.2.1
    rw [walk, hcur]
    cases rest with
    | nil => rfl
    | cons e rest =>
      have hnext := InternalIterator.next_at h (List.cons_ne_nil e rest)
      dsimp only [List.head?_cons]
      rw [List.take_succ_cons]
      congr 1
      exact ih hnext

end SSTableIterator

namespace TableFile

variable {t : TableFile}

theorem Storable.walk_seekToFirst (h : t.Storable) (hwf : t.Wf) (r steps : Nat) :
    SSTableIterator.walk t.loaded.reader steps ((t.loaded.newIterator r).seekToFirst t.loaded.reader) =
      (t.entries.filter fun e => e.sequence ≤ r).take steps := by
  have hnew : t.loaded.newIterator r = SSTableIterator.new t r := by
    rw [LoadedTable.newIterator, h.table_eq]
  have htable : ((SSTableIterator.new t r).restartAt 0).table = t := rfl
  rw [hnew, SSTableIterator.seekToFirst, SSTableIterator.skipUntilVisible_congr h.reader_eq [] _ htable,
    SSTableIterator.walk_congr h.reader_eq steps (SSTableIterator.same_skipUntilVisible _ _ _ _).1]
  exact SSTableIterator.walk_at (InternalIterator.seekToFirst_at
    (InternalIterator.ready_sstable hwf r)) steps

theorem filter_key_ge {es : List VersionedEntry} (hs : SortedRun es) (r : Nat) (target : Bytes) :
    ((es.filter fun e => e.sequence ≤ r).dropWhile fun e => e.key < target) =
      es.filter fun e => e.sequence ≤ r ∧ target ≤ e.key := by
  have hsorted : SortedRun (es.filter fun e => e.sequence ≤ r) := hs.sublist List.filter_sublist
  rw [hsorted.dropWhile_eq_filter, List.filter_filter]
  apply List.filter_congr
  intro e _
  rw [Bool.decide_and, Bool.and_comm]

theorem Storable.walk_seek (h : t.Storable) (hwf : t.Wf) {r : Nat} (hr : r ≤ maxUInt64)
    (target : Bytes) (steps : Nat) :
    SSTableIterator.walk t.loaded.reader steps
        ((t.loaded.newIterator r).seek t.loaded.reader target) =
      (t.entries.filter fun e => e.sequence ≤ r ∧ target ≤ e.key).take steps := by
  have hnew : t.loaded.newIterator r = SSTableIterator.new t r := by
    rw [LoadedTable.newIterator, h.table_eq]
  have htable : ∀ i, ((SSTableIterator.new t r).restartAt i).table = t := fun _ => rfl
  rw [hnew, SSTableIterator.seek, SSTableIterator.skipUntilVisible_congr h.reader_eq target _ (htable _),
    SSTableIterator.walk_congr h.reader_eq steps (SSTableIterator.same_skipUntilVisible _ _ _ _).1,
    ← filter_key_ge hwf.sorted r target]
  exact SSTableIterator.walk_at (InternalIterator.seek_at
    (InternalIterator.ready_sstable hwf r) hr target) steps

end TableFile

namespace SSTable

/-! ## What was written is read -/

structure Run (entries : List VersionedEntry) : Prop where
  sorted : entries.Pairwise fun a b => a.key < b.key ∨ (a.key = b.key ∧ b.sequence < a.sequence)
  keys : ∀ e ∈ entries, e.key ≠ [] ∧ 0 ∉ e.key
  sequences : ∀ e ∈ entries, e.sequence ≤ maxUInt64
  deletions : ∀ e ∈ entries, e.deleted = true → e.value = []

variable {bits blockSize : Nat} {file : Bytes}

theorem createFile_ok {entries : List VersionedEntry}
    (h : createFile entries blockSize bits = .ok file) :
    checkCreate entries bits = .ok ∧ file = fileBytes (tableOf entries blockSize bits) ∧
      file.length ≤ maxOffset := by
  unfold createFile at h
  split at h
  · rename_i hcheck
    dsimp only at h
    split at h
    · rename_i hlen
      cases h
      exact ⟨hcheck, rfl, hlen⟩
    · cases h
  · cases h

theorem Run.wf {entries : List VersionedEntry} (h : Run entries) (blockSize : Nat)
    (hc : checkCreate entries bits = .ok) : (tableOf entries blockSize bits).Wf :=
  tableOf_wf blockSize (h.sorted.imp Or.inl) (fun e he => (h.keys e he).2) h.sequences hc

theorem Run.stored {entries : List VersionedEntry} (h : Run entries)
    (hcreate : createFile entries blockSize bits = .ok file)
    (hsmall : ∀ b ∈ (tableOf entries blockSize bits).blocks, (encodeBlock b).length < 2 ^ 32) :
    (tableOf entries blockSize bits).Placed ∧ (tableOf entries blockSize bits).Storable := by
  obtain ⟨hcheck, rfl, hlen⟩ := createFile_ok hcreate
  have hwf := h.wf blockSize hcheck
  obtain ⟨hpos, hbits⟩ := checkCreate_ok hcheck
  have hlaid := tableOf_laid entries blockSize bits
  have hblocks : ∀ b ∈ (tableOf entries blockSize bits).blocks, BlockOk b := by
    intro b hb
    refine ⟨?_, hsmall b hb, hwf.nonempty b hb⟩
    intro e he
    have hmem := TableFile.Wf.mem_entries hb he
    rw [tableOf_entries] at hmem
    exact ⟨h.sequences e hmem, h.deletions e hmem⟩
  exact ⟨⟨hlaid, fun b hb => TableFile.lastKeyOf_length_le (hblocks b hb),
    BloomFilter.build_wf hbits hpos, hlen⟩, hlaid, fun b hb => (hblocks b hb).fits, hlen⟩

/-- A file that was written opens, and its three readers agree with the run. -/
theorem createFile_read {entries : List VersionedEntry} (hrun : Run entries) {blockSize bits : Nat}
    {file : Bytes} (hcreate : createFile entries blockSize bits = .ok file)
    (hsmall : ∀ b ∈ (tableOf entries blockSize bits).blocks, (encodeBlock b).length < 2 ^ 32) :
    ∃ table, openFile file = .ok table ∧ table.entries = .ok entries ∧
      (∀ key r, r ≤ maxUInt64 →
        table.get key r = match entries.find? fun e => e.key = key ∧ e.sequence ≤ r with
          | none => .error (.notFound "key not found")
          | some e => .ok (if e.deleted then none else some e.value, e.sequence)) ∧
      ∀ r steps, r ≤ maxUInt64 →
        SSTableIterator.walk table.reader steps ((table.newIterator r).seekToFirst table.reader) =
          (entries.filter fun e => e.sequence ≤ r).take steps ∧
        ∀ target, SSTableIterator.walk table.reader steps
            ((table.newIterator r).seek table.reader target) =
          (entries.filter fun e => e.sequence ≤ r ∧ target ≤ e.key).take steps := by
  obtain ⟨hcheck, hfile, _⟩ := createFile_ok hcreate
  have hwf := hrun.wf blockSize hcheck
  obtain ⟨hplaced, hstorable⟩ := hrun.stored hcreate hsmall
  have hentries := tableOf_entries entries blockSize bits
  refine ⟨(tableOf entries blockSize bits).loaded, ?_, ?_, ?_, ?_⟩
  · rw [hfile]
    exact hplaced.openFile
  · rw [hstorable.entries, hentries]
  · intro key r hr
    rw [hstorable.get hwf key hr, hentries]
    rfl
  · intro r steps hr
    have hfirst := hstorable.walk_seekToFirst hwf r steps
    rw [hentries] at hfirst
    refine ⟨hfirst, ?_⟩
    intro target
    have hseek := hstorable.walk_seek hwf hr target steps
    rwa [hentries] at hseek

def twoKeys : List VersionedEntry :=
  [⟨ascii "a", 3, [], true⟩, ⟨ascii "a", 1, ascii "x", false⟩, ⟨ascii "b", 2, ascii "y", false⟩]

theorem twoKeys_run : Run twoKeys :=
  ⟨by decide +kernel, by decide +kernel, by decide +kernel, by decide +kernel⟩

theorem createFile_read_twoKeys : ∃ table,
    openFile (fileBytes (tableOf twoKeys 1 10)) = .ok table ∧ table.entries = .ok twoKeys ∧
      table.get (ascii "a") 2 = .ok (some (ascii "x"), 1) ∧
      table.get (ascii "a") 3 = .ok (none, 3) := by
  have hcreate : createFile twoKeys 1 10 = .ok (fileBytes (tableOf twoKeys 1 10)) := by
    decide +kernel
  obtain ⟨table, hopen, hentries, hget, _⟩ :=
    createFile_read twoKeys_run hcreate (by decide +kernel)
  refine ⟨table, hopen, hentries, ?_, ?_⟩
  · rw [hget _ _ (by decide)]
    decide +kernel
  · rw [hget _ _ (by decide)]
    decide +kernel

/-- Seventeen versions of one key, which stay together and need two restart points, and a
second key behind them. -/
def twoBlocks : List VersionedEntry :=
  (List.range 17).map (fun i => ⟨ascii "k", 17 - i, ascii "v", false⟩) ++
    [⟨ascii "z", 18, ascii "w", false⟩]

end SSTable

end KvMem
