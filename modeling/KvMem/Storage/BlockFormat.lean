import KvMem.Foundation.Parsing
import KvMem.Storage.SSTable

/-! # Reading data blocks

A block holds prefix-compressed records, the offsets of the records that start a
restart interval, and a checksum. The reader checks the frame, then decodes all
records or searches one through the restart points. What the writer made of a run of
entries reads back as that run.
-/

namespace KvMem

def Status.IsCorruption (e : Status) : Prop := ∃ message, e = .corruption message

end KvMem

namespace KvMem.SSTable

open Parsing

def kBlockTrailerSize : Nat := 5

def kNoCompression : Byte := 0

/-! ## The frame of a block -/

def decodeBlockPayload (block : Bytes) : Except Status Bytes := do
  require (kBlockTrailerSize + 16 ≤ block.length ∧ decodeFixed32 block = kDataBlockMagic)
    (.corruption "invalid SSTable data block")
  require (block[block.length - kBlockTrailerSize]? = some kNoCompression)
    (.corruption "unknown SSTable compression type")
  require (crc32 (block.take (block.length - 4)) = decodeFixed32 (block.drop (block.length - 4)))
    (.corruption "SSTable data block checksum mismatch")
  return block.take (block.length - kBlockTrailerSize)

/-- Positions are offsets in the payload; the records begin behind 16 bytes. -/
structure PrefixBlockLayout where
  payload : Bytes
  recordsEnd : Nat
  restartCount : Nat
  recordCount : Nat
  deriving DecidableEq, Repr

/-- The product `i * 4` is a 32-bit one. -/
def PrefixBlockLayout.restartOffset (layout : PrefixBlockLayout) (i : Nat) : Nat :=
  decodeFixed32 (layout.payload.drop (layout.recordsEnd + i * 4 % 2 ^ 32))

def checkRestarts (layout : PrefixBlockLayout) : Nat → Nat → Nat → Except Status Unit
  | 0, _, _ => .ok ()
  | count + 1, i, previousOffset => do
      let offset := layout.restartOffset i
      require (16 ≤ offset ∧ offset - 16 ≤ layout.recordsEnd - 16 - 21 ∧ (i = 0 → offset = 16) ∧
          (0 < i → previousOffset < offset) ∧ decodeFixed32 (layout.payload.drop offset) = 0)
        (.corruption "invalid prefix-compressed SSTable restart offset")
      checkRestarts layout count (i + 1) offset

def parsePrefixBlockLayout (payload : Bytes) : Except Status PrefixBlockLayout := do
  require (20 ≤ payload.length ∧ decodeFixed32 payload = kDataBlockMagic)
    (.corruption "invalid prefix-compressed SSTable block")
  let restartInterval := decodeFixed32 (payload.drop 4)
  let recordCount := decodeFixed64 (payload.drop 8)
  require (restartInterval ≠ 0 ∧ recordCount ≠ 0)
    (.corruption "invalid prefix-compressed SSTable restart interval")
  let restartCount := decodeFixed32 (payload.drop (payload.length - 4))
  let restartBytes := restartCount * 4 + 4
  let expectedRestartCount :=
    recordCount / restartInterval + if recordCount % restartInterval = 0 then 0 else 1
  require (restartCount ≠ 0 ∧ restartCount = expectedRestartCount ∧
      16 + restartBytes ≤ payload.length)
    (.corruption "invalid prefix-compressed SSTable restart area")
  let layout : PrefixBlockLayout :=
    ⟨payload, payload.length - restartBytes, restartCount, recordCount⟩
  require (recordCount ≤ (layout.recordsEnd - 16) / 21)
    (.corruption "invalid prefix-compressed SSTable record count")
  checkRestarts layout restartCount 0 0
  return layout

/-! ## Records -/

/-- The entry at a position and the position behind it. -/
def decodePrefixRecordAt (layout : PrefixBlockLayout) (ptr : Nat) (previousKey : Bytes) :
    Except Status (VersionedEntry × Nat) := do
  require (16 ≤ ptr ∧ ptr ≤ layout.recordsEnd ∧ 21 ≤ layout.recordsEnd - ptr)
    (.corruption "invalid prefix-compressed SSTable record")
  let fields := layout.payload.drop ptr
  let shared := decodeFixed32 fields
  let unshared := decodeFixed32 (fields.drop 4)
  let valueSize := decodeFixed32 (fields.drop 8)
  let type := fields.getD 12 0
  let sequence := decodeFixed64 (fields.drop 13)
  let data := fields.drop 21
  require (shared ≤ previousKey.length ∧ unshared + valueSize ≤ layout.recordsEnd - (ptr + 21))
    (.corruption "invalid prefix-compressed SSTable payload")
  let key := previousKey.take shared ++ data.take unshared
  let next := ptr + 21 + unshared + valueSize
  if type = 1 then return (⟨key, sequence, (data.drop unshared).take valueSize, false⟩, next)
  else if type = 2 then return (⟨key, sequence, [], true⟩, next)
  else .error (.corruption "unknown SSTable record type")

def decodeRecords (layout : PrefixBlockLayout) :
    Nat → Nat → Bytes → Except Status (List VersionedEntry × Nat)
  | 0, ptr, _ => .ok ([], ptr)
  | count + 1, ptr, previousKey => do
      let (entry, next) ← decodePrefixRecordAt layout ptr previousKey
      let (entries, last) ← decodeRecords layout count next entry.key
      return (entry :: entries, last)

def decodePrefixCompressedPayload (payload : Bytes) : Except Status (List VersionedEntry) := do
  let layout ← parsePrefixBlockLayout payload
  let (entries, ptr) ← decodeRecords layout layout.recordCount 16 []
  require (ptr = layout.recordsEnd)
    (.corruption "trailing prefix-compressed SSTable record bytes")
  return entries

def decodeBlock (block : Bytes) : Except Status (List VersionedEntry) := do
  let payload ← decodeBlockPayload block
  decodePrefixCompressedPayload payload

/-! ## Lookup in a block -/

def restartKey (layout : PrefixBlockLayout) (restartIndex : Nat) : Except Status Bytes := do
  require (restartIndex < layout.restartCount)
    (.corruption "invalid prefix-compressed SSTable restart index")
  let (entry, _) ← decodePrefixRecordAt layout (layout.restartOffset restartIndex) []
  return encodeInternalKey entry.key entry.sequence

def restartSearch (layout : PrefixBlockLayout) (target : Bytes) :
    Nat → Nat → Nat → Except Status Nat
  | 0, left, _ => .ok left
  | fuel + 1, left, right =>
    if left < right then do
      let mid := left + (right - left) / 2
      let key ← restartKey layout mid
      if key ≤ target then restartSearch layout target fuel (mid + 1) right
      else restartSearch layout target fuel left mid
    else .ok left

def scanRecords (layout : PrefixBlockLayout) (key : Bytes) (readSequence : Nat) :
    Nat → Nat → Bytes → Except Status (Option VersionedEntry)
  | 0, _, _ => .ok none
  | fuel + 1, ptr, previousKey =>
    if ptr < layout.recordsEnd then do
      let (entry, next) ← decodePrefixRecordAt layout ptr previousKey
      if entry.key = key ∧ entry.sequence ≤ readSequence then return some entry
      else if key < entry.key then return none
      else scanRecords layout key readSequence fuel next entry.key
    else .ok none

/-- `GetFromBlock` on the bytes of the block; a record is longer than 20 bytes, so the
scan takes fewer turns than the payload has bytes. -/
def getFromBlock (block key : Bytes) (readSequence : Nat) : Except Status (Option VersionedEntry) := do
  let payload ← decodeBlockPayload block
  let layout ← parsePrefixBlockLayout payload
  let left ← restartSearch layout (encodeInternalKey key readSequence) layout.restartCount 0
    layout.restartCount
  let restartIndex := if left = 0 then 0 else left - 1
  scanRecords layout key readSequence payload.length (layout.restartOffset restartIndex) []

/-! ## What the writer wrote -/

/-- One record, given how much of the key it shares with the one before. -/
def recordBytes (shared : Nat) (e : VersionedEntry) : Bytes :=
  encodeFixed32 shared ++ (encodeFixed32 (e.key.drop shared).length ++
    (encodeFixed32 e.value.length ++ ((if e.deleted then 2 else 1) ::
      (encodeFixed64 e.sequence ++ (e.key.drop shared ++ e.value)))))

def sharedAt (position : Nat) (previousKey : Bytes) (e : VersionedEntry) : Nat :=
  if position % kRestartInterval = 0 then 0 else sharedLength previousKey e.key

def records : Nat → Bytes → List VersionedEntry → Bytes
  | _, _, [] => []
  | position, previousKey, e :: es =>
    recordBytes (sharedAt position previousKey e) e ++ records (position + 1) e.key es

def keyBefore (previousKey : Bytes) (es : List VersionedEntry) : Bytes :=
  ((es.getLast?).map (·.key)).getD previousKey

theorem recordBytes_length (shared : Nat) (e : VersionedEntry) :
    (recordBytes shared e).length = 21 + (e.key.drop shared).length + e.value.length := by
  simp only [recordBytes, List.length_append, List.length_cons, encodeFixed32_length,
    encodeFixed64_length]
  omega

theorem keyBefore_append (previousKey : Bytes) (es : List VersionedEntry) (e : VersionedEntry) :
    keyBefore previousKey (es ++ [e]) = e.key := by
  simp [keyBefore]

theorem records_append (position : Nat) (previousKey : Bytes) (xs ys : List VersionedEntry) :
    records position previousKey (xs ++ ys) =
      records position previousKey xs ++
        records (position + xs.length) (keyBefore previousKey xs) ys := by
  induction xs generalizing position previousKey with
  | nil => rfl
  | cons x xs ih =>
    have hkey : keyBefore x.key xs = keyBefore previousKey (x :: xs) := by
      rw [keyBefore, keyBefore, List.getLast?_cons]
      cases xs.getLast? with
      | none => rfl
      | some y => rfl
    rw [List.cons_append, records, ih, records, List.append_assoc, hkey, List.length_cons]
    congr 3
    omega

theorem records_snoc (previousKey : Bytes) (es : List VersionedEntry) (e : VersionedEntry) :
    records 0 previousKey (es ++ [e]) = records 0 previousKey es ++
      recordBytes (sharedAt es.length (keyBefore previousKey es) e) e := by
  rw [records_append, Nat.zero_add, records, records, List.append_nil]

def offsetAfter (es : List VersionedEntry) : Nat := 16 + (records 0 [] es).length

def restartsOf (es : List VersionedEntry) : List Nat :=
  (List.range ((es.length + 15) / 16)).map fun k => offsetAfter (es.take (16 * k))

def blockHeader (count : Nat) : Bytes :=
  encodeFixed32 kDataBlockMagic ++ (encodeFixed32 kRestartInterval ++ encodeFixed64 count)

theorem blockHeader_length (count : Nat) : (blockHeader count).length = 16 := by
  simp [blockHeader]

theorem blockWriter_run (count : Nat) (es : List VersionedEntry) :
    es.foldl BlockWriter.append { payload := blockHeader count } =
      { payload := blockHeader count ++ records 0 [] es
        restartOffsets := restartsOf es
        previousKey := keyBefore [] es
        position := es.length } := by
  induction es using List.reverseRecOn with
  | nil => simp [records, restartsOf, keyBefore]
  | append_singleton es e ih =>
    rw [List.foldl_append, ih, List.foldl_cons, List.foldl_nil, records_snoc,
      keyBefore_append]
    have htake : ∀ k, 16 * k ≤ es.length → (es ++ [e]).take (16 * k) = es.take (16 * k) :=
      fun k hk => List.take_append_of_le_length hk
    have hold : (List.range ((es.length + 15) / 16)).map
        (fun k => offsetAfter ((es ++ [e]).take (16 * k))) = restartsOf es := by
      apply List.map_congr_left
      intro k hk
      rw [htake k (by have := List.mem_range.mp hk; omega)]
    have hrestarts : restartsOf (es ++ [e]) =
        if es.length % kRestartInterval = 0 then
          restartsOf es ++ [(blockHeader count ++ records 0 [] es).length]
        else restartsOf es := by
      rw [restartsOf, List.length_append, List.length_singleton]
      unfold kRestartInterval
      split
      · rename_i hmod
        have hcount : (es.length + 1 + 15) / 16 = (es.length + 15) / 16 + 1 := by omega
        have hlast : 16 * ((es.length + 15) / 16) = es.length := by omega
        rw [hcount, List.range_succ, List.map_append, hold, List.map_singleton, htake _ hlast.le,
          hlast, List.take_length, offsetAfter, List.length_append, blockHeader_length]
      · rename_i hmod
        have hcount : (es.length + 1 + 15) / 16 = (es.length + 15) / 16 := by omega
        rw [hcount, hold]
    rw [hrestarts]
    simp only [BlockWriter.append, recordBytes, sharedAt, List.length_append,
      List.length_singleton, List.append_assoc]

def blockPayload (es : List VersionedEntry) : Bytes :=
  blockHeader es.length ++ (records 0 [] es ++ ((restartsOf es).flatMap encodeFixed32 ++
    encodeFixed32 (restartsOf es).length))

theorem encodeBlock_eq (es : List VersionedEntry) :
    encodeBlock es = blockPayload es ++ 0 :: encodeFixed32 (crc32 (blockPayload es ++ [0])) := by
  have hpayload : ∀ ws : List Nat, blockHeader es.length ++ records 0 [] es ++
      (ws.flatMap encodeFixed32 ++ (encodeFixed32 ws.length ++ [0])) =
        blockHeader es.length ++ (records 0 [] es ++ (ws.flatMap encodeFixed32 ++
          encodeFixed32 ws.length)) ++ [0] := by
    intro ws
    simp only [List.append_assoc]
  have hrun := blockWriter_run es.length es
  unfold blockHeader at hrun
  simp only [encodeBlock]
  rw [hrun]
  have h := hpayload (restartsOf es)
  unfold blockHeader at h
  simp only [blockPayload, blockHeader]
  rw [h, List.append_assoc, List.singleton_append]

/-! ## One record read back -/

theorem sharedLength_le_left (a b : Bytes) : sharedLength a b ≤ a.length := by
  induction a generalizing b with
  | nil => simp [sharedLength]
  | cons x xs ih =>
    cases b with
    | nil => simp [sharedLength]
    | cons y ys =>
      rw [sharedLength]
      split
      · have := ih ys
        simp only [List.length_cons]
        omega
      · exact Nat.zero_le _

theorem sharedLength_take (a b : Bytes) :
    a.take (sharedLength a b) = b.take (sharedLength a b) := by
  induction a generalizing b with
  | nil => simp [sharedLength]
  | cons x xs ih =>
    cases b with
    | nil => simp [sharedLength]
    | cons y ys =>
      rw [sharedLength]
      split
      · rename_i hxy
        rw [List.take_succ_cons, List.take_succ_cons, ih ys, hxy]
      · rfl

structure EntryOk (e : VersionedEntry) : Prop where
  sequence : e.sequence ≤ maxUInt64
  deleted : e.deleted = true → e.value = []

variable {e : VersionedEntry} {layout : PrefixBlockLayout} {previousKey : Bytes} {k i : Nat}
  {es : List VersionedEntry}

theorem decodePrefixRecordAt_eq {front back : Bytes} {shared : Nat}
    (hpayload : layout.payload = front ++ (recordBytes shared e ++ back))
    (hfront : 16 ≤ front.length)
    (hend : front.length + (recordBytes shared e).length ≤ layout.recordsEnd)
    (hkey : e.key.length ≤ maxUInt32) (hvalue : e.value.length ≤ maxUInt32) (he : EntryOk e)
    (hshared : shared ≤ previousKey.length) (htake : previousKey.take shared = e.key.take shared) :
    decodePrefixRecordAt layout front.length previousKey =
      .ok (e, front.length + (recordBytes shared e).length) := by
  have hlen := recordBytes_length shared e
  have hsharedKey : shared ≤ e.key.length := by
    have hlength := congrArg List.length htake
    rw [List.length_take, List.length_take] at hlength
    omega
  have hunshared : (e.key.drop shared).length ≤ maxUInt32 := by
    rw [List.length_drop]
    omega
  have hdrop : ∀ k, layout.payload.drop (front.length + k) =
      (recordBytes shared e ++ back).drop k := by
    intro k
    rw [hpayload, ← List.drop_drop, List.drop_left]
  have hfields := hdrop 0
  rw [Nat.add_zero, List.drop_zero] at hfields
  have hrecord : recordBytes shared e ++ back = encodeFixed32 shared ++
      (encodeFixed32 (e.key.drop shared).length ++ (encodeFixed32 e.value.length ++
        ((if e.deleted then 2 else 1) :: (encodeFixed64 e.sequence ++
          (e.key.drop shared ++ (e.value ++ back)))))) := by
    simp only [recordBytes, List.append_assoc, List.cons_append]
  have h1 : decodeFixed32 (layout.payload.drop front.length) = shared := by
    rw [hfields, hrecord, decodeFixed32_encode (by omega)]
  have hd4 : (layout.payload.drop front.length).drop 4 =
      encodeFixed32 (e.key.drop shared).length ++ (encodeFixed32 e.value.length ++
        ((if e.deleted then 2 else 1) :: (encodeFixed64 e.sequence ++
          (e.key.drop shared ++ (e.value ++ back))))) := by
    rw [hfields, hrecord, List.drop_left' (encodeFixed32_length _)]
  have hd8 : (layout.payload.drop front.length).drop 8 =
      encodeFixed32 e.value.length ++ ((if e.deleted then 2 else 1) :: (encodeFixed64 e.sequence ++
          (e.key.drop shared ++ (e.value ++ back)))) := by
    rw [show 8 = 4 + 4 from rfl, ← List.drop_drop, hd4, List.drop_left' (encodeFixed32_length _)]
  have hd12 : (layout.payload.drop front.length).drop 12 =
      (if e.deleted then 2 else 1) :: (encodeFixed64 e.sequence ++
          (e.key.drop shared ++ (e.value ++ back))) := by
    rw [show 12 = 8 + 4 from rfl, ← List.drop_drop, hd8, List.drop_left' (encodeFixed32_length _)]
  have hd13 : (layout.payload.drop front.length).drop 13 =
      encodeFixed64 e.sequence ++ (e.key.drop shared ++ (e.value ++ back)) := by
    rw [show 13 = 12 + 1 from rfl, ← List.drop_drop, hd12, List.drop_succ_cons, List.drop_zero]
  have hd21 : (layout.payload.drop front.length).drop 21 =
      e.key.drop shared ++ (e.value ++ back) := by
    rw [show 21 = 13 + 8 from rfl, ← List.drop_drop, hd13, List.drop_left' (encodeFixed64_length _)]
  have htype : (layout.payload.drop front.length).getD 12 0 = if e.deleted then 2 else 1 := by
    rw [List.getD_eq_getElem?_getD, ← List.head?_drop, hd12]
    rfl
  rw [decodePrefixRecordAt, require_of_true (decide_eq_true (by omega)), ok_bind]
  simp only [h1, hd4, hd8, hd13, hd21, htype]
  rw [decodeFixed32_encode hunshared, decodeFixed32_encode hvalue,
    decodeFixed64_encode he.sequence, require_of_true (decide_eq_true (by omega)), ok_bind,
    List.take_left' rfl, List.drop_left' rfl, List.take_left' rfl, htake, List.take_append_drop]
  have hnext : front.length + 21 + (e.key.drop shared).length + e.value.length =
      front.length + (recordBytes shared e).length := by omega
  rw [hnext]
  obtain ⟨key, sequence, value, deleted⟩ := e
  cases deleted with
  | false => rfl
  | true =>
    have hempty : value = [] := he.deleted rfl
    subst hempty
    rfl

/-! ## The layout of a written block -/

theorem restartsOf_length (es : List VersionedEntry) :
    (restartsOf es).length = (es.length + 15) / 16 := by
  simp [restartsOf]

theorem flatMap_encodeFixed32_length (ws : List Nat) :
    (ws.flatMap encodeFixed32).length = 4 * ws.length :=
  FixedWidth.length_flatMap_fixed encodeFixed32_length ws

theorem decodeFixed32_flatMap {ws : List Nat} (back : Bytes) {w : Nat} (hk : ws[k]? = some w) :
    decodeFixed32 ((ws.flatMap encodeFixed32 ++ back).drop (k * 4)) = w % 2 ^ 32 := by
  induction ws generalizing k with
  | nil => cases hk
  | cons x ws ih =>
    rw [List.flatMap_cons, List.append_assoc]
    cases k with
    | zero =>
      have hx : x = w := by simpa using hk
      subst hx
      rw [Nat.zero_mul, List.drop_zero, decodeFixed32_encode_mod]
    | succ k =>
      have hoff : (k + 1) * 4 = 4 + k * 4 := by omega
      rw [hoff, ← List.drop_drop, List.drop_left' (encodeFixed32_length x)]
      exact ih (by simpa using hk)

/-- A block shorter than 2^32 bytes. -/
structure BlockOk (es : List VersionedEntry) : Prop where
  entries : ∀ e ∈ es, EntryOk e
  small : (encodeBlock es).length < 2 ^ 32
  nonempty : es ≠ []

/-- A block whose 32-bit fields hold what is written to them. -/
structure BlockFits (es : List VersionedEntry) : Prop where
  entries : ∀ e ∈ es, EntryOk e
  keys : ∀ e ∈ es, e.key.length ≤ maxUInt32
  values : ∀ e ∈ es, e.value.length ≤ maxUInt32
  restarts : ∀ w ∈ restartsOf es, w ≤ maxUInt32
  nonempty : es ≠ []

structure RecordsFit (es : List VersionedEntry) : Prop where
  entries : ∀ e ∈ es, EntryOk e
  keys : ∀ e ∈ es, e.key.length ≤ maxUInt32
  values : ∀ e ∈ es, e.value.length ≤ maxUInt32

theorem BlockFits.recordsFit (h : BlockFits es) : RecordsFit es :=
  ⟨h.entries, h.keys, h.values⟩

def blockLayout (es : List VersionedEntry) : PrefixBlockLayout :=
  ⟨blockPayload es, offsetAfter es, (restartsOf es).length, es.length⟩

theorem blockPayload_length (es : List VersionedEntry) :
    (blockPayload es).length = offsetAfter es + ((restartsOf es).length * 4 + 4) := by
  simp only [blockPayload, List.length_append, blockHeader_length, flatMap_encodeFixed32_length,
    encodeFixed32_length, offsetAfter]
  omega

theorem encodeBlock_length (es : List VersionedEntry) :
    (encodeBlock es).length = (blockPayload es).length + 5 := by
  rw [encodeBlock_eq, List.length_append, List.length_cons, encodeFixed32_length]

theorem BlockOk.payload_le (h : BlockOk es) : (blockPayload es).length + 5 ≤ maxUInt32 := by
  have hsmall := h.small
  rw [encodeBlock_length] at hsmall
  unfold maxUInt32
  omega

theorem offsetAfter_append (xs ys : List VersionedEntry) :
    offsetAfter (xs ++ ys) = offsetAfter xs + (records xs.length (keyBefore [] xs) ys).length := by
  rw [offsetAfter, records_append, Nat.zero_add, List.length_append, offsetAfter, Nat.add_assoc]

theorem offsetAfter_cons_le (xs ys : List VersionedEntry) (e : VersionedEntry) :
    offsetAfter xs + 21 ≤ offsetAfter (xs ++ e :: ys) := by
  rw [offsetAfter_append, records, List.length_append, recordBytes_length]
  omega

theorem mul_le_records_length (position : Nat) (previousKey : Bytes) (es : List VersionedEntry) :
    21 * es.length ≤ (records position previousKey es).length := by
  induction es generalizing position previousKey with
  | nil => simp
  | cons e es ih =>
    have := ih (position + 1) e.key
    rw [records, List.length_append, recordBytes_length, List.length_cons]
    omega

/-- A key is no longer than the records up to it: what it shares was written before. -/
theorem keyBefore_length_le (es : List VersionedEntry) :
    (keyBefore [] es).length ≤ (records 0 [] es).length := by
  induction es using List.reverseRecOn with
  | nil => simp [keyBefore]
  | append_singleton es e ih =>
    have hshared : sharedAt es.length (keyBefore [] es) e ≤ (keyBefore [] es).length := by
      unfold sharedAt
      split
      · exact Nat.zero_le _
      · exact sharedLength_le_left _ _
    rw [keyBefore_append, records_snoc, List.length_append, recordBytes_length, List.length_drop]
    omega

theorem blockPayload_split (xs ys : List VersionedEntry) (e : VersionedEntry) :
    ∃ back, blockPayload (xs ++ e :: ys) =
      (blockHeader (xs ++ e :: ys).length ++ records 0 [] xs) ++
        (recordBytes (sharedAt xs.length (keyBefore [] xs) e) e ++ back) := by
  refine ⟨records (xs.length + 1) e.key ys ++ ((restartsOf (xs ++ e :: ys)).flatMap encodeFixed32 ++
    encodeFixed32 (restartsOf (xs ++ e :: ys)).length), ?_⟩
  rw [blockPayload, records_append, Nat.zero_add, records]
  simp only [List.append_assoc]

theorem restartsOf_get (hk : k < (restartsOf es).length) :
    (restartsOf es)[k]? = some (offsetAfter (es.take (16 * k))) := by
  rw [restartsOf_length] at hk
  rw [restartsOf, List.getElem?_map, List.getElem?_range hk]
  rfl

theorem take_split (es : List VersionedEntry) (h : i < es.length) :
    ∃ e, es[i]? = some e ∧ es = es.take i ++ e :: es.drop (i + 1) :=
  ⟨es[i], List.getElem?_eq_getElem h, by rw [← List.drop_eq_getElem_cons h, List.take_append_drop]⟩

theorem offsetAfter_take_le (es : List VersionedEntry) (i : Nat) :
    offsetAfter (es.take i) ≤ offsetAfter es := by
  have h := offsetAfter_append (es.take i) (es.drop i)
  rw [List.take_append_drop] at h
  omega

theorem restart_lt (hk : k < (restartsOf es).length) : 16 * k < es.length := by
  rw [restartsOf_length] at hk
  omega

theorem BlockOk.fits (h : BlockOk es) : BlockFits es := by
  have hle := h.payload_le
  have hlen := blockPayload_length es
  have hoff : offsetAfter es = 16 + (records 0 [] es).length := rfl
  have hentry : ∀ e ∈ es, e.key.length ≤ maxUInt32 ∧ e.value.length ≤ maxUInt32 := by
    intro e he
    obtain ⟨xs, ys, rfl⟩ := List.append_of_mem he
    have hkey := keyBefore_length_le (xs ++ [e])
    rw [keyBefore_append] at hkey
    have hupto := offsetAfter_append (xs ++ [e]) ys
    rw [List.append_assoc, List.singleton_append] at hupto
    have hoff' : offsetAfter (xs ++ [e]) = 16 + (records 0 [] (xs ++ [e])).length := rfl
    have hrecord : e.value.length ≤ (records 0 [] (xs ++ [e])).length := by
      rw [records_snoc, List.length_append, recordBytes_length]
      omega
    omega
  refine ⟨h.entries, fun e he => (hentry e he).1, fun e he => (hentry e he).2, ?_, h.nonempty⟩
  intro w hw
  obtain ⟨j, _, rfl⟩ := List.mem_map.mp hw
  have := offsetAfter_take_le es (16 * j)
  omega

theorem BlockFits.restartCount_le (h : BlockFits es) :
    336 * (restartsOf es).length ≤ maxUInt32 + 336 := by
  have hpos : 0 < es.length := List.length_pos_of_ne_nil h.nonempty
  have hcount := restartsOf_length es
  have hlast : (restartsOf es).length - 1 < (restartsOf es).length := by omega
  have hlt := restart_lt hlast
  have hle := h.restarts _ (List.mem_of_getElem? (restartsOf_get hlast))
  have hrecords := mul_le_records_length 0 [] (es.take (16 * ((restartsOf es).length - 1)))
  rw [List.length_take] at hrecords
  have hoff : offsetAfter (es.take (16 * ((restartsOf es).length - 1))) =
      16 + (records 0 [] (es.take (16 * ((restartsOf es).length - 1)))).length := rfl
  omega

theorem decodePrefixRecordAt_block {xs ys : List VersionedEntry} (h : RecordsFit es)
    (hes : es = xs ++ e :: ys) (hpayload : layout.payload = blockPayload es)
    (hrecordsEnd : offsetAfter es ≤ layout.recordsEnd)
    (hprevious : previousKey = keyBefore [] xs ∨ (xs.length % 16 = 0 ∧ previousKey = [])) :
    decodePrefixRecordAt layout (offsetAfter xs) previousKey = .ok (e, offsetAfter (xs ++ [e])) := by
  subst hes
  obtain ⟨back, hsplit⟩ := blockPayload_split xs ys e
  have hfront : (blockHeader (xs ++ e :: ys).length ++ records 0 [] xs).length = offsetAfter xs := by
    rw [List.length_append, blockHeader_length, offsetAfter]
  have hend : offsetAfter xs + (recordBytes (sharedAt xs.length (keyBefore [] xs) e) e).length ≤
      layout.recordsEnd := by
    refine le_trans ?_ hrecordsEnd
    rw [offsetAfter_append, records, List.length_append]
    omega
  have hoff : 16 ≤ offsetAfter xs := Nat.le_add_right _ _
  have hshare : sharedAt xs.length (keyBefore [] xs) e ≤ previousKey.length ∧
      previousKey.take (sharedAt xs.length (keyBefore [] xs) e) =
        e.key.take (sharedAt xs.length (keyBefore [] xs) e) := by
    rcases hprevious with rfl | ⟨hmod, rfl⟩
    · unfold sharedAt
      split
      · exact ⟨Nat.zero_le _, by simp⟩
      · exact ⟨sharedLength_le_left _ _, sharedLength_take _ _⟩
    · have hzero : sharedAt xs.length (keyBefore [] xs) e = 0 := if_pos hmod
      rw [hzero]
      exact ⟨Nat.le_refl _, by simp⟩
  have hlayout := hpayload.trans hsplit
  have hmem : e ∈ xs ++ e :: ys := List.mem_append_right _ List.mem_cons_self
  have hdecode := decodePrefixRecordAt_eq hlayout (by rw [hfront]; exact hoff)
    (by rw [hfront]; exact hend) (h.keys e hmem) (h.values e hmem) (h.entries e hmem) hshare.1 hshare.2
  rw [hfront] at hdecode
  rw [hdecode, offsetAfter_append xs [e], records, records, List.append_nil]

/-- A restart offset as it is found in the block: its low 32 bits. -/
theorem restartOffset_mod (es : List VersionedEntry) (hk : k < (restartsOf es).length)
    (hsmall : k * 4 < 2 ^ 32) :
    (blockLayout es).restartOffset k = offsetAfter (es.take (16 * k)) % 2 ^ 32 := by
  have hfront : (blockHeader es.length ++ records 0 [] es).length = offsetAfter es := by
    rw [List.length_append, blockHeader_length, offsetAfter]
  show decodeFixed32 ((blockPayload es).drop (offsetAfter es + k * 4 % 2 ^ 32)) = _
  rw [Nat.mod_eq_of_lt hsmall, blockPayload, ← List.append_assoc, ← List.drop_drop,
    List.drop_left' hfront]
  exact decodeFixed32_flatMap _ (restartsOf_get hk)

theorem restartOffset_block (h : BlockFits es) (hk : k < (restartsOf es).length) :
    (blockLayout es).restartOffset k = offsetAfter (es.take (16 * k)) := by
  have hcount := h.restartCount_le
  have hle := h.restarts _ (List.mem_of_getElem? (restartsOf_get hk))
  unfold maxUInt32 at hcount hle
  rw [restartOffset_mod es hk (by omega), Nat.mod_eq_of_lt (by omega)]

theorem decodeFixed32_restart (hlt : 16 * i < es.length) :
    decodeFixed32 ((blockPayload es).drop (offsetAfter (es.take (16 * i)))) = 0 := by
  obtain ⟨e, _, hes⟩ := take_split es hlt
  obtain ⟨back, hsplit⟩ := blockPayload_split (es.take (16 * i)) (es.drop (16 * i + 1)) e
  rw [← hes] at hsplit
  have hshared : sharedAt (es.take (16 * i)).length (keyBefore [] (es.take (16 * i))) e = 0 := by
    refine if_pos ?_
    rw [List.length_take, Nat.min_eq_left hlt.le]
    exact Nat.mul_mod_right 16 i
  have hfront : (blockHeader es.length ++ records 0 [] (es.take (16 * i))).length =
      offsetAfter (es.take (16 * i)) := by
    rw [List.length_append, blockHeader_length, offsetAfter]
  rw [hsplit, List.drop_left' hfront, hshared, recordBytes, List.append_assoc,
    decodeFixed32_encode (Nat.zero_le _)]

theorem checkRestarts_block (h : BlockFits es) (count i previous : Nat)
    (hi : i + count = (restartsOf es).length)
    (hprevious : 0 < i → previous < offsetAfter (es.take (16 * i))) :
    checkRestarts (blockLayout es) count i previous = .ok () := by
  induction count generalizing i previous with
  | zero => rfl
  | succ count ih =>
    have hik : i < (restartsOf es).length := by omega
    have hlt := restart_lt hik
    obtain ⟨e, _, hes⟩ := take_split es hlt
    have hlenTake : (es.take (16 * i)).length = 16 * i := by
      rw [List.length_take]
      omega
    have hspace := offsetAfter_cons_le (es.take (16 * i)) (es.drop (16 * i + 1)) e
    rw [← hes] at hspace
    have hzero := decodeFixed32_restart hlt
    have hfirst : i = 0 → offsetAfter (es.take (16 * i)) = 16 := by
      rintro rfl
      rfl
    have hbegin : 16 ≤ offsetAfter (es.take (16 * i)) := Nat.le_add_right _ _
    rw [checkRestarts]
    simp only [restartOffset_block h hik]
    have hcond : 16 ≤ offsetAfter (es.take (16 * i)) ∧
        offsetAfter (es.take (16 * i)) - 16 ≤ (blockLayout es).recordsEnd - 16 - 21 ∧
        (i = 0 → offsetAfter (es.take (16 * i)) = 16) ∧
        (0 < i → previous < offsetAfter (es.take (16 * i))) ∧
        decodeFixed32 ((blockLayout es).payload.drop (offsetAfter (es.take (16 * i)))) = 0 := by
      refine ⟨hbegin, ?_, hfirst, hprevious, hzero⟩
      show offsetAfter (es.take (16 * i)) - 16 ≤ offsetAfter es - 16 - 21
      omega
    rw [require_of_true (decide_eq_true hcond), ok_bind]
    refine ih (i + 1) _ (by omega) ?_
    intro _
    -- the next restart lies behind the record that starts here
    have hnext : es.take (16 * (i + 1)) =
        es.take (16 * i) ++ e :: (es.drop (16 * i + 1)).take 15 := by
      conv_lhs => rw [hes]
      rw [List.take_append, hlenTake, List.take_of_length_le (by rw [hlenTake]; omega),
        show 16 * (i + 1) - 16 * i = 15 + 1 by omega, List.take_succ_cons]
    have hstep := offsetAfter_cons_le (es.take (16 * i)) ((es.drop (16 * i + 1)).take 15) e
    rw [← hnext] at hstep
    omega

theorem parsePrefixBlockLayout_eq (hne : es ≠ []) (hle : (restartsOf es).length ≤ maxUInt32) :
    parsePrefixBlockLayout (blockPayload es) = (do
      checkRestarts (blockLayout es) (restartsOf es).length 0 0
      return blockLayout es) := by
  have hlen := blockPayload_length es
  have hpos : 0 < es.length := List.length_pos_of_ne_nil hne
  have hcount := mul_le_records_length 0 [] es
  have hoff : offsetAfter es = 16 + (records 0 [] es).length := rfl
  have hrestarts := restartsOf_length es
  have hlength : es.length ≤ maxUInt64 := by
    unfold maxUInt32 at hle
    unfold maxUInt64
    omega
  have hmagic : decodeFixed32 (blockPayload es) = kDataBlockMagic := by
    rw [blockPayload, blockHeader, List.append_assoc, decodeFixed32_encode (by decide)]
  have hdrop4 : (blockPayload es).drop 4 = encodeFixed32 kRestartInterval ++
      (encodeFixed64 es.length ++ (records 0 [] es ++ ((restartsOf es).flatMap encodeFixed32 ++
        encodeFixed32 (restartsOf es).length))) := by
    rw [blockPayload, blockHeader, List.append_assoc, List.drop_left' (encodeFixed32_length _),
      List.append_assoc]
  have hinterval : decodeFixed32 ((blockPayload es).drop 4) = 16 := by
    rw [hdrop4, decodeFixed32_encode (by decide)]
    rfl
  have hrecords : decodeFixed64 ((blockPayload es).drop 8) = es.length := by
    rw [show 8 = 4 + 4 from rfl, ← List.drop_drop, hdrop4, List.drop_left' (encodeFixed32_length _),
      decodeFixed64_encode hlength]
  have hlast : decodeFixed32 ((blockPayload es).drop ((blockPayload es).length - 4)) =
      (restartsOf es).length := by
    have hassoc : blockPayload es = (blockHeader es.length ++ (records 0 [] es ++
        (restartsOf es).flatMap encodeFixed32)) ++ encodeFixed32 (restartsOf es).length := by
      simp only [blockPayload, List.append_assoc]
    have hfront : (blockHeader es.length ++ (records 0 [] es ++
        (restartsOf es).flatMap encodeFixed32)).length = (blockPayload es).length - 4 := by
      conv_rhs => rw [hassoc, List.length_append, encodeFixed32_length]
      omega
    rw [← hfront]
    conv_lhs => rw [hassoc]
    rw [List.drop_left, ← List.append_nil (encodeFixed32 _), decodeFixed32_encode hle]
  rw [parsePrefixBlockLayout, require_of_true (decide_eq_true ⟨by omega, hmagic⟩), ok_bind]
  simp only [hinterval, hrecords, hlast]
  have hexpected : (restartsOf es).length =
      es.length / 16 + if es.length % 16 = 0 then 0 else 1 := by
    split
    · omega
    · omega
  have hend : (blockPayload es).length - ((restartsOf es).length * 4 + 4) = offsetAfter es := by omega
  rw [require_of_true (decide_eq_true ⟨by decide, by omega⟩), ok_bind,
    require_of_true (decide_eq_true ⟨by omega, hexpected, by omega⟩), ok_bind, hend,
    require_of_true (decide_eq_true (by omega)), ok_bind]
  rfl

theorem parsePrefixBlockLayout_block (h : BlockFits es) :
    parsePrefixBlockLayout (blockPayload es) = .ok (blockLayout es) := by
  have hcount := h.restartCount_le
  rw [parsePrefixBlockLayout_eq h.nonempty (by unfold maxUInt32 at hcount ⊢; omega),
    checkRestarts_block h (restartsOf es).length 0 0 (Nat.zero_add _)
      (fun h0 => absurd h0 (by decide)), ok_bind]
  rfl

theorem decodeBlockPayload_block (es : List VersionedEntry) :
    decodeBlockPayload (encodeBlock es) = .ok (blockPayload es) := by
  have hlen := encodeBlock_length es
  have hpayload := blockPayload_length es
  have hoff : 16 ≤ offsetAfter es := Nat.le_add_right _ _
  have hmagic : decodeFixed32 (encodeBlock es) = kDataBlockMagic := by
    rw [encodeBlock_eq, blockPayload, blockHeader]
    simp only [List.append_assoc]
    rw [decodeFixed32_encode (by decide)]
  have h5 : (encodeBlock es).length - kBlockTrailerSize = (blockPayload es).length := by
    rw [hlen]
    rfl
  have hassoc : encodeBlock es = (blockPayload es ++ [0]) ++
      encodeFixed32 (crc32 (blockPayload es ++ [0])) := by
    rw [encodeBlock_eq, List.append_assoc, List.singleton_append]
  have h4 : (encodeBlock es).length - 4 = (blockPayload es ++ [0]).length := by
    rw [hlen, List.length_append, List.length_singleton]
    rfl
  have htype : (encodeBlock es)[(encodeBlock es).length - kBlockTrailerSize]? =
      some kNoCompression := by
    rw [h5, encodeBlock_eq, List.getElem?_append_right (Nat.le_refl _), Nat.sub_self]
    rfl
  have hcrc : crc32 ((encodeBlock es).take ((encodeBlock es).length - 4)) =
      decodeFixed32 ((encodeBlock es).drop ((encodeBlock es).length - 4)) := by
    rw [h4, hassoc, List.take_left, List.drop_left, ← List.append_nil (encodeFixed32 _),
      decodeFixed32_encode (crc32_le _)]
  rw [decodeBlockPayload, require_of_true (decide_eq_true ⟨by unfold kBlockTrailerSize; omega, hmagic⟩),
    ok_bind, require_of_true (decide_eq_true htype), ok_bind, require_of_true (decide_eq_true hcrc),
    ok_bind, h5, encodeBlock_eq, List.take_left]
  rfl

/-! ## Blocks read back -/

theorem decodeRecords_block (h : RecordsFit es) (hpayload : layout.payload = blockPayload es)
    (hend : offsetAfter es ≤ layout.recordsEnd) (xs ys zs : List VersionedEntry)
    (hsplit : es = xs ++ (ys ++ zs)) :
    decodeRecords layout ys.length (offsetAfter xs) (keyBefore [] xs) =
      .ok (ys, offsetAfter (xs ++ ys)) := by
  induction ys generalizing xs with
  | nil =>
    rw [List.append_nil]
    rfl
  | cons e ys ih =>
    have hes : es = xs ++ e :: (ys ++ zs) := hsplit
    have hat := decodePrefixRecordAt_block h hes hpayload hend (Or.inl rfl)
    have hrest := ih (xs ++ [e]) (by rw [hes, List.append_assoc, List.singleton_append])
    rw [keyBefore_append] at hrest
    rw [List.length_cons, decodeRecords, hat, ok_bind]
    dsimp only
    rw [hrest, ok_bind, List.append_assoc, List.singleton_append]
    rfl

theorem decodeBlock_encodeBlock (h : BlockFits es) : decodeBlock (encodeBlock es) = .ok es := by
  rw [decodeBlock, decodeBlockPayload_block es, ok_bind, decodePrefixCompressedPayload,
    parsePrefixBlockLayout_block h, ok_bind]
  have hrecords : decodeRecords (blockLayout es) es.length (offsetAfter []) (keyBefore [] []) = _ :=
    decodeRecords_block h.recordsFit rfl le_rfl [] es [] (List.append_nil es).symm
  show (decodeRecords (blockLayout es) es.length (offsetAfter []) (keyBefore [] []) >>= _) = _
  rw [hrecords, ok_bind]
  dsimp only
  have hend : offsetAfter ([] ++ es) = (blockLayout es).recordsEnd := rfl
  rw [require_of_true (decide_eq_true hend), ok_bind]
  rfl

theorem parsePrefixBlockLayout_ok {payload : Bytes}
    (h : parsePrefixBlockLayout payload = .ok layout) :
    layout.payload = payload ∧
      layout.recordsEnd = payload.length -
        (decodeFixed32 (payload.drop (payload.length - 4)) * 4 + 4) ∧
      layout.recordCount = decodeFixed64 (payload.drop 8) := by
  rw [parsePrefixBlockLayout, bind_ok] at h
  obtain ⟨_, _, h⟩ := h
  rw [bind_ok] at h
  obtain ⟨_, _, h⟩ := h
  rw [bind_ok] at h
  obtain ⟨_, _, h⟩ := h
  rw [bind_ok] at h
  obtain ⟨_, _, h⟩ := h
  rw [bind_ok] at h
  obtain ⟨_, _, h⟩ := h
  cases h
  exact ⟨rfl, rfl, rfl⟩

/-- A written block that decodes decodes to what was written, whatever its restart offsets
have lost: the records are read one after the other and have to end where they should. -/
theorem decodeBlock_exact {found : List VersionedEntry} (h : RecordsFit es)
    (hdecode : decodeBlock (encodeBlock es) = .ok found) : found = es := by
  rw [decodeBlock, decodeBlockPayload_block es, ok_bind, decodePrefixCompressedPayload, bind_ok]
    at hdecode
  obtain ⟨layout, hlayout, hdecode⟩ := hdecode
  rw [bind_ok] at hdecode
  obtain ⟨⟨entries, ptr⟩, hrecords, hdecode⟩ := hdecode
  rw [bind_ok] at hdecode
  obtain ⟨_, hptr, hdecode⟩ := hdecode
  cases hdecode
  have hptr : ptr = layout.recordsEnd := of_decide_eq_true (require_ok hptr)
  obtain ⟨hpayload, hend, hcount⟩ := parsePrefixBlockLayout_ok hlayout
  have hlen := blockPayload_length es
  have hnumber : decodeFixed64 ((blockPayload es).drop 8) = es.length % 2 ^ 64 := by
    rw [show 8 = 4 + 4 from rfl, ← List.drop_drop, blockPayload, blockHeader, List.append_assoc,
      List.drop_left' (encodeFixed32_length _), List.append_assoc,
      List.drop_left' (encodeFixed32_length _), decodeFixed64_encode_mod]
  have hrestarts : decodeFixed32 ((blockPayload es).drop ((blockPayload es).length - 4)) ≤
      (restartsOf es).length := by
    have hfront : (blockHeader es.length ++ (records 0 [] es ++
        (restartsOf es).flatMap encodeFixed32)).length = (blockPayload es).length - 4 := by
      simp only [blockPayload, List.length_append, encodeFixed32_length]
      omega
    have hassoc : blockPayload es = (blockHeader es.length ++ (records 0 [] es ++
        (restartsOf es).flatMap encodeFixed32)) ++ (encodeFixed32 (restartsOf es).length ++ []) := by
      simp only [blockPayload, List.append_assoc, List.append_nil]
    rw [← hfront]
    conv_lhs => rw [hassoc]
    rw [List.drop_left, decodeFixed32_encode_mod]
    exact Nat.mod_le _ _
  have hcovers : offsetAfter es ≤ layout.recordsEnd := by omega
  have hle : layout.recordCount ≤ es.length := by
    rw [hcount, hnumber]
    exact Nat.mod_le _ _
  have hlength : (es.take layout.recordCount).length = layout.recordCount := by
    rw [List.length_take, Nat.min_eq_left hle]
  have hread := decodeRecords_block h hpayload hcovers [] (es.take layout.recordCount)
    (es.drop layout.recordCount) (List.take_append_drop _ es).symm
  rw [hlength] at hread
  have hsame : (es.take layout.recordCount, offsetAfter (es.take layout.recordCount)) =
      (found, ptr) := Except.ok.inj (hread.symm.trans hrecords)
  obtain ⟨hentries, hstop⟩ := Prod.mk.inj hsame
  have hrest : es.drop layout.recordCount = [] := by
    have hsplit := offsetAfter_append (es.take layout.recordCount) (es.drop layout.recordCount)
    rw [List.take_append_drop] at hsplit
    have hmin := mul_le_records_length (es.take layout.recordCount).length
      (keyBefore [] (es.take layout.recordCount)) (es.drop layout.recordCount)
    exact List.length_eq_zero_iff.mp (by omega)
  have hall := List.take_append_drop layout.recordCount es
  rw [hrest, List.append_nil] at hall
  exact hentries.symm.trans hall

theorem checkRestarts_fails (layout : PrefixBlockLayout) (count i previous : Nat) :
    Fails Status.IsCorruption (checkRestarts layout count i previous) := by
  induction count generalizing i previous with
  | zero => exact fails_ok ()
  | succ count ih => exact (fails_require _ ⟨_, rfl⟩).bind fun _ => ih _ _

theorem decodePrefixRecordAt_fails (layout : PrefixBlockLayout) (ptr : Nat) (previousKey : Bytes) :
    Fails Status.IsCorruption (decodePrefixRecordAt layout ptr previousKey) := by
  refine (fails_require _ ⟨_, rfl⟩).bind fun _ => (fails_require _ ⟨_, rfl⟩).bind fun _ => ?_
  dsimp only
  split
  · exact fails_ok _
  · split
    · exact fails_ok _
    · exact fails_error ⟨_, rfl⟩

theorem decodeRecords_fails (layout : PrefixBlockLayout) (count ptr : Nat) (previousKey : Bytes) :
    Fails Status.IsCorruption (decodeRecords layout count ptr previousKey) := by
  induction count generalizing ptr previousKey with
  | zero => exact fails_ok _
  | succ count ih =>
    exact (decodePrefixRecordAt_fails layout ptr previousKey).bind fun _ =>
      (ih _ _).bind fun _ => fails_ok _

theorem decodeBlockPayload_fails (block : Bytes) :
    Fails Status.IsCorruption (decodeBlockPayload block) :=
  (fails_require _ ⟨_, rfl⟩).bind fun _ => (fails_require _ ⟨_, rfl⟩).bind fun _ =>
    (fails_require _ ⟨_, rfl⟩).bind fun _ => fails_ok _

theorem parsePrefixBlockLayout_fails (payload : Bytes) :
    Fails Status.IsCorruption (parsePrefixBlockLayout payload) :=
  (fails_require _ ⟨_, rfl⟩).bind fun _ => (fails_require _ ⟨_, rfl⟩).bind fun _ =>
    (fails_require _ ⟨_, rfl⟩).bind fun _ => (fails_require _ ⟨_, rfl⟩).bind fun _ =>
      (checkRestarts_fails _ _ _ _).bind fun _ => fails_ok _

theorem decodeBlock_fails (block : Bytes) : Fails Status.IsCorruption (decodeBlock block) :=
  (decodeBlockPayload_fails block).bind fun payload =>
    (parsePrefixBlockLayout_fails payload).bind fun _ =>
      (decodeRecords_fails _ _ _ _).bind fun _ =>
        (fails_require _ ⟨_, rfl⟩).bind fun _ => fails_ok _

theorem restartKey_block (h : BlockFits es) (hk : k < (restartsOf es).length) :
    restartKey (blockLayout es) k = .ok (TableFile.restartKey es k) := by
  have hlt := restart_lt hk
  obtain ⟨e, he, hes⟩ := take_split es hlt
  have hlenTake : (es.take (16 * k)).length = 16 * k := by
    rw [List.length_take]
    omega
  have hmod : (es.take (16 * k)).length % 16 = 0 := by
    rw [hlenTake]
    exact Nat.mul_mod_right 16 k
  have hat : decodePrefixRecordAt (blockLayout es) (offsetAfter (es.take (16 * k))) [] = _ :=
    decodePrefixRecordAt_block h.recordsFit hes rfl le_rfl (Or.inr ⟨hmod, rfl⟩)
  have hkey : TableFile.restartKey es k = encodeInternalKey e.key e.sequence := by
    rw [TableFile.restartKey, kRestartInterval, he]
  have hcount : k < (blockLayout es).restartCount := hk
  rw [restartKey, require_of_true (decide_eq_true hcount), ok_bind, restartOffset_block h hk, hat,
    ok_bind, hkey]
  rfl

theorem restartSearch_block (h : BlockFits es) (target : Bytes) (fuel left right : Nat)
    (hright : right ≤ (restartsOf es).length) :
    restartSearch (blockLayout es) target fuel left right =
      .ok (TableFile.restartSearch es target fuel left right) := by
  induction fuel generalizing left right with
  | zero => rfl
  | succ fuel ih =>
    rw [restartSearch, TableFile.restartSearch]
    by_cases hlr : left < right
    · rw [if_pos hlr, if_pos hlr]
      dsimp only
      rw [restartKey_block h (by omega), ok_bind]
      split
      · exact ih _ _ hright
      · exact ih _ _ (by omega)
    · rw [if_neg hlr, if_neg hlr]

theorem scanRecords_block (h : BlockFits es) (key : Bytes) (readSequence fuel : Nat)
    (xs ys : List VersionedEntry) (hsplit : es = xs ++ ys)
    (hprevious : previousKey = keyBefore [] xs ∨ (xs.length % 16 = 0 ∧ previousKey = []))
    (hfuel : ys.length ≤ fuel) :
    scanRecords (blockLayout es) key readSequence fuel (offsetAfter xs) previousKey =
      .ok (TableFile.scanBlock key readSequence ys) := by
  induction ys generalizing xs previousKey fuel with
  | nil =>
    rw [List.append_nil] at hsplit
    subst hsplit
    cases fuel with
    | zero => rfl
    | succ fuel =>
      have hend : ¬ offsetAfter es < (blockLayout es).recordsEnd := Nat.lt_irrefl _
      rw [scanRecords, if_neg hend]
      rfl
  | cons e ys ih =>
    cases fuel with
    | zero => simp at hfuel
    | succ fuel =>
      have hat : decodePrefixRecordAt (blockLayout es) (offsetAfter xs) previousKey = _ :=
        decodePrefixRecordAt_block h.recordsFit hsplit rfl le_rfl hprevious
      have hinside : offsetAfter xs < (blockLayout es).recordsEnd := by
        have := offsetAfter_cons_le xs ys e
        show offsetAfter xs < offsetAfter es
        rw [hsplit]
        omega
      have hrest := ih fuel (xs ++ [e]) (by rw [hsplit, List.append_assoc, List.singleton_append])
        (Or.inl (keyBefore_append [] xs e).symm) (by simpa using hfuel)
      rw [scanRecords, if_pos hinside, hat, ok_bind, TableFile.scanBlock]
      dsimp only
      split
      · rfl
      · split
        · rfl
        · exact hrest

/-- A lookup on the bytes of a block is the lookup on its entries. -/
theorem getFromBlock_encodeBlock (h : BlockFits es) (key : Bytes) (readSequence : Nat) :
    getFromBlock (encodeBlock es) key readSequence =
      .ok (TableFile.getFromBlock es key readSequence) := by
  have hpos : 0 < es.length := List.length_pos_of_ne_nil h.nonempty
  have hcount : (es.length + kRestartInterval - 1) / kRestartInterval = (restartsOf es).length := by
    rw [restartsOf_length]
    rfl
  have hrestarts := restartsOf_length es
  rw [getFromBlock, decodeBlockPayload_block es, ok_bind, parsePrefixBlockLayout_block h, ok_bind]
  show (restartSearch (blockLayout es) (encodeInternalKey key readSequence) (restartsOf es).length 0
    (restartsOf es).length >>= _) = _
  rw [restartSearch_block h _ _ _ _ (Nat.le_refl _), ok_bind]
  dsimp only
  simp only [TableFile.getFromBlock, hcount]
  have hbound := TableFile.restartSearch_le es (encodeInternalKey key readSequence)
    (restartsOf es).length (Nat.zero_le (restartsOf es).length)
  generalize TableFile.restartSearch es (encodeInternalKey key readSequence)
    (restartsOf es).length 0 (restartsOf es).length = left at hbound
  generalize hi : (if left = 0 then 0 else left - 1) = i
  have hik : i < (restartsOf es).length := by
    split at hi
    · omega
    · omega
  have hlenTake : (es.take (16 * i)).length = 16 * i := by
    have := restart_lt hik
    rw [List.length_take]
    omega
  rw [restartOffset_block h hik]
  refine scanRecords_block h key readSequence _ (es.take (16 * i)) (es.drop (16 * i))
    (List.take_append_drop _ _).symm (Or.inr ⟨?_, rfl⟩) ?_
  · rw [hlenTake]
    exact Nat.mul_mod_right 16 i
  · have hrecords := mul_le_records_length 0 [] es
    have hlen := blockPayload_length es
    have hoff : offsetAfter es = 16 + (records 0 [] es).length := rfl
    rw [List.length_drop]
    omega

end KvMem.SSTable
