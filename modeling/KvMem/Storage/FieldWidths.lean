import KvMem.Storage.TableReader
import KvMem.Storage.WriteBatch

/-! # Fields of 32 bits

`EncodeBlock` and `CreateFromEntries` cast sizes and offsets to 32 bits without a
check. Keys and values come from write batches, so their sizes fit. The offset of a
restart point counts all bytes in front of it, and nothing bounds these: a block is
extended by every version of its last key. A block whose offsets fit is read back,
however long it is; a truncated offset makes the whole block unreadable.
-/

namespace KvMem.SSTable

open Parsing

/-! ## What the fields stand for -/

/-- The 32-bit fields of a written block: the sizes of every record, the offset of every
restart point and the number of these. -/
structure BlockExact (es : List VersionedEntry) : Prop where
  shared : ∀ xs e ys, es = xs ++ e :: ys →
    decodeFixed32 ((encodeBlock es).drop (offsetAfter xs)) =
      sharedAt xs.length (keyBefore [] xs) e
  unshared : ∀ xs e ys, es = xs ++ e :: ys →
    decodeFixed32 ((encodeBlock es).drop (offsetAfter xs + 4)) =
      e.key.length - sharedAt xs.length (keyBefore [] xs) e
  valueSize : ∀ xs e ys, es = xs ++ e :: ys →
    decodeFixed32 ((encodeBlock es).drop (offsetAfter xs + 8)) = e.value.length
  restart : ∀ k, k < (restartsOf es).length →
    decodeFixed32 ((encodeBlock es).drop (offsetAfter es + k * 4)) = offsetAfter (es.take (16 * k))
  restartCount :
    decodeFixed32 ((encodeBlock es).drop (offsetAfter es + (restartsOf es).length * 4)) =
      (restartsOf es).length

def IndexExact (index : List IndexEntry) : Prop :=
  ∀ front item back, index = front ++ item :: back →
    decodeFixed32 ((encodeIndex index).drop (8 + (front.flatMap indexEntryBytes).length)) =
      item.lastInternalKey.length

structure TableExact (t : TableFile) : Prop where
  blocks : ∀ b ∈ t.blocks, BlockExact b
  index : IndexExact t.index

/-! ## Fields as they are found -/

variable {e : VersionedEntry} {es : List VersionedEntry}

theorem encodeBlock_drop_record {xs ys : List VersionedEntry} (h : es = xs ++ e :: ys) :
    ∃ back, (encodeBlock es).drop (offsetAfter xs) =
      recordBytes (sharedAt xs.length (keyBefore [] xs) e) e ++ back := by
  obtain ⟨back, hsplit⟩ := blockPayload_split xs ys e
  have hfront : (blockHeader (xs ++ e :: ys).length ++ records 0 [] xs).length = offsetAfter xs := by
    rw [List.length_append, blockHeader_length, offsetAfter]
  subst h
  refine ⟨back ++ 0 :: encodeFixed32 (crc32 (blockPayload (xs ++ e :: ys) ++ [0])), ?_⟩
  rw [encodeBlock_eq, hsplit, List.append_assoc, List.drop_left' hfront, List.append_assoc]

theorem restart_field (es : List VersionedEntry) {k : Nat} (hk : k < (restartsOf es).length) :
    decodeFixed32 ((encodeBlock es).drop (offsetAfter es + k * 4)) =
      offsetAfter (es.take (16 * k)) % 2 ^ 32 := by
  have hfront : (blockHeader es.length ++ records 0 [] es).length = offsetAfter es := by
    rw [List.length_append, blockHeader_length, offsetAfter]
  rw [encodeBlock_eq, blockPayload, ← List.append_assoc, List.append_assoc, ← List.drop_drop,
    List.drop_left' hfront, List.append_assoc]
  exact decodeFixed32_flatMap _ (restartsOf_get hk)

theorem restartCount_field (es : List VersionedEntry) :
    decodeFixed32 ((encodeBlock es).drop (offsetAfter es + (restartsOf es).length * 4)) =
      (restartsOf es).length % 2 ^ 32 := by
  have hfront : ((blockHeader es.length ++ records 0 [] es) ++
      (restartsOf es).flatMap encodeFixed32).length =
        offsetAfter es + (restartsOf es).length * 4 := by
    rw [List.length_append, List.length_append, blockHeader_length, offsetAfter,
      flatMap_encodeFixed32_length]
    omega
  obtain ⟨back, hback⟩ : ∃ back, encodeBlock es = blockPayload es ++ back := ⟨_, encodeBlock_eq es⟩
  have hassoc : encodeBlock es = ((blockHeader es.length ++ records 0 [] es) ++
      (restartsOf es).flatMap encodeFixed32) ++ (encodeFixed32 (restartsOf es).length ++ back) := by
    rw [hback, blockPayload]
    simp only [List.append_assoc]
  rw [hassoc, List.drop_left' hfront, decodeFixed32_encode_mod]

/-! ## The last restart point -/

/-- Where the last group of records of a block starts. -/
def lastRestart (es : List VersionedEntry) : Nat :=
  offsetAfter (es.take (16 * ((es.length - 1) / 16)))

theorem lastRestart_mem (hne : es ≠ []) : lastRestart es ∈ restartsOf es := by
  have hpos : 0 < es.length := List.length_pos_of_ne_nil hne
  have hlast : (es.length - 1) / 16 < (restartsOf es).length := by
    rw [restartsOf_length]
    omega
  exact List.mem_of_getElem? (restartsOf_get hlast)

theorem restart_le_last {w : Nat} (hw : w ∈ restartsOf es) : w ≤ lastRestart es := by
  obtain ⟨k, hk, rfl⟩ := List.mem_map.mp hw
  rw [List.mem_range] at hk
  have htake : es.take (16 * k) = (es.take (16 * ((es.length - 1) / 16))).take (16 * k) := by
    rw [List.take_take, Nat.min_eq_left (by omega)]
  show offsetAfter (es.take (16 * k)) ≤ lastRestart es
  rw [htake]
  exact offsetAfter_take_le _ _

theorem blockExact_iff (hne : es ≠ []) (hkeys : ∀ e ∈ es, e.key.length ≤ maxUInt32)
    (hvalues : ∀ e ∈ es, e.value.length ≤ maxUInt32) :
    BlockExact es ↔ lastRestart es ≤ maxUInt32 := by
  constructor
  · intro h
    obtain ⟨k, hk⟩ := List.mem_iff_getElem?.mp (lastRestart_mem hne)
    have hlt := (List.getElem?_eq_some_iff.mp hk).1
    have hfield := h.restart k hlt
    rw [restart_field es hlt] at hfield
    rw [restartsOf_get hlt] at hk
    rw [← Option.some.inj hk, ← hfield]
    unfold maxUInt32
    omega
  · intro hlast
    have hrestarts : ∀ w ∈ restartsOf es, w ≤ maxUInt32 := fun w hw => (restart_le_last hw).trans hlast
    have hmod : ∀ {v : Nat}, v ≤ maxUInt32 → v % 2 ^ 32 = v := by
      intro v hv
      unfold maxUInt32 at hv
      exact Nat.mod_eq_of_lt (by omega)
    have hshared : ∀ xs e ys, es = xs ++ e :: ys →
        sharedAt xs.length (keyBefore [] xs) e ≤ e.key.length := by
      intro xs e ys _
      unfold sharedAt
      split
      · exact Nat.zero_le _
      · have hlen := congrArg List.length (sharedLength_take (keyBefore [] xs) e.key)
        have hle := sharedLength_le_left (keyBefore [] xs) e.key
        rw [List.length_take, List.length_take] at hlen
        omega
    have hmem : ∀ xs e ys, es = xs ++ e :: ys → e ∈ es := by
      rintro xs e ys rfl
      exact List.mem_append_right _ List.mem_cons_self
    refine ⟨?_, ?_, ?_, ?_, ?_⟩
    · intro xs e ys hes
      obtain ⟨back, hdrop⟩ := encodeBlock_drop_record hes
      rw [hdrop, recordBytes, List.append_assoc, decodeFixed32_encode_mod]
      exact hmod ((hshared xs e ys hes).trans (hkeys e (hmem xs e ys hes)))
    · intro xs e ys hes
      obtain ⟨back, hdrop⟩ := encodeBlock_drop_record hes
      rw [← List.drop_drop, hdrop, recordBytes, List.append_assoc,
        List.drop_left' (encodeFixed32_length _), List.append_assoc, decodeFixed32_encode_mod,
        List.length_drop]
      exact hmod ((Nat.sub_le _ _).trans (hkeys e (hmem xs e ys hes)))
    · intro xs e ys hes
      obtain ⟨back, hdrop⟩ := encodeBlock_drop_record hes
      rw [show 8 = 4 + 4 from rfl, ← Nat.add_assoc, ← List.drop_drop, ← List.drop_drop, hdrop,
        recordBytes, List.append_assoc, List.drop_left' (encodeFixed32_length _), List.append_assoc,
        List.drop_left' (encodeFixed32_length _), List.append_assoc, decodeFixed32_encode_mod]
      exact hmod (hvalues e (hmem xs e ys hes))
    · intro k hk
      rw [restart_field es hk]
      exact hmod (hrestarts _ (List.mem_of_getElem? (restartsOf_get hk)))
    · rw [restartCount_field]
      refine hmod ?_
      -- a restart point stands behind at least sixteen records of 21 bytes
      have hrecords := mul_le_records_length 0 [] (es.take (16 * ((es.length - 1) / 16)))
      have hoff : lastRestart es =
          16 + (records 0 [] (es.take (16 * ((es.length - 1) / 16)))).length := rfl
      rw [List.length_take] at hrecords
      rw [restartsOf_length]
      unfold maxUInt32 at hlast ⊢
      omega

/-! ## Tables -/

theorem indexExact_of_le {index : List IndexEntry}
    (h : ∀ item ∈ index, item.lastInternalKey.length ≤ maxUInt32) : IndexExact index := by
  intro front item back hindex
  have hitem := h item (hindex ▸ List.mem_append_right _ List.mem_cons_self)
  have hbytes : encodeIndex index = encodeFixed64 index.length ++
      (front.flatMap indexEntryBytes ++ (indexEntryBytes item ++ back.flatMap indexEntryBytes)) := by
    rw [hindex, ← List.flatMap_cons, ← List.flatMap_append]
    rfl
  rw [hbytes, ← List.drop_drop, List.drop_left' (encodeFixed64_length _), List.drop_left,
    indexEntryBytes, List.append_assoc, decodeFixed32_encode hitem]

section Table

variable {entries : List VersionedEntry} (blockSize bits : Nat)

variable {b : List VersionedEntry}

theorem tableOf_block_mem (hb : b ∈ (tableOf entries blockSize bits).blocks) :
    ∀ e ∈ b, e ∈ entries := by
  intro e he
  rw [← tableOf_entries entries blockSize bits]
  exact List.mem_flatten.mpr ⟨b, hb, he⟩

theorem tableOf_block_ne_nil (hb : b ∈ (tableOf entries blockSize bits).blocks) : b ≠ [] :=
  (cutBlocks_spec blockSize entries.length entries (Nat.le_refl _)).2 b hb

theorem tableOf_indexExact
    (hsize : ∀ e ∈ entries, WriteBatch.kOperationHeaderSize + e.key.length + e.value.length ≤ maxUInt32) :
    IndexExact (tableOf entries blockSize bits).index := by
  refine indexExact_of_le fun item hitem => ?_
  have hkeys := indexBlocks_keys 0 (tableOf entries blockSize bits).blocks
  have hmem : item.lastInternalKey ∈ (tableOf entries blockSize bits).blocks.map lastKeyOf := by
    rw [← hkeys]
    exact List.mem_map.mpr ⟨item, hitem, rfl⟩
  obtain ⟨b, hb, hkey⟩ := List.mem_map.mp hmem
  rw [← hkey, lastKeyOf]
  cases hlast : b.getLast? with
  | none => exact Nat.zero_le _
  | some e =>
    have hfits := hsize e (tableOf_block_mem blockSize bits hb e (List.mem_of_getLast? hlast))
    unfold WriteBatch.kOperationHeaderSize at hfits
    simp only [encodeInternalKey, List.length_append, List.length_cons, FixedWidth.beBytes_length]
    omega

/-- In the table of any run of entries that a write batch can hold, every 32-bit field
holds what it stands for and every block is read back, by a scan and by a lookup,
exactly if the last restart point of every block starts below 2^32. -/
theorem tableOf_exact_iff (hentries : ∀ e ∈ entries, EntryOk e)
    (hsize : ∀ e ∈ entries, WriteBatch.kOperationHeaderSize + e.key.length + e.value.length ≤ maxUInt32) :
    (TableExact (tableOf entries blockSize bits) ∧
      ∀ b ∈ (tableOf entries blockSize bits).blocks, decodeBlock (encodeBlock b) = .ok b ∧
        ∀ key readSequence, getFromBlock (encodeBlock b) key readSequence =
          .ok (TableFile.getFromBlock b key readSequence)) ↔
    ∀ b ∈ (tableOf entries blockSize bits).blocks, lastRestart b ≤ maxUInt32 := by
  have hkeys : ∀ b ∈ (tableOf entries blockSize bits).blocks, ∀ e ∈ b,
      e.key.length ≤ maxUInt32 ∧ e.value.length ≤ maxUInt32 := by
    intro b hb e he
    have hfits := hsize e (tableOf_block_mem blockSize bits hb e he)
    omega
  have hexact : ∀ b ∈ (tableOf entries blockSize bits).blocks,
      (BlockExact b ↔ lastRestart b ≤ maxUInt32) := fun b hb =>
    blockExact_iff (tableOf_block_ne_nil blockSize bits hb) (fun e he => (hkeys b hb e he).1)
      fun e he => (hkeys b hb e he).2
  constructor
  · rintro ⟨htable, _⟩ b hb
    exact (hexact b hb).mp (htable.blocks b hb)
  · intro hlast
    refine ⟨⟨fun b hb => (hexact b hb).mpr (hlast b hb), tableOf_indexExact blockSize bits hsize⟩, ?_⟩
    intro b hb
    have hfits : BlockFits b :=
      ⟨fun e he => hentries e (tableOf_block_mem blockSize bits hb e he),
        fun e he => (hkeys b hb e he).1, fun e he => (hkeys b hb e he).2,
        fun w hw => (restart_le_last hw).trans (hlast b hb),
        tableOf_block_ne_nil blockSize bits hb⟩
    exact ⟨decodeBlock_encodeBlock hfits, getFromBlock_encodeBlock hfits⟩

end Table

theorem tableOf_exact_iff_twoBlocks : TableExact (tableOf twoBlocks 1 10) := by
  have hentries : ∀ e ∈ twoBlocks, e.sequence ≤ maxUInt64 ∧ (e.deleted = true → e.value = []) := by
    decide +kernel
  exact ((tableOf_exact_iff 1 10 (fun e he => ⟨(hentries e he).1, (hentries e he).2⟩)
    (by decide +kernel)).mpr (by decide +kernel)).1

/-! ## Many versions of one key -/

/-- All versions of one key go to one block, whatever the size limit. -/
theorem takeBlock_oneKey (blockSize : Nat) {key : Bytes} (hne : es ≠ [])
    (hkey : ∀ e ∈ es, e.key = key) : takeBlock blockSize es = (es, []) := by
  have happ := takeBySize_append blockSize 8 es
  have hblock := takeBySize_ne_nil blockSize 8 hne
  rw [takeBlock]
  generalize takeBySize blockSize 8 es = parts at happ hblock
  obtain ⟨block, rest⟩ := parts
  dsimp only at happ hblock ⊢
  obtain ⟨last, hlast⟩ : ∃ last, block.getLast? = some last :=
    ⟨_, List.getLast?_eq_getLast_of_ne_nil hblock⟩
  have hsame : ∀ e ∈ rest, decide (e.key = last.key) = true := by
    intro e he
    rw [hkey e (happ ▸ List.mem_append_right _ he),
      hkey last (happ ▸ List.mem_append_left _ (List.mem_of_getLast? hlast))]
    exact decide_eq_true rfl
  rw [hlast]
  dsimp only
  rw [List.takeWhile_eq_self_iff.mpr hsame, List.dropWhile_eq_nil_iff.mpr hsame, happ]

theorem tableOf_blocks_oneKey (blockSize bits : Nat) {key : Bytes} (hne : es ≠ [])
    (hkey : ∀ e ∈ es, e.key = key) : (tableOf es blockSize bits).blocks = [es] := by
  show cutBlocks blockSize es.length es = [es]
  cases es with
  | nil => exact absurd rfl hne
  | cons e es =>
    rw [List.length_cons, cutBlocks, if_neg hne, takeBlock_oneKey blockSize hne hkey]
    dsimp only
    cases es.length with
    | zero => rfl
    | succ fuel => rfl

theorem records_repeated_length {key : Bytes} {size : Nat} (es : List VersionedEntry) (position : Nat)
    (hpos : 0 < position) (hend : position + es.length ≤ 16)
    (h : ∀ e ∈ es, e.key = key ∧ e.value.length = size) :
    (records position key es).length = es.length * (21 + size) := by
  induction es generalizing position with
  | nil => simp [records]
  | cons e es ih =>
    rw [List.length_cons] at hend
    obtain ⟨hkey, hvalue⟩ := h e List.mem_cons_self
    have hshared : sharedAt position key e = e.key.length := by
      have hself : ∀ k : Bytes, sharedLength k k = k.length := by
        intro k
        induction k with
        | nil => rfl
        | cons b k ih => rw [sharedLength, if_pos rfl, ih, List.length_cons]
      rw [sharedAt, if_neg (by unfold kRestartInterval; omega), hkey, hself]
    have hrest := ih (position + 1) (by omega) (by omega)
      fun x hx => h x (List.mem_cons_of_mem _ hx)
    rw [records, List.length_append, recordBytes_length, hshared, List.drop_length, hvalue, hkey,
      hrest, List.length_cons, Nat.succ_mul, List.length_nil]
    omega

def versionsOf (value : Bytes) : List VersionedEntry :=
  (List.range 17).map fun i => ⟨ascii "k", 17 - i, value, false⟩

theorem mem_versionsOf {value : Bytes} (h : e ∈ versionsOf value) :
    e.key = ascii "k" ∧ e.value = value ∧ e.sequence ≤ 17 ∧ e.deleted = false := by
  obtain ⟨i, _, rfl⟩ := List.mem_map.mp h
  exact ⟨rfl, rfl, Nat.sub_le _ _, rfl⟩

theorem versionsOf_ne_nil (value : Bytes) : versionsOf value ≠ [] := List.cons_ne_nil _ _

theorem versionsOf_sorted (value : Bytes) : SortedRun (versionsOf value) := by
  unfold SortedRun versionsOf
  rw [List.pairwise_map]
  refine (List.pairwise_lt_range).imp_of_mem ?_
  intro i j hi hj hlt
  rw [List.mem_range] at hi hj
  exact Or.inl (Or.inr ⟨rfl, by show 17 - j < 17 - i; omega⟩)

theorem restartsOf_versionsOf_length (value : Bytes) :
    (restartsOf (versionsOf value)).length = 2 := by
  rw [restartsOf_length, show (versionsOf value).length = 17 from rfl]

theorem checkCreate_versionsOf (value : Bytes) : checkCreate (versionsOf value) 10 = .ok := by
  have hkeys : (uniqueKeys (versionsOf value)).length ≤ 17 :=
    (List.dedup_sublist _).length_le.trans (by simp [versionsOf])
  have hlimit : 17 ≤ (maxUInt32 - 7) / 10 := by decide
  rw [checkCreate, if_neg (by omega)]

theorem offsetAfter_versionsOf (value : Bytes) :
    offsetAfter ((versionsOf value).take 16) = 353 + 16 * value.length := by
  have htake : (versionsOf value).take 16 = ⟨ascii "k", 17, value, false⟩ ::
      (List.range' 1 15).map fun i => ⟨ascii "k", 17 - i, value, false⟩ := rfl
  have hrest : (records 1 (ascii "k") ((List.range' 1 15).map fun i =>
      (⟨ascii "k", 17 - i, value, false⟩ : VersionedEntry))).length =
        ((List.range' 1 15).map fun i =>
          (⟨ascii "k", 17 - i, value, false⟩ : VersionedEntry)).length * (21 + value.length) := by
    refine records_repeated_length _ 1 (by decide) (by simp) fun e he => ?_
    obtain ⟨i, _, rfl⟩ := List.mem_map.mp he
    exact ⟨rfl, rfl⟩
  have hkey : (ascii "k").length = 1 := by decide
  rw [htake, offsetAfter, records, List.length_append, recordBytes_length]
  have hzero : sharedAt 0 [] (⟨ascii "k", 17, value, false⟩ : VersionedEntry) = 0 := rfl
  rw [hzero, List.drop_zero]
  dsimp only
  rw [Nat.zero_add, hrest, hkey, List.length_map, List.length_range']
  omega

theorem blockPayload_versionsOf_drop (value : Bytes) (n : Nat) (hn : n ≤ value.length) :
    ∃ back, (blockPayload (versionsOf value)).drop (38 + n) = value.drop n ++ back := by
  obtain ⟨back, hsplit⟩ := blockPayload_split [] ((versionsOf value).drop 1)
    ⟨ascii "k", 17, value, false⟩
  have hes : [] ++ ⟨ascii "k", 17, value, false⟩ :: (versionsOf value).drop 1 = versionsOf value := rfl
  rw [hes] at hsplit
  have hrecord : recordBytes (sharedAt ([] : List VersionedEntry).length (keyBefore [] [])
      ⟨ascii "k", 17, value, false⟩) ⟨ascii "k", 17, value, false⟩ =
        (encodeFixed32 0 ++ (encodeFixed32 1 ++ (encodeFixed32 value.length ++
          (1 :: (encodeFixed64 17 ++ ascii "k"))))) ++ value := by
    show encodeFixed32 0 ++ (encodeFixed32 1 ++ (encodeFixed32 value.length ++
      (1 :: (encodeFixed64 17 ++ (ascii "k" ++ value))))) = _
    simp only [List.append_assoc, List.cons_append]
  have hfront : ((blockHeader (versionsOf value).length ++ records 0 [] []) ++
      (encodeFixed32 0 ++ (encodeFixed32 1 ++ (encodeFixed32 value.length ++
        (1 :: (encodeFixed64 17 ++ ascii "k")))))).length = 38 := by
    have hkey : (ascii "k").length = 1 := by decide
    simp only [List.length_append, List.length_cons, blockHeader_length, encodeFixed32_length,
      encodeFixed64_length, hkey, records, List.length_nil]
  refine ⟨back, ?_⟩
  rw [hsplit, hrecord, List.append_assoc _ value back, ← List.append_assoc, ← List.drop_drop,
    List.drop_left' hfront, List.drop_append_of_le_length hn]

/-- The truncated offset points into the first value; unless that value has four zero
bytes there, the block is rejected. -/
theorem parsePrefixBlockLayout_versionsOf {value : Bytes} (hlen : value.length = 2 ^ 28)
    (hbytes : decodeFixed32 (value.drop 315) ≠ 0) :
    parsePrefixBlockLayout (blockPayload (versionsOf value)) =
      .error (.corruption "invalid prefix-compressed SSTable restart offset") := by
  have hlength : (versionsOf value).length = 17 := rfl
  have hcount := restartsOf_versionsOf_length value
  have hfirst : (blockLayout (versionsOf value)).restartOffset 0 = 16 :=
    restartOffset_mod (versionsOf value) (by omega) (by decide)
  have hsecond : (blockLayout (versionsOf value)).restartOffset 1 = 353 := by
    rw [restartOffset_mod (versionsOf value) (by omega) (by decide), offsetAfter_versionsOf, hlen]
    decide
  have hinside : decodeFixed32 ((blockPayload (versionsOf value)).drop 353) ≠ 0 := by
    obtain ⟨back, hdrop⟩ := blockPayload_versionsOf_drop value 315 (by omega)
    have hlong : 4 ≤ (value.drop 315).length := by
      rw [List.length_drop]
      omega
    rw [show 353 = 38 + 315 from rfl, hdrop, decodeFixed32, List.take_append_of_le_length hlong]
    exact hbytes
  have hend : 37 ≤ (blockLayout (versionsOf value)).recordsEnd := by
    have hrecords := mul_le_records_length 0 [] (versionsOf value)
    show 37 ≤ 16 + (records 0 [] (versionsOf value)).length
    omega
  have hzero : decodeFixed32 ((blockLayout (versionsOf value)).payload.drop 16) = 0 :=
    decodeFixed32_restart (i := 0) (by omega)
  rw [parsePrefixBlockLayout_eq (versionsOf_ne_nil value) (by rw [hcount]; decide), hcount,
    checkRestarts, hfirst, require_of_true (decide_eq_true ⟨le_rfl, by omega, fun _ => rfl, by omega, hzero⟩), ok_bind,
    checkRestarts, hsecond, require, if_neg (fun h => hinside (of_decide_eq_true h).2.2.2.2)]
  rfl

theorem decodeFixed32_drop_replicate {count n : Nat} (h : n + 4 ≤ count) :
    decodeFixed32 ((List.replicate count (1 : Byte)).drop n) ≠ 0 := by
  rw [List.drop_replicate, decodeFixed32, List.take_replicate, Nat.min_eq_left (by omega)]
  decide

section Unreadable

variable {value : Bytes} (hlen : value.length = 2 ^ 28)

include hlen

theorem versionsOf_admissible : ∀ e ∈ versionsOf value,
    WriteBatch.kOperationHeaderSize + e.key.length + e.value.length ≤ maxUInt32 := by
  intro e he
  obtain ⟨hkey, hvalue, _⟩ := mem_versionsOf he
  have hone : (ascii "k").length = 1 := by decide
  rw [hkey, hvalue, hlen, hone]
  unfold WriteBatch.kOperationHeaderSize maxUInt32
  omega

theorem versionsOf_restart : offsetAfter ((versionsOf value).take 16) = 2 ^ 32 + 353 := by
  rw [offsetAfter_versionsOf, hlen]
  omega

theorem versionsOf_restart_field :
    decodeFixed32 ((encodeBlock (versionsOf value)).drop (offsetAfter (versionsOf value) + 1 * 4)) =
      353 := by
  have hcount := restartsOf_versionsOf_length value
  rw [restart_field (versionsOf value) (by omega), versionsOf_restart hlen]
  decide

theorem decodeBlock_versionsOf (hbytes : decodeFixed32 (value.drop 315) ≠ 0) :
    decodeBlock (encodeBlock (versionsOf value)) =
      .error (.corruption "invalid prefix-compressed SSTable restart offset") := by
  rw [decodeBlock, decodeBlockPayload_block, ok_bind, decodePrefixCompressedPayload,
    parsePrefixBlockLayout_versionsOf hlen hbytes]
  rfl

theorem getFromBlock_versionsOf (hbytes : decodeFixed32 (value.drop 315) ≠ 0) (key : Bytes)
    (readSequence : Nat) :
    getFromBlock (encodeBlock (versionsOf value)) key readSequence =
      .error (.corruption "invalid prefix-compressed SSTable restart offset") := by
  rw [getFromBlock, decodeBlockPayload_block, ok_bind, parsePrefixBlockLayout_versionsOf hlen hbytes]
  rfl

end Unreadable

def longValue : Bytes := List.replicate (2 ^ 28) 1

/-- Seventeen versions with values of 2^28 bytes: the table is written without an error,
in one block at any size limit; its second restart offset, 2^32 + 353, is stored as
353, and neither a scan nor a lookup can read the block. -/
theorem tableOf_truncates_restart :
    SortedRun (versionsOf longValue) ∧
    (∀ e ∈ versionsOf longValue,
      WriteBatch.kOperationHeaderSize + e.key.length + e.value.length ≤ maxUInt32) ∧
    checkCreate (versionsOf longValue) 10 = .ok ∧
    (tableOf (versionsOf longValue) 4096 10).blocks = [versionsOf longValue] ∧
    offsetAfter ((versionsOf longValue).take 16) = 2 ^ 32 + 353 ∧
    decodeFixed32 ((encodeBlock (versionsOf longValue)).drop
      (offsetAfter (versionsOf longValue) + 1 * 4)) = 353 ∧
    decodeBlock (encodeBlock (versionsOf longValue)) =
      .error (.corruption "invalid prefix-compressed SSTable restart offset") ∧
    getFromBlock (encodeBlock (versionsOf longValue)) (ascii "k") 17 =
      .error (.corruption "invalid prefix-compressed SSTable restart offset") := by
  have hlen : longValue.length = 2 ^ 28 := List.length_replicate
  have hbytes : decodeFixed32 (longValue.drop 315) ≠ 0 := decodeFixed32_drop_replicate (by omega)
  have hkey : ∀ e ∈ versionsOf longValue, e.key = ascii "k" := fun e he => (mem_versionsOf he).1
  exact ⟨versionsOf_sorted longValue, versionsOf_admissible hlen, checkCreate_versionsOf longValue,
    tableOf_blocks_oneKey 4096 10 (versionsOf_ne_nil longValue) hkey, versionsOf_restart hlen,
    versionsOf_restart_field hlen, decodeBlock_versionsOf hlen hbytes,
    getFromBlock_versionsOf hlen hbytes (ascii "k") 17⟩

end KvMem.SSTable
