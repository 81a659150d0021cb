import KvMem.Storage.Damage
import KvMem.Storage.Wal

/-! # Damaged log records

What the reader answers on a record with one inverted bit and anything behind it.
The fields are checked in a fixed order before the checksum is known: only an
inverted bit of the payload size can make a record that is not the last one look
torn, namely when the new size reaches behind the end of the file.
-/

namespace KvMem.Wal

open RecordLog

def Detects (front : Front Byte WALBatchRecord Status) : Prop :=
  ∃ message, front = .bad (.corruption message)

/-- The offset of the payload size in a record, and the offset behind it. -/
def kPayloadSizeOffset : Nat := 17

def kPayloadSizeEnd : Nat := 21

/-- The flip at offset `i` of the record turns its payload size into one larger
than the bytes that follow the header in the file. -/
def SizeRunsPastEnd (r : WALBatchRecord) (rest : Bytes) (i : Nat) (bit : Fin 8) : Prop :=
  kPayloadSizeOffset ≤ i ∧ i < kPayloadSizeEnd ∧
    (r.batch.encode ++ rest).length <
      decodeFixed32 (flipBit (i - kPayloadSizeOffset) bit (encodeFixed32 r.batch.encode.length))

instance (r : WALBatchRecord) (rest : Bytes) (i : Nat) (bit : Fin 8) :
    Decidable (SizeRunsPastEnd r rest i bit) := by
  unfold SizeRunsPastEnd
  infer_instance

/-! ## One record, damaged -/

section Record

variable {r : WALBatchRecord} (h : Appendable r)

include h

variable {i : Nat}

theorem detects_flip_fields (bit : Fin 8) (hi : i < 13) (rest : Bytes) :
    Detects (readBatchRecord (flipBit i bit (head r) ++ (checksum r ++ (r.batch.encode ++ rest)))) := by
  have hlen : (flipBit i bit (head r)).length = 17 := by simp
  rw [readBatchRecord_parts _ hlen (checksum_length r)]
  split
  · exact ⟨_, rfl⟩
  · split
    · exact ⟨_, rfl⟩
    · have hsize : decodeFixed32 ((flipBit i bit (head r)).drop 13) = r.batch.encode.length := by
        rw [flipBit_drop_of_lt bit hi (by simp), (head_fields h).2.2.2]
      have hroom : ¬ r.batch.encode.length > (r.batch.encode ++ rest).length := by
        rw [List.length_append]
        omega
      have hcrc : crc32 (flipBit i bit (head r) ++ r.batch.encode) ≠
          crc32 (head r ++ r.batch.encode) := by
        rw [← flipBit_append_left bit _ (by rw [head_length]; omega)]
        exact crc32_flip_ne bit (by rw [List.length_append, head_length]; omega)
      rw [hsize, if_neg hroom, List.take_left' rfl, decodeFixed32_checksum, if_pos hcrc]
      exact ⟨_, rfl⟩

/-- A flip in the payload size: the record looks torn when the new size reaches
behind the end of the file, and is detected otherwise. -/
theorem flip_size (bit : Fin 8) (hi : i < 4) (rest : Bytes) :
    let size := decodeFixed32 (flipBit i bit (encodeFixed32 r.batch.encode.length))
    let answer := readBatchRecord
      (flipBit (13 + i) bit (head r) ++ (checksum r ++ (r.batch.encode ++ rest)))
    (size > (r.batch.encode ++ rest).length → answer = .torn) ∧
      (¬ size > (r.batch.encode ++ rest).length → Detects answer) := by
  intro size answer
  have hlen : (flipBit (13 + i) bit (head r)).length = 17 := by simp
  obtain ⟨h1, h2, h3, _⟩ := head_fields h
  have ht : (flipBit (13 + i) bit (head r)).take 1 = (head r).take 1 :=
    flipBit_take_of_le bit (by omega) (by simp)
  have htake : (flipBit (13 + i) bit (head r)).take 13 = (head r).take 13 :=
    flipBit_take_of_le bit (by omega) (by simp)
  -- the sequence and the count lie in front of the size
  have hseq : decodeFixed64 ((flipBit (13 + i) bit (head r)).drop 1) =
      decodeFixed64 ((head r).drop 1) := by
    have hd : ((flipBit (13 + i) bit (head r)).drop 1).take 8 = ((head r).drop 1).take 8 := by
      rw [flipBit_drop_of_ge bit (by omega) (by simp)]
      exact flipBit_take_of_le bit (by omega) (by simp)
    rw [decodeFixed64, decodeFixed64, hd]
  have hcount : decodeFixed32 ((flipBit (13 + i) bit (head r)).drop 9) =
      decodeFixed32 ((head r).drop 9) := by
    have hd : ((flipBit (13 + i) bit (head r)).drop 9).take 4 = ((head r).drop 9).take 4 := by
      rw [flipBit_drop_of_ge bit (by omega) (by simp)]
      exact flipBit_take_of_le bit (by omega) (by simp)
    rw [decodeFixed32, decodeFixed32, hd]
  have hsize : decodeFixed32 ((flipBit (13 + i) bit (head r)).drop 13) = size := by
    rw [flipBit_drop_of_ge bit (by omega) (by simp), Nat.add_sub_cancel_left, head,
      header_drop_thirteen]
  have hanswer : answer = readBatchRecord
      (flipBit (13 + i) bit (head r) ++ (checksum r ++ (r.batch.encode ++ rest))) := rfl
  rw [readBatchRecord_parts _ hlen (checksum_length r), ht, hseq, hcount, hsize, h1, h2, h3,
    if_neg (fun hx => hx rfl), if_neg (range_ok h)] at hanswer
  refine ⟨fun hgt => by rw [hanswer, if_pos hgt], fun hgt => ?_⟩
  rw [hanswer, if_neg hgt]
  split
  · exact ⟨_, rfl⟩
  · -- the checksums agree by chance: the operations do not add up
    have hne : size ≠ r.batch.encode.length := by
      obtain ⟨hle, _⟩ := WriteBatch.encode_length_of_valid h.encoding
      have hflip := decodeFixed32_flip_ne bit hi (encodeFixed32_length r.batch.encode.length) []
      rw [List.append_nil, decodeFixed32_encode hle] at hflip
      exact hflip
    cases hdec : WriteBatch.decode ((r.batch.encode ++ rest).take size) with
    | error e =>
      obtain ⟨message, rfl⟩ := WriteBatch.decodeLoop_error hdec
      exact ⟨message, rfl⟩
    | ok batch =>
      have hcount := WriteBatch.decode_other_length h.encoding rest (by omega) hne hdec
      simp only
      rw [if_pos hcount]
      exact ⟨_, rfl⟩

theorem detects_flip_checksum (bit : Fin 8) (hi : i < 4) (rest : Bytes) :
    Detects (readBatchRecord (head r ++ (flipBit i bit (checksum r) ++ (r.batch.encode ++ rest)))) := by
  obtain ⟨h1, h2, h3, h4⟩ := head_fields h
  have hroom : ¬ r.batch.encode.length > (r.batch.encode ++ rest).length := by
    rw [List.length_append]
    omega
  have hne : crc32 (head r ++ r.batch.encode) ≠ decodeFixed32 (flipBit i bit (checksum r)) := by
    have hflip := decodeFixed32_flip_ne bit hi (checksum_length r) []
    rw [List.append_nil, List.append_nil, decodeFixed32_checksum] at hflip
    exact hflip.symm
  rw [readBatchRecord_parts _ (head_length r) (by simp), h1, h2, h3, h4, if_neg (fun hx => hx rfl),
    if_neg (range_ok h), if_neg hroom, List.take_left' rfl, if_pos hne]
  exact ⟨_, rfl⟩

theorem detects_flip_payload (bit : Fin 8) (hi : i < r.batch.encode.length) (rest : Bytes) :
    Detects (readBatchRecord (head r ++ (checksum r ++ (flipBit i bit r.batch.encode ++ rest)))) := by
  obtain ⟨h1, h2, h3, h4⟩ := head_fields h
  have hroom : ¬ r.batch.encode.length > (flipBit i bit r.batch.encode ++ rest).length := by
    rw [List.length_append, flipBit_length]
    omega
  have htake : (flipBit i bit r.batch.encode ++ rest).take r.batch.encode.length =
      flipBit i bit r.batch.encode := List.take_left' (flipBit_length _ _ _)
  have hne : crc32 (head r ++ flipBit i bit r.batch.encode) ≠ decodeFixed32 (checksum r) := by
    rw [decodeFixed32_checksum, ← flipBit_append_right]
    exact crc32_flip_ne bit (by rw [List.length_append]; omega)
  rw [readBatchRecord_parts _ (head_length r) (checksum_length r), h1, h2, h3, h4,
    if_neg (fun hx => hx rfl), if_neg (range_ok h), if_neg hroom, htake, if_pos hne]
  exact ⟨_, rfl⟩

omit h in
theorem readNext_magic (bytes : Bytes) :
    readNext (encodeFixed32 kWALBatchMagic ++ bytes) = readBatchRecord bytes := by
  have hne : encodeFixed32 kWALBatchMagic ++ bytes ≠ [] := by
    intro he
    have := congrArg List.length he
    simp at this
  rw [readNext, if_neg hne, if_neg (by simp), decodeFixed32_magic, if_neg (fun hx => hx rfl),
    List.drop_left' (encodeFixed32_length _)]

omit h in
theorem detects_flip_magic (bit : Fin 8) (hi : i < 4) (rest : Bytes) :
    Detects (readNext (flipBit i bit (encodeFixed32 kWALBatchMagic) ++ rest)) := by
  have hne : flipBit i bit (encodeFixed32 kWALBatchMagic) ++ rest ≠ [] := by
    intro he
    have := congrArg List.length he
    simp at this
  have hmagic := decodeFixed32_flip_ne bit hi (encodeFixed32_length kWALBatchMagic) rest
  rw [decodeFixed32_magic] at hmagic
  rw [readNext, if_neg hne, if_neg (by simp), if_pos hmagic]
  exact ⟨_, rfl⟩

/-- What the reader answers on a record with one inverted bit and `rest` behind it. -/
theorem readNext_flip (bit : Fin 8) (hi : i < (encodeRecord r).length) (rest : Bytes) :
    (SizeRunsPastEnd r rest i bit → readNext (flipBit i bit (encodeRecord r) ++ rest) = .torn) ∧
      (¬ SizeRunsPastEnd r rest i bit →
        Detects (readNext (flipBit i bit (encodeRecord r) ++ rest))) := by
  rw [encodeRecord_length] at hi
  rw [encodeRecord_parts]
  by_cases hmagic : i < 4
  · rw [flipBit_append_left bit _ (by simpa using hmagic), List.append_assoc]
    refine ⟨fun hpast => ?_, fun _ => detects_flip_magic bit hmagic _⟩
    have := hpast.1
    unfold kPayloadSizeOffset at this
    omega
  · obtain ⟨j, rfl⟩ := Nat.exists_eq_add_of_le (Nat.le_of_not_lt hmagic)
    have hmove := flipBit_append_right j bit (encodeFixed32 kWALBatchMagic)
      (head r ++ (checksum r ++ r.batch.encode))
    rw [encodeFixed32_length] at hmove
    rw [hmove, List.append_assoc, readNext_magic]
    by_cases hhead : j < 17
    · rw [flipBit_append_left bit _ (by simpa using hhead)]
      simp only [List.append_assoc]
      by_cases hfields : j < 13
      · refine ⟨fun hpast => ?_, fun _ => detects_flip_fields h bit hfields rest⟩
        have := hpast.1
        unfold kPayloadSizeOffset at this
        omega
      · obtain ⟨k, rfl⟩ := Nat.exists_eq_add_of_le (Nat.le_of_not_lt hfields)
        obtain ⟨htorn, hdet⟩ := flip_size h bit (i := k) (by omega) rest
        have hk : 4 + (13 + k) - kPayloadSizeOffset = k := by
          unfold kPayloadSizeOffset
          omega
        refine ⟨fun hpast => htorn ?_, fun hpast => hdet fun hgt => hpast ⟨?_, ?_, ?_⟩⟩
        · have := hpast.2.2
          rwa [hk] at this
        · unfold kPayloadSizeOffset
          omega
        · unfold kPayloadSizeEnd
          omega
        · rwa [hk]
    · obtain ⟨k, rfl⟩ := Nat.exists_eq_add_of_le (Nat.le_of_not_lt hhead)
      have hmove := flipBit_append_right k bit (head r) (checksum r ++ r.batch.encode)
      rw [head_length] at hmove
      rw [hmove]
      have hout : ¬ SizeRunsPastEnd r rest (4 + (17 + k)) bit := by
        intro hpast
        have := hpast.2.1
        unfold kPayloadSizeEnd at this
        omega
      refine ⟨fun hpast => absurd hpast hout, fun _ => ?_⟩
      by_cases hsum : k < 4
      · rw [flipBit_append_left bit _ (by simpa using hsum)]
        simp only [List.append_assoc]
        exact detects_flip_checksum h bit hsum rest
      · obtain ⟨m, rfl⟩ := Nat.exists_eq_add_of_le (Nat.le_of_not_lt hsum)
        have hmove := flipBit_append_right m bit (checksum r) r.batch.encode
        rw [checksum_length] at hmove
        rw [hmove]
        simp only [List.append_assoc]
        exact detects_flip_payload h bit (by omega) rest

end Record

end KvMem.Wal
