import KvMem.Foundation.RecordLog
import KvMem.Storage.WriteBatch

/-! # Write-ahead log records

A log file is a sequence of batch records. The reader is modelled on the bytes
that remain from its current offset: a record that ends behind the end of the
file is a torn tail, anything else that does not parse is corruption.
-/

namespace KvMem

open RecordLog

structure WALBatchRecord where
  sequence : Nat
  batch : WriteBatch
  deriving DecidableEq, Repr

namespace Wal

/-- KLWA, little-endian on disk. -/
def kWALBatchMagic : Nat := 0x41574c4b

def kBatchHeaderWithoutMagicSize : Nat := 21

def kBatchChecksumOffset : Nat := 17

/-- The checksummed header: record type kBatch = 1, sequence, count, payload size. -/
def header (sequence count payloadSize : Nat) : Bytes :=
  1 :: (encodeFixed64 sequence ++ (encodeFixed32 count ++ encodeFixed32 payloadSize))

/-- The bytes one `AppendBatch` writes. -/
def encodeRecord (r : WALBatchRecord) : Bytes :=
  let payload := r.batch.encode
  let head := header r.sequence r.batch.count payload.length
  encodeFixed32 kWALBatchMagic ++ (head ++ (encodeFixed32 (crc32 (head ++ payload)) ++ payload))

def checkAppend (batch : WriteBatch) (sequence : Nat) : Status :=
  match batch.validateEncoding with
  | .ok =>
    if sequence = 0 ∨ batch.count - 1 > maxUInt64 - sequence then
      .invalidArgument "invalid WAL sequence range"
    else if batch.encode.length > maxUInt32 then
      .invalidArgument "WriteBatch payload is too large"
    else .ok
  | e => e

/-- `ReadBatchRecord`, on the bytes behind the magic. -/
def readBatchRecord (bytes : Bytes) : Front Byte WALBatchRecord Status :=
  if bytes.length < kBatchHeaderWithoutMagicSize then .torn
  else
    let head := bytes.take kBatchHeaderWithoutMagicSize
    let data := bytes.drop kBatchHeaderWithoutMagicSize
    if head.take 1 ≠ [1] then .bad (.corruption "unknown WAL batch record type")
    else
      let sequence := decodeFixed64 (head.drop 1)
      let count := decodeFixed32 (head.drop 9)
      let payloadSize := decodeFixed32 (head.drop 13)
      let expectedChecksum := decodeFixed32 (head.drop kBatchChecksumOffset)
      if count = 0 ∨ sequence = 0 ∨ count - 1 > maxUInt64 - sequence then
        .bad (.corruption "invalid WAL sequence range or empty batch")
      else if payloadSize > data.length then .torn
      else
        let payload := data.take payloadSize
        if crc32 (head.take kBatchChecksumOffset ++ payload) ≠ expectedChecksum then
          .bad (.corruption "WAL batch checksum mismatch")
        else
          match WriteBatch.decode payload with
          | .error e => .bad e
          | .ok batch =>
            if batch.count ≠ count then
              .bad (.corruption "WAL batch operation count mismatch")
            else .record ⟨sequence, batch⟩ (data.drop payloadSize)

def readNext (bytes : Bytes) : Front Byte WALBatchRecord Status :=
  if bytes = [] then .eof
  else if bytes.length < 4 then .torn
  else if decodeFixed32 bytes ≠ kWALBatchMagic then .bad (.corruption "invalid WAL batch magic")
  else readBatchRecord (bytes.drop 4)

variable {r : WALBatchRecord}

theorem readBatchRecord_suffix {bytes rest : Bytes} (h : readBatchRecord bytes = .record r rest) :
    rest <:+ bytes := by
  simp only [readBatchRecord] at h
  split at h
  · cases h
  · split at h
    · cases h
    · split at h
      · cases h
      · split at h
        · cases h
        · split at h
          · cases h
          · split at h
            · cases h
            · split at h
              · cases h
              · cases h
                exact (List.drop_suffix _ _).trans (List.drop_suffix _ _)

theorem readNext_suffix {bytes rest : Bytes} (h : readNext bytes = .record r rest) :
    rest <:+ bytes := by
  simp only [readNext] at h
  split at h
  · cases h
  · split at h
    · cases h
    · split at h
      · cases h
      · exact (readBatchRecord_suffix h).trans (List.drop_suffix _ _)

structure Appendable (r : WALBatchRecord) : Prop where
  nonempty : r.batch ≠ []
  encoding : r.batch.validateEncoding = .ok
  positive : 1 ≤ r.sequence
  range : r.sequence + r.batch.count ≤ maxUInt64 + 1

theorem checkAppend_of_appendable (h : Appendable r) : checkAppend r.batch r.sequence = .ok := by
  have hlen := (WriteBatch.encode_length_of_valid h.encoding).1
  have hpos := h.positive
  have hrange := h.range
  unfold checkAppend
  rw [h.encoding]
  have h1 : ¬ (r.sequence = 0 ∨ r.batch.count - 1 > maxUInt64 - r.sequence) := by omega
  have h2 : ¬ r.batch.encode.length > maxUInt32 := by omega
  simp [h1, h2]

/-! ## The shape of a record -/

@[simp] theorem header_length (s c p : Nat) : (header s c p).length = 17 := by simp [header]

theorem encodeRecord_length (r : WALBatchRecord) :
    (encodeRecord r).length = 25 + r.batch.encode.length := by
  simp only [encodeRecord, List.length_append, encodeFixed32_length, header_length]
  omega

def head (r : WALBatchRecord) : Bytes := header r.sequence r.batch.count r.batch.encode.length

def checksum (r : WALBatchRecord) : Bytes := encodeFixed32 (crc32 (head r ++ r.batch.encode))

theorem encodeRecord_parts (r : WALBatchRecord) :
    encodeRecord r = encodeFixed32 kWALBatchMagic ++ (head r ++ (checksum r ++ r.batch.encode)) :=
  rfl

@[simp] theorem head_length (r : WALBatchRecord) : (head r).length = 17 := header_length _ _ _

@[simp] theorem checksum_length (r : WALBatchRecord) : (checksum r).length = 4 :=
  encodeFixed32_length _

theorem decodeFixed32_checksum (r : WALBatchRecord) :
    decodeFixed32 (checksum r) = crc32 (head r ++ r.batch.encode) := by
  have hd := decodeFixed32_encode (crc32_le (head r ++ r.batch.encode)) []
  rw [List.append_nil] at hd
  exact hd

theorem header_type (s c p : Nat) : (header s c p).take 1 = [1] := rfl

theorem header_sequence {s : Nat} (hs : s ≤ maxUInt64) (c p : Nat) :
    decodeFixed64 ((header s c p).drop 1) = s := by
  rw [header, List.drop_succ_cons, List.drop_zero, decodeFixed64_encode hs]

theorem header_drop_nine (s c p : Nat) :
    (header s c p).drop 9 = encodeFixed32 c ++ encodeFixed32 p := by
  rw [header, List.drop_succ_cons]
  exact List.drop_left' (encodeFixed64_length s)

theorem header_drop_thirteen (s c p : Nat) : (header s c p).drop 13 = encodeFixed32 p := by
  rw [show (13 : Nat) = 9 + 4 from rfl, ← List.drop_drop, header_drop_nine]
  exact List.drop_left' (encodeFixed32_length c)

theorem header_count {c : Nat} (hc : c ≤ maxUInt32) (s p : Nat) :
    decodeFixed32 ((header s c p).drop 9) = c := by
  rw [header_drop_nine, decodeFixed32_encode hc]

theorem header_size {p : Nat} (hp : p ≤ maxUInt32) (s c : Nat) :
    decodeFixed32 ((header s c p).drop 13) = p := by
  have h := decodeFixed32_encode hp []
  rw [List.append_nil] at h
  rw [header_drop_thirteen, h]

section Record

variable {r : WALBatchRecord}

theorem sequence_le (h : Appendable r) : r.sequence ≤ maxUInt64 := by
  have hpos : 0 < r.batch.count := List.length_pos_of_ne_nil h.nonempty
  have := h.range
  omega

theorem head_fields (h : Appendable r) :
    (head r).take 1 = [1] ∧ decodeFixed64 ((head r).drop 1) = r.sequence ∧
      decodeFixed32 ((head r).drop 9) = r.batch.count ∧
      decodeFixed32 ((head r).drop 13) = r.batch.encode.length := by
  obtain ⟨hlen, hcount⟩ := WriteBatch.encode_length_of_valid h.encoding
  exact ⟨header_type _ _ _, header_sequence (sequence_le h) _ _, header_count hcount _ _,
    header_size hlen _ _⟩

theorem range_ok (h : Appendable r) : ¬ (r.batch.count = 0 ∨ r.sequence = 0 ∨
    r.batch.count - 1 > maxUInt64 - r.sequence) := by
  have hpos : 0 < r.batch.count := List.length_pos_of_ne_nil h.nonempty
  have hseq := h.positive
  have hrange := h.range
  omega

end Record

theorem decodeFixed32_magic (rest : Bytes) :
    decodeFixed32 (encodeFixed32 kWALBatchMagic ++ rest) = kWALBatchMagic :=
  decodeFixed32_encode (by decide) rest

theorem readBatchRecord_parts {head sum : Bytes} (data : Bytes) (hh : head.length = 17)
    (hs : sum.length = 4) :
    readBatchRecord (head ++ (sum ++ data)) =
      if head.take 1 ≠ [1] then .bad (.corruption "unknown WAL batch record type")
      else if decodeFixed32 (head.drop 9) = 0 ∨ decodeFixed64 (head.drop 1) = 0 ∨
          decodeFixed32 (head.drop 9) - 1 > maxUInt64 - decodeFixed64 (head.drop 1) then
        .bad (.corruption "invalid WAL sequence range or empty batch")
      else if decodeFixed32 (head.drop 13) > data.length then .torn
      else if crc32 (head ++ data.take (decodeFixed32 (head.drop 13))) ≠ decodeFixed32 sum then
        .bad (.corruption "WAL batch checksum mismatch")
      else
        match WriteBatch.decode (data.take (decodeFixed32 (head.drop 13))) with
        | .error e => .bad e
        | .ok batch =>
          if batch.count ≠ decodeFixed32 (head.drop 9) then
            .bad (.corruption "WAL batch operation count mismatch")
          else .record ⟨decodeFixed64 (head.drop 1), batch⟩
            (data.drop (decodeFixed32 (head.drop 13))) := by
  have htake : (head ++ (sum ++ data)).take 21 = head ++ sum := by
    rw [← List.append_assoc]
    exact List.take_left' (by simp [hh, hs])
  have hdrop : (head ++ (sum ++ data)).drop 21 = data := by
    rw [← List.append_assoc]
    exact List.drop_left' (by simp [hh, hs])
  have hlong : ¬ (head ++ (sum ++ data)).length < 21 := by
    simp only [List.length_append, hh, hs]
    omega
  have h17 : (head ++ sum).take 17 = head := List.take_left' hh
  have hsum : (head ++ sum).drop 17 = sum := List.drop_left' hh
  have h1 : (head ++ sum).take 1 = head.take 1 := List.take_append_of_le_length (by omega)
  have hd32 : ∀ k, k + 4 ≤ 17 →
      decodeFixed32 ((head ++ sum).drop k) = decodeFixed32 (head.drop k) := by
    intro k hk
    rw [List.drop_append_of_le_length (by omega), decodeFixed32, decodeFixed32,
      List.take_append_of_le_length (by rw [List.length_drop]; omega)]
  have hd64 : decodeFixed64 ((head ++ sum).drop 1) = decodeFixed64 (head.drop 1) := by
    rw [List.drop_append_of_le_length (by omega), decodeFixed64, decodeFixed64,
      List.take_append_of_le_length (by rw [List.length_drop]; omega)]
  simp only [readBatchRecord, kBatchHeaderWithoutMagicSize, kBatchChecksumOffset, if_neg hlong,
    htake, hdrop, h17, hsum, h1, hd32 9 (by omega), hd32 13 (by omega), hd64]

theorem readBatchRecord_complete (h : Appendable r) (rest : Bytes) :
    readBatchRecord (head r ++ (checksum r ++ (r.batch.encode ++ rest))) = .record r rest := by
  obtain ⟨htype, hsequence, hcount, hsize⟩ := head_fields h
  have hroom : ¬ r.batch.encode.length > (r.batch.encode ++ rest).length := by
    simp only [List.length_append]
    omega
  rw [readBatchRecord_parts _ (head_length r) (checksum_length r), if_neg (not_not.mpr htype), hcount,
    hsequence, if_neg (range_ok h), hsize, if_neg hroom, List.take_left' rfl,
    decodeFixed32_checksum, if_neg (fun hne => hne rfl), WriteBatch.decode_encode h.encoding]
  dsimp only
  rw [if_neg (fun hne => hne rfl), List.drop_left' rfl]

theorem readBatchRecord_cut (h : Appendable r) {cut : Bytes}
    (hc : cut.length < r.batch.encode.length) :
    readBatchRecord (head r ++ (checksum r ++ cut)) = .torn := by
  obtain ⟨htype, hsequence, hcount, hsize⟩ := head_fields h
  rw [readBatchRecord_parts _ (head_length r) (checksum_length r), if_neg (not_not.mpr htype), hcount,
    hsequence, if_neg (range_ok h), hsize, if_pos hc]

theorem readNext_record (h : Appendable r) (rest : Bytes) :
    readNext (encodeRecord r ++ rest) = .record r rest := by
  have heq : encodeRecord r ++ rest =
      encodeFixed32 kWALBatchMagic ++ (head r ++ (checksum r ++ (r.batch.encode ++ rest))) := by
    simp [encodeRecord_parts]
  have hne : encodeRecord r ++ rest ≠ [] := by
    intro he
    have := congrArg List.length he
    simp [encodeRecord_length] at this
  have hlen : ¬ (encodeRecord r ++ rest).length < 4 := by
    rw [List.length_append, encodeRecord_length]
    omega
  rw [readNext, if_neg hne, if_neg hlen, heq, decodeFixed32_magic, if_neg (by simp),
    List.drop_left' (encodeFixed32_length _)]
  exact readBatchRecord_complete h rest

/-- Every proper prefix of a record is a torn tail. -/
theorem readNext_torn (h : Appendable r) {xs : Bytes} (hp : xs <+: encodeRecord r) (hne : xs ≠ [])
    (hx : xs ≠ encodeRecord r) : readNext xs = .torn := by
  have hlt : xs.length < (encodeRecord r).length := by
    have hle := hp.length_le
    have : xs.length ≠ (encodeRecord r).length := fun he => hx (hp.eq_of_length he)
    omega
  rw [encodeRecord_length] at hlt
  by_cases h4 : xs.length < 4
  · simp [readNext, hne, h4]
  · rw [encodeRecord_parts] at hp
    obtain ⟨ys, rfl⟩ : encodeFixed32 kWALBatchMagic <+: xs :=
      List.prefix_of_prefix_length_le (List.prefix_append _ _) hp (by simp; omega)
    have hys : ys <+: (head r ++ checksum r) ++ r.batch.encode := by
      rw [List.append_assoc]
      exact (List.prefix_append_right_inj _).mp hp
    simp only [List.length_append, encodeFixed32_length] at hlt h4
    rw [readNext, if_neg hne, if_neg (by simp), decodeFixed32_magic, if_neg (by simp),
      List.drop_left' (encodeFixed32_length _)]
    by_cases h21 : ys.length < 21
    · simp [readBatchRecord, kBatchHeaderWithoutMagicSize, h21]
    · obtain ⟨cut, rfl⟩ : head r ++ checksum r <+: ys :=
        List.prefix_of_prefix_length_le (List.prefix_append _ _) hys (by simp; omega)
      simp only [List.length_append, head_length, checksum_length] at hlt
      rw [List.append_assoc]
      exact readBatchRecord_cut h (by omega)

theorem format : Format encodeRecord readNext Appendable where
  eof := by simp [readNext]
  nonempty := by
    intro r _ he
    have := congrArg List.length he
    simp [encodeRecord_length] at this
  record := fun r rest h => readNext_record h rest
  torn := fun r xs h hp hne hx => readNext_torn h hp hne hx

end Wal

end KvMem
