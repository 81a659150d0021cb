import KvMem.Storage.Util

/-! # Vectors and their encoding as values

A component is the bit pattern of a 32-bit float. The functions that need a distance
take it as an argument; `exactL2` is one that can be evaluated.
-/

namespace KvMem

abbrev Float32Bits := BitVec 32

namespace Float32Bits

/-- `std::isfinite`: the exponent is not all ones. -/
def isFinite (b : Float32Bits) : Bool := b.toNat / 2 ^ 23 % 2 ^ 8 ≠ 255

/-- `value == 0.0f`, which both zeros satisfy. -/
def isZero (b : Float32Bits) : Bool := b.toNat % 2 ^ 31 = 0

def equal (a b : Float32Bits) : Bool := a = b ∨ (isZero a ∧ isZero b)

/-- A finite value in units of the smallest one. -/
def units (b : Float32Bits) : Int :=
  let exponent := b.toNat / 2 ^ 23 % 2 ^ 8
  let fraction := b.toNat % 2 ^ 23
  let magnitude : Nat :=
    if exponent = 0 then fraction else (fraction + 2 ^ 23) * 2 ^ (exponent - 1)
  if b.toNat < 2 ^ 31 then magnitude else -magnitude

end Float32Bits

abbrev FloatVector := List Float32Bits

/-- The squared Euclidean distance without rounding, in units of the smallest square. -/
def exactL2 (a b : FloatVector) : Int :=
  ((a.zip b).map fun (x, y) => (x.units - y.units) ^ 2).sum

inductive VectorDistanceMetric where
  | kL2
  | kInnerProduct
  | kCosine
  deriving DecidableEq, Repr

structure VectorRecord where
  key : Bytes
  vector : FloatVector
  metadata : Bytes
  deriving DecidableEq, Repr

namespace VectorValue

open FixedWidth

def kVectorValueMagic : Bytes := ascii "KVV1"

def kFloat32Type : Byte := 1

def kHeaderSize : Nat := 9

def kMetadataLengthSize : Nat := 4

def validateVector (vector : FloatVector) : Status :=
  if vector = [] then .invalidArgument "vector cannot be empty"
  else if vector.length > maxUInt32 then
    .invalidArgument "vector dimension exceeds uint32 range"
  else if vector.all Float32Bits.isFinite then .ok
  else .invalidArgument "vector values must be finite"

def encodeVector (vector : FloatVector) : Bytes := vector.flatMap fun b => encodeFixed32 b.toNat

def encodeVectorValue (vector : FloatVector) (metadata : Bytes) : Except Status Bytes :=
  match validateVector vector with
  | .ok =>
    if metadata.length > maxUInt32 then
      .error (.invalidArgument "metadata size exceeds uint32 range")
    else
      .ok (kVectorValueMagic ++ (kFloat32Type :: (encodeFixed32 vector.length ++
        (encodeVector vector ++ (encodeFixed32 metadata.length ++ metadata)))))
  | e => .error e

def isEncodedVectorValue (encoded : Bytes) : Bool :=
  4 ≤ encoded.length ∧ encoded.take 4 = kVectorValueMagic

def decodeVector : Nat → Bytes → Option (FloatVector × Bytes)
  | 0, bytes => some ([], bytes)
  | dimension + 1, bytes =>
    let value : Float32Bits := BitVec.ofNat 32 (decodeFixed32 bytes)
    if value.isFinite then
      match decodeVector dimension (bytes.drop 4) with
      | none => none
      | some (values, rest) => some (value :: values, rest)
    else none

def decodeVectorValue (encoded : Bytes) : Except Status VectorRecord :=
  if ¬ isEncodedVectorValue encoded then .error (.invalidArgument "value is not an encoded vector")
  else if encoded.length < kHeaderSize + kMetadataLengthSize then
    .error (.corruption "encoded vector header is truncated")
  else
    let fields := encoded.drop 4
    if fields.take 1 ≠ [kFloat32Type] then
      .error (.corruption "unsupported encoded vector type")
    else
      let dimension := decodeFixed32 (fields.drop 1)
      if dimension = 0 then .error (.corruption "encoded vector has zero dimension")
      else
        let payload := encoded.drop kHeaderSize
        if dimension * 4 > payload.length ∨ payload.length - dimension * 4 < kMetadataLengthSize then
          .error (.corruption "encoded vector payload is truncated")
        else
          match decodeVector dimension payload with
          | none => .error (.corruption "encoded vector contains a non-finite value")
          | some (vector, rest) =>
            let metadata := rest.drop kMetadataLengthSize
            if decodeFixed32 rest ≠ metadata.length then
              .error (.corruption "encoded vector metadata length does not match payload")
            else .ok ⟨[], vector, metadata⟩

/-- `DecodeVectorValue` with its output parameter: what `record` points to before the call
and what it points to afterwards. The fields go to a local record with an empty key first. -/
def decodeVectorValueTo (encoded : Bytes) (record : VectorRecord) : Status × VectorRecord :=
  match decodeVectorValue encoded with
  | .ok decoded => (.ok, decoded)
  | .error e => (e, record)

/-- `ComputeVectorDistance`. The floating-point sum, `ComputeVectorDistanceUnchecked`, is an
argument; the metric is one of the three by its type. -/
def computeVectorDistance
    (unchecked : VectorDistanceMetric → FloatVector → FloatVector → Float32Bits)
    (lhs rhs : FloatVector) (metric : VectorDistanceMetric) : Except Status Float32Bits :=
  match validateVector lhs with
  | .ok =>
    match validateVector rhs with
    | .ok =>
      if lhs.length ≠ rhs.length then .error (.invalidArgument "vector dimensions do not match")
      else if metric = .kCosine ∧ (lhs.all Float32Bits.isZero ∨ rhs.all Float32Bits.isZero) then
        .error (.invalidArgument "cosine distance is undefined for a zero vector")
      else
        let result := unchecked metric lhs rhs
        if result.isFinite then .ok result
        else .error (.invalidArgument "vector distance is outside float range")
    | e => .error e
  | e => .error e

/-! ## What the encoder writes -/

variable {vector : FloatVector} {encoded : Bytes}

theorem validateVector_eq_ok :
    validateVector vector = .ok ↔
      vector ≠ [] ∧ vector.length ≤ maxUInt32 ∧ ∀ b ∈ vector, b.isFinite = true := by
  unfold validateVector
  by_cases hne : vector = []
  · simp [hne]
  · by_cases hlen : vector.length > maxUInt32
    · simp [hne, hlen]
    · by_cases hfin : vector.all Float32Bits.isFinite
      · simp [hne, hlen, hfin]
        exact ⟨by omega, by simpa using hfin⟩
      · simp [hne, hlen, hfin]
        intro _
        simpa using hfin

theorem encodeVector_length (vector : FloatVector) : (encodeVector vector).length = 4 * vector.length :=
  length_flatMap_fixed (fun b : Float32Bits => encodeFixed32_length b.toNat) vector

theorem toNat_le (b : Float32Bits) : b.toNat ≤ maxUInt32 := by
  have hlt := b.isLt
  unfold maxUInt32
  omega

theorem decodeVector_encodeVector (hfin : ∀ b ∈ vector, b.isFinite = true) (rest : Bytes) :
    decodeVector vector.length (encodeVector vector ++ rest) = some (vector, rest) := by
  induction vector with
  | nil => rfl
  | cons b bs ih =>
    have hbytes : encodeVector (b :: bs) ++ rest =
        encodeFixed32 b.toNat ++ (encodeVector bs ++ rest) := by
      simp [encodeVector]
    have hvalue : BitVec.ofNat 32 (decodeFixed32 (encodeVector (b :: bs) ++ rest)) = b := by
      rw [hbytes, decodeFixed32_encode (toNat_le b), BitVec.ofNat_toNat, BitVec.setWidth_eq]
    have hrest : (encodeVector (b :: bs) ++ rest).drop 4 = encodeVector bs ++ rest := by
      rw [hbytes, List.drop_left' (encodeFixed32_length _)]
    have htail := ih fun b' hb' => hfin b' (List.mem_cons_of_mem _ hb')
    simp only [List.length_cons, decodeVector, hvalue, hrest, hfin b List.mem_cons_self, htail,
      if_true]

theorem decodeVector_some {n : Nat} {bytes rest : Bytes} (hlen : n * 4 ≤ bytes.length)
    (h : decodeVector n bytes = some (vector, rest)) :
    bytes = encodeVector vector ++ rest ∧ vector.length = n ∧ ∀ b ∈ vector, b.isFinite = true := by
  induction n generalizing bytes vector with
  | zero =>
    cases h
    exact ⟨rfl, rfl, by simp⟩
  | succ n ih =>
    have hdrop : n * 4 ≤ (bytes.drop 4).length := by
      rw [List.length_drop]
      omega
    rw [decodeVector] at h
    generalize hvalue : BitVec.ofNat 32 (decodeFixed32 bytes) = value at h
    have hword : encodeFixed32 value.toNat = bytes.take 4 := by
      have hlt : decodeFixed32 bytes < 2 ^ 32 := by
        have hle := decodeFixed32_le bytes
        unfold maxUInt32 at hle
        omega
      rw [← hvalue, BitVec.toNat_ofNat, Nat.mod_eq_of_lt hlt]
      exact encodeFixed32_decode (by omega)
    by_cases hfin : Float32Bits.isFinite value = true
    · simp only [hfin, if_true] at h
      cases htail : decodeVector n (bytes.drop 4) with
      | none =>
        rw [htail] at h
        cases h
      | some parsed =>
        rw [htail] at h
        cases h
        obtain ⟨hbytes, hcount, hall⟩ := ih hdrop htail
        refine ⟨?_, by rw [List.length_cons, hcount], ?_⟩
        · calc bytes = bytes.take 4 ++ bytes.drop 4 := (List.take_append_drop 4 bytes).symm
            _ = encodeVector (value :: parsed.1) ++ parsed.2 := by
                rw [← hword, hbytes]
                simp [encodeVector]
        · intro b hb
          rcases List.mem_cons.mp hb with rfl | hb
          · exact hfin
          · exact hall b hb
    · simp only [hfin] at h
      cases h

def recordBytes (record : VectorRecord) : Bytes :=
  encodeFixed32 record.vector.length ++ (encodeVector record.vector ++
    (encodeFixed32 record.metadata.length ++ record.metadata))

structure Encodable (record : VectorRecord) : Prop where
  key : record.key = []
  vector : validateVector record.vector = .ok
  metadata : record.metadata.length ≤ maxUInt32

theorem encodeVectorValue_eq {record : VectorRecord} (h : Encodable record) :
    encodeVectorValue record.vector record.metadata =
      .ok (kVectorValueMagic ++ kFloat32Type :: recordBytes record) := by
  simp only [encodeVectorValue, h.vector, if_neg (Nat.not_lt.mpr h.metadata), recordBytes]

theorem isEncodedVectorValue_magic (rest : Bytes) :
    isEncodedVectorValue (kVectorValueMagic ++ rest) = true := by
  have hlen : kVectorValueMagic.length = 4 := by decide
  have htake : (kVectorValueMagic ++ rest).take 4 = kVectorValueMagic := List.take_left' hlen
  simp [isEncodedVectorValue, htake, hlen]

theorem decodeVectorValue_encoded {record : VectorRecord} (h : Encodable record) :
    decodeVectorValue (kVectorValueMagic ++ kFloat32Type :: recordBytes record) = .ok record := by
  obtain ⟨hne, hlen, hfin⟩ := validateVector_eq_ok.mp h.vector
  have hmagic := isEncodedVectorValue_magic (kFloat32Type :: recordBytes record)
  have hpayload : (kVectorValueMagic ++ kFloat32Type :: recordBytes record).drop kHeaderSize =
      encodeVector record.vector ++ (encodeFixed32 record.metadata.length ++ record.metadata) := by
    rw [recordBytes, List.append_cons, ← List.append_assoc]
    exact List.drop_left' (by simp [kHeaderSize, kVectorValueMagic, ascii])
  have hfields : (kVectorValueMagic ++ kFloat32Type :: recordBytes record).drop 4 =
      kFloat32Type :: recordBytes record := List.drop_left' (by decide)
  have hdimension : decodeFixed32 (recordBytes record) = record.vector.length :=
    decodeFixed32_encode hlen _
  have hsize : (kVectorValueMagic ++ kFloat32Type :: recordBytes record).length =
      kHeaderSize + (4 * record.vector.length + (kMetadataLengthSize + record.metadata.length)) := by
    simp [recordBytes, encodeVector_length, kHeaderSize, kMetadataLengthSize, kVectorValueMagic,
      ascii]
    omega
  have hpayloadSize : (encodeVector record.vector ++
      (encodeFixed32 record.metadata.length ++ record.metadata)).length =
      4 * record.vector.length + (kMetadataLengthSize + record.metadata.length) := by
    simp [encodeVector_length, kMetadataLengthSize]
  have hpos : record.vector.length ≠ 0 := by simpa using hne
  have hlong : ¬ (kVectorValueMagic ++ kFloat32Type :: recordBytes record).length <
      kHeaderSize + kMetadataLengthSize := by omega
  have hroom : ¬ (record.vector.length * 4 > (encodeVector record.vector ++
      (encodeFixed32 record.metadata.length ++ record.metadata)).length ∨
      (encodeVector record.vector ++
        (encodeFixed32 record.metadata.length ++ record.metadata)).length -
          record.vector.length * 4 < kMetadataLengthSize) := by omega
  have hrest : (encodeFixed32 record.metadata.length ++ record.metadata).drop kMetadataLengthSize =
      record.metadata := List.drop_left' (encodeFixed32_length _)
  have hrecord : (⟨[], record.vector, record.metadata⟩ : VectorRecord) = record := by rw [← h.key]
  simp only [decodeVectorValue, hmagic, not_true_eq_false, if_false, if_neg hlong, hfields,
    List.take_succ_cons, List.take_zero, List.drop_succ_cons, List.drop_zero, ne_eq, hdimension,
    if_neg hpos, hpayload, if_neg hroom, decodeVector_encodeVector hfin, hrest,
    decodeFixed32_encode h.metadata, hrecord]

theorem decoded_bytes {rest : Bytes} {dimension : Nat}
    (hmagic : isEncodedVectorValue encoded = true)
    (hlong : kHeaderSize + kMetadataLengthSize ≤ encoded.length)
    (htype : (encoded.drop 4).take 1 = [kFloat32Type])
    (hdim : decodeFixed32 ((encoded.drop 4).drop 1) = dimension) (hpos : dimension ≠ 0)
    (hroom : ¬ (dimension * 4 > (encoded.drop kHeaderSize).length ∨
      (encoded.drop kHeaderSize).length - dimension * 4 < kMetadataLengthSize))
    (hvector : decodeVector dimension (encoded.drop kHeaderSize) = some (vector, rest))
    (hmetadata : decodeFixed32 rest = (rest.drop kMetadataLengthSize).length) :
    Encodable ⟨[], vector, rest.drop kMetadataLengthSize⟩ ∧
      encoded = kVectorValueMagic ++
        kFloat32Type :: recordBytes ⟨[], vector, rest.drop kMetadataLengthSize⟩ := by
  simp only [kHeaderSize, kMetadataLengthSize] at hlong hroom hvector hmetadata ⊢
  obtain ⟨hpayload, hcount, hfin⟩ := decodeVector_some (by omega) hvector
  have hrest : 4 ≤ rest.length := by
    have htotal := congrArg List.length hpayload
    rw [List.length_append, encodeVector_length] at htotal
    omega
  have hle := decodeFixed32_le ((encoded.drop 4).drop 1)
  have hmle := decodeFixed32_le rest
  constructor
  · have hne : vector ≠ [] := by
      intro hnil
      rw [hnil] at hcount
      exact hpos hcount.symm
    have hsize : vector.length ≤ maxUInt32 := by omega
    have hmsize : (rest.drop 4).length ≤ maxUInt32 := by omega
    exact ⟨rfl, validateVector_eq_ok.mpr ⟨hne, hsize, hfin⟩, hmsize⟩
  · have hhead : encoded.take 4 = kVectorValueMagic := by
      simp only [isEncodedVectorValue, decide_eq_true_eq] at hmagic
      exact hmagic.2
    have hfixed : encodeFixed32 vector.length = ((encoded.drop 4).drop 1).take 4 := by
      rw [hcount, ← hdim]
      apply encodeFixed32_decode
      simp only [List.length_drop]
      omega
    have hlast : encodeFixed32 (rest.drop 4).length ++ rest.drop 4 = rest := by
      rw [← hmetadata, encodeFixed32_decode hrest, List.take_append_drop]
    have hnine : ((encoded.drop 4).drop 1).drop 4 = encoded.drop 9 := by
      rw [List.drop_drop, List.drop_drop]
    calc encoded = encoded.take 4 ++ ((encoded.drop 4).take 1 ++
          (((encoded.drop 4).drop 1).take 4 ++ ((encoded.drop 4).drop 1).drop 4)) := by
          rw [List.take_append_drop, List.take_append_drop, List.take_append_drop]
      _ = kVectorValueMagic ++ kFloat32Type :: recordBytes ⟨[], vector, rest.drop 4⟩ := by
          rw [hhead, htype, hnine, hpayload, ← hfixed, recordBytes, hlast]
          rfl

/-- The decoder accepts nothing but what the encoder writes. -/
theorem decodeVectorValue_eq_ok {record : VectorRecord}
    (h : decodeVectorValue encoded = .ok record) :
    Encodable record ∧ encoded = kVectorValueMagic ++ kFloat32Type :: recordBytes record := by
  unfold decodeVectorValue at h
  split at h
  · cases h
  · rename_i hmagic
    split at h
    · cases h
    · rename_i hlong
      dsimp only at h
      split at h
      · cases h
      · rename_i htype
        generalize hdim : decodeFixed32 ((encoded.drop 4).drop 1) = dimension at h
        split at h
        · cases h
        · rename_i hpos
          split at h
          · cases h
          · rename_i hroom
            cases hvector : decodeVector dimension (encoded.drop kHeaderSize) with
            | none =>
              rw [hvector] at h
              cases h
            | some parsed =>
              rw [hvector] at h
              dsimp only at h
              split at h
              · cases h
              · rename_i hmetadata
                cases h
                exact decoded_bytes (by simpa using hmagic) (Nat.not_lt.mp hlong)
                  (not_not.mp htype) hdim hpos hroom hvector (not_not.mp hmetadata)

theorem decodeVectorValue_error {e : Status} (h : decodeVectorValue encoded = .error e) :
    e ≠ .ok := by
  rintro rfl
  unfold decodeVectorValue at h
  split at h
  · cases h
  · split at h
    · cases h
    · dsimp only at h
      split at h
      · cases h
      · split at h
        · cases h
        · split at h
          · cases h
          · cases hvector : decodeVector (decodeFixed32 ((encoded.drop 4).drop 1))
                (encoded.drop kHeaderSize) with
            | none =>
              rw [hvector] at h
              cases h
            | some parsed =>
              rw [hvector] at h
              dsimp only at h
              split at h <;> cases h

theorem decodeVectorValueTo_cases (encoded : Bytes) (record : VectorRecord) :
    (∃ e, decodeVectorValue encoded = .error e ∧ e ≠ .ok ∧
      decodeVectorValueTo encoded record = (e, record)) ∨
    ∃ decoded, decodeVectorValue encoded = .ok decoded ∧
      decodeVectorValueTo encoded record = (.ok, decoded) := by
  rw [decodeVectorValueTo]
  cases hdecode : decodeVectorValue encoded with
  | error e => exact Or.inl ⟨e, rfl, decodeVectorValue_error hdecode, rfl⟩
  | ok decoded => exact Or.inr ⟨decoded, rfl, rfl⟩

/-- Encoder and decoder are inverse to each other: what the format can hold comes back bit
by bit, what decodes is the encoding of what it decodes to, and a failure writes nothing. -/
theorem vectorValue_roundtrip :
    (∀ (vector : FloatVector) (metadata : Bytes), vector ≠ [] → vector.length ≤ maxUInt32 →
      (∀ b ∈ vector, b.isFinite = true) → metadata.length ≤ maxUInt32 →
      ∃ encoded, encodeVectorValue vector metadata = .ok encoded ∧
        isEncodedVectorValue encoded = true ∧
        ∀ record, decodeVectorValueTo encoded record = (.ok, ⟨[], vector, metadata⟩)) ∧
    (∀ (encoded : Bytes) (record : VectorRecord), (decodeVectorValueTo encoded record).1 = .ok →
      encodeVectorValue (decodeVectorValueTo encoded record).2.vector
        (decodeVectorValueTo encoded record).2.metadata = .ok encoded) ∧
    (∀ (encoded : Bytes) (record : VectorRecord), (decodeVectorValueTo encoded record).1 ≠ .ok →
      (decodeVectorValueTo encoded record).2 = record) := by
  refine ⟨?_, ?_, ?_⟩
  · intro vector metadata hne hlen hfin hmeta
    have hvalid : Encodable ⟨[], vector, metadata⟩ :=
      ⟨rfl, validateVector_eq_ok.mpr ⟨hne, hlen, hfin⟩, hmeta⟩
    refine ⟨_, encodeVectorValue_eq hvalid, isEncodedVectorValue_magic _, ?_⟩
    intro record
    have hdecode := decodeVectorValue_encoded hvalid
    rcases decodeVectorValueTo_cases _ record with ⟨e, herror, _⟩ | ⟨decoded, hok, hto⟩
    · rw [hdecode] at herror
      cases herror
    · rw [hdecode] at hok
      cases hok
      exact hto
  · intro encoded record h
    rcases decodeVectorValueTo_cases encoded record with ⟨e, _, hne, hto⟩ | ⟨decoded, hok, hto⟩
    · rw [hto] at h
      exact absurd h hne
    · obtain ⟨hvalid, hbytes⟩ := decodeVectorValue_eq_ok hok
      rw [hto]
      rw [hbytes]
      exact encodeVectorValue_eq hvalid
  · intro encoded record h
    rcases decodeVectorValueTo_cases encoded record with ⟨e, _, _, hto⟩ | ⟨decoded, _, hto⟩
    · rw [hto]
    · rw [hto] at h
      exact absurd rfl h

theorem vectorValue_roundtrip_two :
    (∃ encoded, encodeVectorValue [0x80000000#32, 1#32] (ascii "m") = .ok encoded ∧
      isEncodedVectorValue encoded = true ∧
      ∀ record, decodeVectorValueTo encoded record = (.ok, ⟨[], [0x80000000#32, 1#32], ascii "m"⟩)) ∧
    (decodeVectorValueTo (ascii "KVV1") ⟨ascii "k", [7#32], ascii "old"⟩).2 = ⟨ascii "k", [7#32], ascii "old"⟩ :=
  ⟨vectorValue_roundtrip.1 [0x80000000#32, 1#32] (ascii "m") (by decide) (by decide)
      (by simp [Float32Bits.isFinite])
      (by decide),
    vectorValue_roundtrip.2.2 (ascii "KVV1") ⟨ascii "k", [7#32], ascii "old"⟩ (by decide)⟩

end VectorValue

end KvMem
