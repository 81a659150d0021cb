import KvMem.Storage.Util

/-! # Write batches and their encoding

An operation is a put or a delete: a delete that carries a value cannot be built,
as in the source, where only `Put` and `Delete` append operations.
-/

namespace KvMem

inductive WriteBatchOperation where
  | put (key value : Bytes)
  | delete (key : Bytes)
  deriving DecidableEq, Repr

namespace WriteBatchOperation

def key : WriteBatchOperation → Bytes
  | .put k _ => k
  | .delete k => k

def value : WriteBatchOperation → Bytes
  | .put _ v => v
  | .delete _ => []

def deleted : WriteBatchOperation → Bool
  | .put _ _ => false
  | .delete _ => true

/-- `WriteBatchOpType`: kPut = 1, kDelete = 2. -/
def typeByte : WriteBatchOperation → Byte
  | .put _ _ => 1
  | .delete _ => 2

def encode (o : WriteBatchOperation) : Bytes :=
  o.typeByte :: (encodeFixed32 o.key.length ++ (encodeFixed32 o.value.length ++ (o.key ++ o.value)))

theorem encode_length (o : WriteBatchOperation) :
    o.encode.length = 9 + o.key.length + o.value.length := by
  simp [encode]
  omega

def entry (o : WriteBatchOperation) (sequence : Nat) : VersionedEntry :=
  ⟨o.key, sequence, o.value, o.deleted⟩

end WriteBatchOperation

abbrev WriteBatch := List WriteBatchOperation

namespace WriteBatch

def kOperationHeaderSize : Nat := 9

def count (batch : WriteBatch) : Nat := batch.length

def encode (batch : WriteBatch) : Bytes := batch.flatMap WriteBatchOperation.encode

@[simp] theorem encode_cons (o : WriteBatchOperation) (ops : WriteBatch) :
    encode (o :: ops) = o.encode ++ encode ops := rfl

/-- The size loop of `ValidateEncoding`, from the size accumulated so far. -/
def validateSizes : WriteBatch → Nat → Status
  | [], _ => .ok
  | o :: ops, size =>
    if o.key.length > maxUInt32 ∨ o.value.length > maxUInt32 then
      .invalidArgument "WriteBatch key or value is too large"
    else
      let size := size + (kOperationHeaderSize + o.key.length + o.value.length)
      if size > maxUInt32 then .invalidArgument "WriteBatch payload is too large"
      else validateSizes ops size

def validateEncoding (batch : WriteBatch) : Status :=
  if batch.count > maxUInt32 then .invalidArgument "WriteBatch operation count is too large"
  else validateSizes batch 0

/-- The decoding loop. Every round consumes at least a header, so the length of
the input is enough fuel. -/
def decodeLoop : Nat → Bytes → Except Status WriteBatch
  | 0, _ => .ok []
  | fuel + 1, bytes =>
    match bytes with
    | [] => .ok []
    | type :: fields =>
      if bytes.length < kOperationHeaderSize then
        .error (.corruption "invalid WriteBatch operation header")
      else if type ≠ 1 ∧ type ≠ 2 then
        .error (.corruption "unknown WriteBatch operation type")
      else
        let keySize := decodeFixed32 fields
        let valueSize := decodeFixed32 (fields.drop 4)
        let data := fields.drop 8
        if data.length < keySize + valueSize then
          .error (.corruption "invalid WriteBatch operation payload")
        else
          let key := data.take keySize
          let value := (data.drop keySize).take valueSize
          if type = 2 ∧ value ≠ [] then
            .error (.corruption "delete operation carries a value")
          else
            match decodeLoop fuel (data.drop (keySize + valueSize)) with
            | .error e => .error e
            | .ok ops => .ok ((if type = 1 then .put key value else .delete key) :: ops)

def decode (encoded : Bytes) : Except Status WriteBatch := decodeLoop encoded.length encoded

/-- `Decode` on a batch object, which keeps its operations unless the whole input
decodes. -/
def decodeInto (batch : WriteBatch) (encoded : Bytes) : Status × WriteBatch :=
  match decode encoded with
  | .ok operations => (.ok, operations)
  | .error e => (e, batch)

/-! ## Sizes -/

theorem encode_length_cons (o : WriteBatchOperation) (ops : WriteBatch) :
    (encode (o :: ops)).length = 9 + o.key.length + o.value.length + (encode ops).length := by
  rw [encode_cons, List.length_append, WriteBatchOperation.encode_length]

theorem validateSizes_ok (ops : WriteBatch) (size : Nat) (h : validateSizes ops size = .ok)
    (hs : size ≤ maxUInt32) : size + (encode ops).length ≤ maxUInt32 := by
  induction ops generalizing size with
  | nil => simpa [encode] using hs
  | cons o ops ih =>
    simp only [validateSizes] at h
    split at h
    · cases h
    · split at h
      · cases h
      · have hle := ih _ h (by omega)
        rw [encode_length_cons]
        simp only [kOperationHeaderSize] at hle
        omega

/-- The early exit of the size loop is taken exactly when the whole encoding is too
long. -/
theorem validateSizes_of_le (ops : WriteBatch) (size : Nat)
    (h : size + (encode ops).length ≤ maxUInt32) : validateSizes ops size = .ok := by
  induction ops generalizing size with
  | nil => rfl
  | cons o ops ih =>
    rw [encode_length_cons] at h
    have hfields : ¬ (o.key.length > maxUInt32 ∨ o.value.length > maxUInt32) := by omega
    have hsize : ¬ size + (kOperationHeaderSize + o.key.length + o.value.length) > maxUInt32 := by
      simp only [kOperationHeaderSize]
      omega
    have hrest := ih (size + (kOperationHeaderSize + o.key.length + o.value.length)) (by
      simp only [kOperationHeaderSize]
      omega)
    simp only [validateSizes, if_neg hfields, if_neg hsize, hrest]

variable {batch ops decoded : WriteBatch} {xs : Bytes}

theorem encode_length_of_valid (h : batch.validateEncoding = .ok) :
    batch.encode.length ≤ maxUInt32 ∧ batch.count ≤ maxUInt32 := by
  unfold validateEncoding at h
  split at h
  · cases h
  · have hle := validateSizes_ok batch 0 h (Nat.zero_le _)
    exact ⟨by omega, by omega⟩

theorem operation_lengths (h : batch.encode.length ≤ maxUInt32) {o : WriteBatchOperation}
    (ho : o ∈ batch) : o.key.length ≤ maxUInt32 ∧ o.value.length ≤ maxUInt32 := by
  induction batch with
  | nil => cases ho
  | cons p ops ih =>
    rw [encode_length_cons] at h
    rcases List.mem_cons.mp ho with rfl | ho
    · constructor <;> omega
    · exact ih (by omega) ho

/-! ## Round trip -/

theorem decodeLoop_operation (o : WriteBatchOperation) (rest : Bytes) (fuel : Nat)
    (hk : o.key.length ≤ maxUInt32) (hv : o.value.length ≤ maxUInt32) :
    decodeLoop (fuel + 1) (o.encode ++ rest) =
      (match decodeLoop fuel rest with
       | .error e => .error e
       | .ok ops => .ok (o :: ops)) := by
  have hlen : ¬ (o.encode ++ rest).length < kOperationHeaderSize := by
    rw [List.length_append, WriteBatchOperation.encode_length, kOperationHeaderSize]
    omega
  have htype : ¬ (o.typeByte ≠ 1 ∧ o.typeByte ≠ 2) := by
    cases o <;> simp [WriteBatchOperation.typeByte]
  have hfields : o.encode ++ rest = o.typeByte :: (encodeFixed32 o.key.length ++
      (encodeFixed32 o.value.length ++ (o.key ++ (o.value ++ rest)))) := by
    simp [WriteBatchOperation.encode]
  rw [hfields] at hlen ⊢
  have hdrop4 : (encodeFixed32 o.key.length ++ (encodeFixed32 o.value.length ++
      (o.key ++ (o.value ++ rest)))).drop 4 =
      encodeFixed32 o.value.length ++ (o.key ++ (o.value ++ rest)) :=
    List.drop_left' (encodeFixed32_length _)
  have hdrop8 : (encodeFixed32 o.key.length ++ (encodeFixed32 o.value.length ++
      (o.key ++ (o.value ++ rest)))).drop 8 = o.key ++ (o.value ++ rest) := by
    rw [show (8 : Nat) = 4 + 4 from rfl, ← List.drop_drop, hdrop4]
    exact List.drop_left' (encodeFixed32_length _)
  have hdata : (o.key ++ (o.value ++ rest)).drop (o.key.length + o.value.length) = rest := by
    rw [← List.append_assoc]
    exact List.drop_left' (by simp)
  have hroom : ¬ (o.key ++ (o.value ++ rest)).length < o.key.length + o.value.length := by
    simp only [List.length_append]
    omega
  have hdel : ¬ (o.typeByte = 2 ∧ o.value ≠ []) := by
    cases o <;> simp [WriteBatchOperation.typeByte, WriteBatchOperation.value]
  simp only [decodeLoop, if_neg hlen, if_neg htype, decodeFixed32_encode hk, hdrop4,
    decodeFixed32_encode hv, hdrop8, if_neg hroom, List.take_left', List.drop_left', hdata,
    if_neg hdel]
  cases decodeLoop fuel rest with
  | error e => rfl
  | ok ops => cases o <;> rfl

theorem decodeLoop_encode (batch : WriteBatch) (fuel : Nat) (hf : batch.length ≤ fuel)
    (hk : ∀ o ∈ batch, o.key.length ≤ maxUInt32 ∧ o.value.length ≤ maxUInt32) :
    decodeLoop fuel batch.encode = .ok batch := by
  induction batch generalizing fuel with
  | nil => cases fuel <;> simp [decodeLoop, encode]
  | cons o ops ih =>
    obtain ⟨fuel, rfl⟩ := Nat.exists_eq_succ_of_ne_zero (n := fuel) (by
      simp only [List.length_cons] at hf
      omega)
    have hrest := ih fuel (by simpa using hf) (fun o' ho' => hk o' (List.mem_cons_of_mem o ho'))
    have hhead := hk o List.mem_cons_self
    rw [encode_cons, decodeLoop_operation o _ fuel hhead.1 hhead.2, hrest]

theorem length_le_encode (batch : WriteBatch) : batch.length ≤ batch.encode.length := by
  induction batch with
  | nil => simp
  | cons o ops ih =>
    rw [encode_length_cons, List.length_cons]
    omega

theorem decode_encode (h : batch.validateEncoding = .ok) : decode batch.encode = .ok batch := by
  have hlen := (encode_length_of_valid h).1
  exact decodeLoop_encode batch _ (length_le_encode batch) (fun o ho => operation_lengths hlen ho)

/-! ## Only encodings are accepted -/

theorem decodeLoop_cons {fuel : Nat} {type : Byte} {fields : Bytes}
    (h : decodeLoop (fuel + 1) (type :: fields) = .ok ops) :
    ∃ o rest more, type :: fields = WriteBatchOperation.encode o ++ rest ∧
      decodeLoop fuel rest = .ok more ∧ ops = o :: more := by
  simp only [decodeLoop] at h
  split at h
  · cases h
  · rename_i hlen
    simp only [kOperationHeaderSize, List.length_cons] at hlen
    split at h
    · cases h
    · rename_i htype
      split at h
      · cases h
      · rename_i hroom
        split at h
        · cases h
        · rename_i hdelete
          split at h
          · cases h
          · rename_i more hmore
            simp only [Except.ok.injEq] at h
            have h4 : (fields.take 4).length = 4 := by
              rw [List.length_take]
              omega
            have h8 : ((fields.drop 4).take 4).length = 4 := by
              rw [List.length_take, List.length_drop]
              omega
            -- the two size fields are the encodings of the values read from them
            have hkey : encodeFixed32 (decodeFixed32 fields) = fields.take 4 := by
              have := FixedWidth.leBytes_leValue (fields.take 4)
              rwa [h4] at this
            have hvalue : encodeFixed32 (decodeFixed32 (fields.drop 4)) = (fields.drop 4).take 4 := by
              have := FixedWidth.leBytes_leValue ((fields.drop 4).take 4)
              rwa [h8] at this
            have hdata : fields.drop 8 = (fields.drop 4).drop 4 := by
              rw [List.drop_drop]
            rw [hdata] at hroom hdelete hmore h
            generalize decodeFixed32 fields = keySize at *
            generalize decodeFixed32 (fields.drop 4) = valueSize at *
            generalize hrest : (fields.drop 4).drop 4 = data at *
            have hkeyLen : (data.take keySize).length = keySize := by
              rw [List.length_take]
              omega
            have hvalueLen : ((data.drop keySize).take valueSize).length = valueSize := by
              rw [List.length_take, List.length_drop]
              omega
            have hsplit : fields = encodeFixed32 keySize ++ (encodeFixed32 valueSize ++
                (data.take keySize ++ ((data.drop keySize).take valueSize ++
                  data.drop (keySize + valueSize)))) := by
              rw [hkey, hvalue, ← List.drop_drop, List.take_append_drop, List.take_append_drop,
                ← hrest, List.take_append_drop, List.take_append_drop]
            refine ⟨if type = 1 then .put (data.take keySize) ((data.drop keySize).take valueSize)
              else .delete (data.take keySize), data.drop (keySize + valueSize), more, ?_, hmore,
              h.symm⟩
            by_cases h1 : type = 1
            · rw [if_pos h1, h1]
              simp only [WriteBatchOperation.encode, WriteBatchOperation.typeByte,
                WriteBatchOperation.key, WriteBatchOperation.value, hkeyLen, hvalueLen,
                List.cons_append, List.append_assoc]
              rw [← hsplit]
            · have h2 : type = 2 := by
                by_contra hne
                exact htype ⟨h1, hne⟩
              have hempty : (data.drop keySize).take valueSize = [] := by
                by_contra hne
                exact hdelete ⟨h2, hne⟩
              have hzero : valueSize = 0 := by
                rw [← hvalueLen, hempty]
                rfl
              rw [if_neg h1, h2]
              simp only [WriteBatchOperation.encode, WriteBatchOperation.typeByte,
                WriteBatchOperation.key, WriteBatchOperation.value, hkeyLen, List.length_nil,
                List.cons_append, List.append_assoc, List.nil_append]
              rw [hempty, hzero, List.nil_append] at hsplit
              rw [hzero, ← hsplit]

/-- The decoder accepts nothing but what `Encode` produces from its result. -/
theorem decodeLoop_sound {fuel : Nat} {bytes : Bytes} (hf : bytes.length ≤ fuel)
    (h : decodeLoop fuel bytes = .ok ops) : encode ops = bytes := by
  induction fuel generalizing bytes ops with
  | zero =>
    have hnil : bytes = [] := List.length_eq_zero_iff.mp (Nat.le_zero.mp hf)
    subst hnil
    cases h
    rfl
  | succ fuel ih =>
    cases bytes with
    | nil =>
      cases h
      rfl
    | cons type fields =>
      obtain ⟨o, rest, more, hbytes, hmore, rfl⟩ := decodeLoop_cons h
      have hlen := congrArg List.length hbytes
      rw [List.length_append, o.encode_length] at hlen
      rw [encode_cons, ih (by omega) hmore, hbytes]

/-- The loop ends by itself: rounds beyond the length of the input change nothing. -/
theorem decodeLoop_fuel {fuel : Nat} {bytes : Bytes} (hf : bytes.length ≤ fuel) :
    decodeLoop fuel bytes = decode bytes := by
  have hsucc : ∀ (fuel : Nat) (bytes : Bytes), bytes.length ≤ fuel →
      decodeLoop (fuel + 1) bytes = decodeLoop fuel bytes := by
    intro fuel
    induction fuel with
    | zero =>
      intro bytes hb
      rw [List.length_eq_zero_iff.mp (Nat.le_zero.mp hb)]
      rfl
    | succ fuel ih =>
      intro bytes hb
      cases bytes with
      | nil => rfl
      | cons type fields =>
        have hrest : ∀ k, ((fields.drop 8).drop k).length ≤ fuel := by
          intro k
          rw [List.length_drop, List.length_drop]
          rw [List.length_cons] at hb
          omega
        have hstep := ih ((fields.drop 8).drop
          (decodeFixed32 fields + decodeFixed32 (fields.drop 4))) (hrest _)
        rw [decodeLoop, decodeLoop]
        dsimp only
        rw [hstep]
  induction fuel with
  | zero => rw [List.length_eq_zero_iff.mp (Nat.le_zero.mp hf)]; rfl
  | succ fuel ih =>
    rcases Nat.lt_or_eq_of_le hf with hlt | heq
    · rw [hsucc fuel bytes (by omega), ih (by omega)]
    · rw [decode, heq]

/-! ## Input of another length -/

theorem decodeLoop_error {fuel : Nat} {bytes : Bytes} {e : Status}
    (h : decodeLoop fuel bytes = .error e) : ∃ message, e = .corruption message := by
  induction fuel generalizing bytes with
  | zero => simp [decodeLoop] at h
  | succ fuel ih =>
    cases bytes with
    | nil => simp [decodeLoop] at h
    | cons type fields =>
      simp only [decodeLoop] at h
      split at h
      · cases h
        exact ⟨_, rfl⟩
      · split at h
        · cases h
          exact ⟨_, rfl⟩
        · split at h
          · cases h
            exact ⟨_, rfl⟩
          · split at h
            · cases h
              exact ⟨_, rfl⟩
            · split at h
              · rename_i hrest
                cases h
                exact ih hrest
              · cases h

theorem validateEncoding_iff (batch : WriteBatch) :
    batch.validateEncoding = .ok ↔ batch.encode.length ≤ maxUInt32 := by
  constructor
  · exact fun h => (encode_length_of_valid h).1
  · intro h
    have hcount : ¬ batch.count > maxUInt32 := by
      have := length_le_encode batch
      simp only [count]
      omega
    rw [validateEncoding, if_neg hcount]
    exact validateSizes_of_le batch 0 (by omega)

theorem encode_length (batch : WriteBatch) :
    batch.encode.length = (batch.map fun o => 9 + o.key.length + o.value.length).sum := by
  induction batch with
  | nil => rfl
  | cons o ops ih => rw [encode_length_cons, ih, List.map_cons, List.sum_cons]

/-- The encoding of batches is a bijection on its image, and `Decode` is its inverse. -/
theorem decodeInto_encode (batch : WriteBatch) :
    (batch.validateEncoding = .ok ↔
      (batch.map fun o => 9 + o.key.length + o.value.length).sum ≤ maxUInt32) ∧
    (batch.validateEncoding = .ok → ∀ before, decodeInto before batch.encode = (.ok, batch)) ∧
    (∀ before bytes, (decodeInto before bytes).1 = .ok → encode (decodeInto before bytes).2 = bytes) ∧
    (∀ before bytes, (decodeInto before bytes).1 ≠ .ok → (decodeInto before bytes).2 = before) ∧
    ∀ bytes fuel, bytes.length ≤ fuel → decodeLoop fuel bytes = decode bytes := by
  refine ⟨?_, ?_, ?_, ?_, fun bytes fuel hf => decodeLoop_fuel hf⟩
  · rw [validateEncoding_iff, encode_length]
  · intro h before
    rw [decodeInto, decode_encode h]
  · intro before bytes h
    rw [decodeInto] at h ⊢
    cases hd : decode bytes with
    | ok ops => exact decodeLoop_sound (Nat.le_refl _) hd
    | error e =>
      rw [hd] at h
      obtain ⟨message, rfl⟩ := decodeLoop_error hd
      cases h
  · intro before bytes h
    rw [decodeInto] at h ⊢
    cases hd : decode bytes with
    | ok ops =>
      rw [hd] at h
      exact absurd rfl h
    | error e => rfl

theorem decodeLoop_cut_operation (o : WriteBatchOperation) (fuel : Nat)
    (hk : o.key.length ≤ maxUInt32) (hv : o.value.length ≤ maxUInt32) (hp : xs <+: o.encode)
    (hne : xs ≠ []) (hlt : xs.length < o.encode.length) :
    ∃ e, decodeLoop (fuel + 1) xs = .error e := by
  obtain ⟨type, fields, rfl⟩ := List.exists_cons_of_ne_nil hne
  by_cases h9 : (type :: fields).length < kOperationHeaderSize
  · exact ⟨.corruption "invalid WriteBatch operation header", by simp only [decodeLoop, if_pos h9]⟩
  · -- the sizes are complete, so the payload is short
    have hcons := List.cons_prefix_cons.mp hp
    have hfields : fields <+: (encodeFixed32 o.key.length ++ encodeFixed32 o.value.length) ++
        (o.key ++ o.value) := by
      simpa [WriteBatchOperation.encode] using hcons.2
    simp only [kOperationHeaderSize, List.length_cons] at h9
    obtain ⟨data, rfl⟩ : encodeFixed32 o.key.length ++ encodeFixed32 o.value.length <+: fields :=
      List.prefix_of_prefix_length_le (List.prefix_append _ _) hfields (by simp; omega)
    have hshort : data.length < o.key.length + o.value.length := by
      rw [WriteBatchOperation.encode_length] at hlt
      simp only [List.length_cons, List.length_append, encodeFixed32_length] at hlt
      omega
    have htype : ¬ (type ≠ 1 ∧ type ≠ 2) := by
      rw [hcons.1]
      cases o <;> simp [WriteBatchOperation.typeByte]
    have hd4 : (encodeFixed32 o.key.length ++ encodeFixed32 o.value.length ++ data).drop 4 =
        encodeFixed32 o.value.length ++ data := by
      rw [List.append_assoc]
      exact List.drop_left' (encodeFixed32_length _)
    have hd8 : (encodeFixed32 o.key.length ++ encodeFixed32 o.value.length ++ data).drop 8 = data :=
      List.drop_left' (by simp)
    have hkey : decodeFixed32 (encodeFixed32 o.key.length ++ encodeFixed32 o.value.length ++ data) =
        o.key.length := by
      rw [List.append_assoc, decodeFixed32_encode hk]
    refine ⟨.corruption "invalid WriteBatch operation payload", ?_⟩
    have hlen : ¬ (type :: (encodeFixed32 o.key.length ++ encodeFixed32 o.value.length ++
        data)).length < kOperationHeaderSize := by
      simp only [kOperationHeaderSize, List.length_cons]
      exact h9
    simp only [decodeLoop, if_neg hlen, if_neg htype, hkey, hd4, decodeFixed32_encode hv, hd8,
      if_pos hshort]

/-- A proper prefix of an encoded batch decodes to fewer operations, if at all. -/
theorem decodeLoop_cut (batch : WriteBatch) (fuel : Nat) (hf : xs.length ≤ fuel)
    (hk : ∀ o ∈ batch, o.key.length ≤ maxUInt32 ∧ o.value.length ≤ maxUInt32)
    (hp : xs <+: batch.encode) (hlt : xs.length < batch.encode.length)
    (h : decodeLoop fuel xs = .ok decoded) : decoded.length < batch.length := by
  induction batch generalizing xs fuel decoded with
  | nil => simp [encode] at hlt
  | cons o ops ih =>
    have hhead := hk o List.mem_cons_self
    by_cases hne : xs = []
    · subst hne
      have hd : decoded = [] := by cases fuel <;> simpa [decodeLoop] using h.symm
      simp [hd]
    · obtain ⟨fuel, rfl⟩ : ∃ k, fuel = k + 1 :=
        Nat.exists_eq_succ_of_ne_zero (by
          have := List.length_pos_of_ne_nil hne
          omega)
      rw [encode_cons] at hp hlt
      by_cases hle : o.encode.length ≤ xs.length
      · obtain ⟨ys, rfl⟩ : o.encode <+: xs :=
          List.prefix_of_prefix_length_le (List.prefix_append _ _) hp hle
        have hys : ys <+: encode ops := (List.prefix_append_right_inj _).mp hp
        rw [decodeLoop_operation o ys fuel hhead.1 hhead.2] at h
        cases hrest : decodeLoop fuel ys with
        | error e => simp [hrest] at h
        | ok more =>
          simp only [hrest, Except.ok.injEq] at h
          have holen := o.encode_length
          simp only [List.length_append] at hlt hf
          have hmore := ih fuel (by omega) (fun o' ho' => hk o' (List.mem_cons_of_mem o ho')) hys
            (by omega) hrest
          rw [← h, List.length_cons, List.length_cons]
          omega
      · have hpre : xs <+: o.encode :=
          List.prefix_of_prefix_length_le hp (List.prefix_append _ _) (by omega)
        obtain ⟨e, he⟩ := decodeLoop_cut_operation o fuel hhead.1 hhead.2 hpre hne (by omega)
        rw [he] at h
        cases h

theorem decodeLoop_longer (batch : WriteBatch) {extra : Bytes} (fuel : Nat)
    (hf : batch.length < fuel) (hne : extra ≠ [])
    (hk : ∀ o ∈ batch, o.key.length ≤ maxUInt32 ∧ o.value.length ≤ maxUInt32)
    (h : decodeLoop fuel (batch.encode ++ extra) = .ok decoded) :
    batch.length < decoded.length := by
  induction batch generalizing fuel decoded with
  | nil =>
    obtain ⟨fuel, rfl⟩ := Nat.exists_eq_succ_of_ne_zero (Nat.ne_of_gt hf)
    obtain ⟨type, fields, rfl⟩ := List.exists_cons_of_ne_nil hne
    simp only [encode, List.flatMap_nil, List.nil_append, decodeLoop] at h
    split at h
    · cases h
    · split at h
      · cases h
      · split at h
        · cases h
        · split at h
          · cases h
          · split at h
            · cases h
            · cases h
              simp
  | cons o ops ih =>
    obtain ⟨fuel, rfl⟩ := Nat.exists_eq_succ_of_ne_zero (n := fuel) (by omega)
    have hhead := hk o List.mem_cons_self
    rw [encode_cons, List.append_assoc, decodeLoop_operation o _ fuel hhead.1 hhead.2] at h
    cases hrest : decodeLoop fuel (encode ops ++ extra) with
    | error e => simp [hrest] at h
    | ok more =>
      simp only [hrest, Except.ok.injEq] at h
      have hmore := ih fuel (by simpa using hf)
        (fun o' ho' => hk o' (List.mem_cons_of_mem o ho')) hrest
      rw [← h, List.length_cons, List.length_cons]
      omega

/-- A payload taken off the encoded batch and what follows it at another length
does not decode to as many operations. -/
theorem decode_other_length (hv : batch.validateEncoding = .ok) (rest : Bytes) {size : Nat}
    (hs : size ≤ (batch.encode ++ rest).length) (hne : size ≠ batch.encode.length)
    (h : decode ((batch.encode ++ rest).take size) = .ok decoded) :
    decoded.count ≠ batch.count := by
  have hlen := (encode_length_of_valid hv).1
  have hk : ∀ o ∈ batch, o.key.length ≤ maxUInt32 ∧ o.value.length ≤ maxUInt32 :=
    fun o ho => operation_lengths hlen ho
  rw [List.length_append] at hs
  rw [decode] at h
  by_cases hlt : size < batch.encode.length
  · rw [List.take_append_of_le_length (by omega)] at h
    have hcut := decodeLoop_cut batch _ (Nat.le_refl _) hk (List.take_prefix _ _)
      (by rw [List.length_take]; omega) h
    simp only [count]
    omega
  · have htake : (batch.encode ++ rest).take size =
        batch.encode ++ rest.take (size - batch.encode.length) := by
      rw [List.take_append, List.take_of_length_le (by omega)]
    have hextra : rest.take (size - batch.encode.length) ≠ [] := by
      intro he
      have := congrArg List.length he
      rw [List.length_take, List.length_nil] at this
      omega
    rw [htake] at h
    have hfuel : batch.length <
        (batch.encode ++ rest.take (size - batch.encode.length)).length := by
      have h1 := length_le_encode batch
      have h2 := List.length_pos_of_ne_nil hextra
      rw [List.length_append]
      omega
    have hmore := decodeLoop_longer batch _ hfuel hextra hk h
    simp only [count]
    omega

end WriteBatch

end KvMem
