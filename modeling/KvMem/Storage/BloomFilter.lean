import KvMem.Storage.Util

/-! # Bloom filter

The filter of one table. Only its guarantee matters to readers: a key it was
built from is never ruled out.
-/

namespace KvMem

structure BloomFilter where
  bitCount : Nat
  hashCount : Nat
  bits : Bytes
  deriving DecidableEq, Repr

namespace BloomFilter

def hash (key : Bytes) (seed : Nat) : Nat :=
  key.foldl (fun h ch =>
    let h := (h ^^^ ch.val) * 0x5bd1e995 % 2 ^ 32
    h ^^^ (h >>> 15)) (seed ^^^ (key.length % 2 ^ 32))

def probe (bitCount : Nat) (key : Bytes) (i : Nat) : Nat :=
  (hash key 0x9747b28c + i * hash key 0x5bd1e995) % 2 ^ 32 % bitCount

def setBit (bits : Bytes) (bit : Nat) : Bytes :=
  bits.modify (bit / 8) fun b => Fin.ofNat 256 (b.val ||| 2 ^ (bit % 8))

def testBit (bits : Bytes) (bit : Nat) : Bool := (bits.getD (bit / 8) 0).val.testBit (bit % 8)

def addKey (bitCount hashCount : Nat) (bits : Bytes) (key : Bytes) : Bytes :=
  (List.range hashCount).foldl (fun bits i => setBit bits (probe bitCount key i)) bits

/-- `Build` for any hash count. -/
def buildWith (keys : List Bytes) (bitsPerKey hashCount : Nat) : BloomFilter :=
  let bitCount := max 64 (keys.length * max 1 bitsPerKey) % 2 ^ 32
  ⟨bitCount, hashCount, keys.foldl (addKey bitCount hashCount)
    (List.replicate ((bitCount + 7) % 2 ^ 32 / 8) 0)⟩

/-- The factor 0.69 rounds down as 69/100 does for every admitted width. -/
def build (keys : List Bytes) (bitsPerKey : Nat) : BloomFilter :=
  buildWith keys bitsPerKey (max 1 (min 30 (bitsPerKey * 69 / 100)))

def encode (f : BloomFilter) : Bytes :=
  encodeFixed32 f.bitCount ++ (encodeFixed32 f.hashCount ++ f.bits)

def decode (data : Bytes) : Except Status BloomFilter :=
  if data.length < 8 then .error (.corruption "invalid bloom filter")
  else
    let bitCount := decodeFixed32 data
    let hashCount := decodeFixed32 (data.drop 4)
    if data.length ≠ (bitCount + 7) / 8 + 8 ∨ bitCount = 0 ∨ hashCount = 0 ∨ hashCount > 30 then
      .error (.corruption "invalid bloom filter payload")
    else .ok ⟨bitCount, hashCount, data.drop 8⟩

def mayContain (f : BloomFilter) (key : Bytes) : Bool :=
  if f.bitCount = 0 ∨ f.hashCount = 0 then true
  else (List.range f.hashCount).all fun i => testBit f.bits (probe f.bitCount key i)

@[simp] theorem setBit_length (bits : Bytes) (bit : Nat) : (setBit bits bit).length = bits.length := by
  simp [setBit]

theorem addKey_length (c h : Nat) (bits key : Bytes) : (addKey c h bits key).length = bits.length := by
  unfold addKey
  induction List.range h generalizing bits with
  | nil => rfl
  | cons i is ih => rw [List.foldl_cons, ih, setBit_length]

theorem testBit_or (b : Byte) (j i : Nat) (hi : i < 8) :
    (Fin.ofNat 256 (b.val ||| 2 ^ j) : Byte).val.testBit i =
      (b.val.testBit i || (2 ^ j).testBit i) := by
  have h := Nat.testBit_mod_two_pow (b.val ||| 2 ^ j) 8 i
  rw [Nat.testBit_or, decide_eq_true hi, Bool.true_and] at h
  rw [Fin.val_ofNat]
  exact h

variable {bit c h i bitsPerKey bitCount hashCount : Nat} {bits : Bytes} {keys : List Bytes}

theorem testBit_setBit_self (h : bit / 8 < bits.length) : testBit (setBit bits bit) bit = true := by
  have hmod : bit % 8 < 8 := Nat.mod_lt bit (by decide)
  simp only [testBit, setBit, List.getD_eq_getElem?_getD, List.getElem?_modify]
  rw [List.getElem?_eq_getElem h]
  simp only [if_true, Option.map_eq_map, Option.map_some, Option.getD_some]
  rw [testBit_or _ _ _ hmod]
  simp [Nat.testBit_two_pow_self]

theorem testBit_setBit_of {bit' : Nat} (h : testBit bits bit' = true) :
    testBit (setBit bits bit) bit' = true := by
  have hmod : bit' % 8 < 8 := Nat.mod_lt bit' (by decide)
  simp only [testBit, setBit, List.getD_eq_getElem?_getD, List.getElem?_modify] at h ⊢
  cases hb : bits[bit' / 8]? with
  | none =>
    rw [hb] at h
    simp at h
  | some b =>
    rw [hb] at h
    simp only [Option.getD_some] at h
    split
    · simp only [Option.map_eq_map, Option.map_some, Option.getD_some]
      rw [testBit_or _ _ _ hmod, h]
      rfl
    · simpa using h

theorem testBit_addKey_of {key : Bytes} (ht : testBit bits bit = true) :
    testBit (addKey c h bits key) bit = true := by
  unfold addKey
  induction List.range h generalizing bits with
  | nil => exact ht
  | cons i is ih => exact ih (testBit_setBit_of ht)

theorem testBit_addKey_self {key : Bytes} (hi : i < h) (hb : probe c key i / 8 < bits.length) :
    testBit (addKey c h bits key) (probe c key i) = true := by
  have hmem : i ∈ List.range h := List.mem_range.mpr hi
  unfold addKey
  revert hmem
  generalize List.range h = probes
  intro hmem
  induction probes generalizing bits with
  | nil => cases hmem
  | cons j js ih =>
    rw [List.foldl_cons]
    rcases List.mem_cons.mp hmem with rfl | hmem'
    · -- set now, and never cleared again
      clear ih hmem
      have hset := testBit_setBit_self hb
      generalize setBit bits (probe c key i) = bits' at hset
      induction js generalizing bits' with
      | nil => exact hset
      | cons j js ih => exact ih _ (testBit_setBit_of hset)
    · exact ih (by simpa using hb) hmem'

theorem testBit_foldl_addKey {key : Bytes} (hk : key ∈ keys) (hi : i < h)
    (hb : probe c key i / 8 < bits.length) :
    testBit (keys.foldl (addKey c h) bits) (probe c key i) = true := by
  induction keys generalizing bits with
  | nil => cases hk
  | cons x xs ih =>
    rw [List.foldl_cons]
    rcases List.mem_cons.mp hk with rfl | hk'
    · clear ih hk
      have hset := testBit_addKey_self hi hb
      generalize addKey c h bits key = bits' at hset
      induction xs generalizing bits' with
      | nil => exact hset
      | cons y ys ih => exact ih _ (testBit_addKey_of hset)
    · exact ih hk' (by rwa [addKey_length])

theorem counts_fit {keys : Nat} (hsize : keys * bitsPerKey ≤ maxUInt32 - 7)
    (hpos : 1 ≤ bitsPerKey) : max 64 (keys * max 1 bitsPerKey) + 7 < 2 ^ 32 := by
  have hmax : max 1 bitsPerKey = bitsPerKey := max_eq_right hpos
  have hlim : maxUInt32 = 2 ^ 32 - 1 := rfl
  rw [hmax]
  omega

theorem buildWith_eq (hashCount : Nat) (hsize : keys.length * bitsPerKey ≤ maxUInt32 - 7)
    (hpos : 1 ≤ bitsPerKey) :
    ∃ bitCount, 64 ≤ bitCount ∧ bitCount + 7 < 2 ^ 32 ∧
      buildWith keys bitsPerKey hashCount = ⟨bitCount, hashCount,
        keys.foldl (addKey bitCount hashCount) (List.replicate ((bitCount + 7) / 8) 0)⟩ := by
  have hfit := counts_fit hsize hpos
  have hcount : max 64 (keys.length * max 1 bitsPerKey) < 2 ^ 32 := by omega
  refine ⟨max 64 (keys.length * max 1 bitsPerKey), le_max_left _ _, hfit, ?_⟩
  simp only [buildWith, Nat.mod_eq_of_lt hcount, Nat.mod_eq_of_lt hfit]

theorem probe_div_lt (hpos : 64 ≤ bitCount) (key : Bytes) (i : Nat) :
    probe bitCount key i / 8 < (bitCount + 7) / 8 := by
  have hlt : probe bitCount key i < bitCount := Nat.mod_lt _ (by omega)
  omega

theorem mayContain_buildWith {key : Bytes} (hk : key ∈ keys)
    (hsize : keys.length * bitsPerKey ≤ maxUInt32 - 7) (hpos : 1 ≤ bitsPerKey)
    (hhash : 1 ≤ hashCount) : (buildWith keys bitsPerKey hashCount).mayContain key = true := by
  obtain ⟨c, h64, _, heq⟩ := buildWith_eq hashCount hsize hpos
  have hno : ¬ (c = 0 ∨ hashCount = 0) := by omega
  rw [heq]
  simp only [mayContain, hno, if_false, List.all_eq_true, List.mem_range]
  intro i hi
  apply testBit_foldl_addKey hk hi
  rw [List.length_replicate]
  exact probe_div_lt h64 key i

theorem mayContain_build {key : Bytes} (hk : key ∈ keys)
    (hsize : keys.length * bitsPerKey ≤ maxUInt32 - 7) (hpos : 1 ≤ bitsPerKey) :
    (build keys bitsPerKey).mayContain key = true :=
  mayContain_buildWith hk hsize hpos (le_max_left _ _)

/-! ## Encoded filters -/

structure Wf (f : BloomFilter) : Prop where
  bitCount_pos : f.bitCount ≠ 0
  bitCount_le : f.bitCount ≤ maxUInt32
  hashCount_pos : f.hashCount ≠ 0
  hashCount_le : f.hashCount ≤ 30
  bits : f.bits.length = (f.bitCount + 7) / 8

theorem foldl_addKey_length (c h : Nat) (keys : List Bytes) (bits : Bytes) :
    (keys.foldl (addKey c h) bits).length = bits.length := by
  induction keys generalizing bits with
  | nil => rfl
  | cons key keys ih => rw [List.foldl_cons, ih, addKey_length]

theorem buildWith_wf (hsize : keys.length * bitsPerKey ≤ maxUInt32 - 7) (hpos : 1 ≤ bitsPerKey)
    (hhash : 1 ≤ hashCount) (h30 : hashCount ≤ 30) : (buildWith keys bitsPerKey hashCount).Wf := by
  obtain ⟨c, h64, hfit, heq⟩ := buildWith_eq hashCount hsize hpos
  have hlim : maxUInt32 = 2 ^ 32 - 1 := rfl
  rw [heq]
  exact {
    bitCount_pos := show c ≠ 0 by omega
    bitCount_le := show c ≤ maxUInt32 by omega
    hashCount_pos := show hashCount ≠ 0 by omega
    hashCount_le := h30
    bits := by rw [foldl_addKey_length, List.length_replicate] }

theorem build_wf (hsize : keys.length * bitsPerKey ≤ maxUInt32 - 7) (hpos : 1 ≤ bitsPerKey) :
    (build keys bitsPerKey).Wf :=
  buildWith_wf hsize hpos (le_max_left _ _) (by omega)

theorem encode_length (f : BloomFilter) : f.encode.length = 8 + f.bits.length := by
  simp only [encode, List.length_append, encodeFixed32_length]
  omega

theorem decode_encode {f : BloomFilter} (h : f.Wf) : decode f.encode = .ok f := by
  have hcount : decodeFixed32 f.encode = f.bitCount := by
    rw [encode, decodeFixed32_encode h.bitCount_le]
  have hdrop : f.encode.drop 4 = encodeFixed32 f.hashCount ++ f.bits := by
    rw [encode, List.drop_left' (encodeFixed32_length _)]
  have hhash : decodeFixed32 (f.encode.drop 4) = f.hashCount := by
    have hle := h.hashCount_le
    rw [hdrop, decodeFixed32_encode (by unfold maxUInt32; omega)]
  have hbits : f.encode.drop 8 = f.bits := by
    rw [show 8 = 4 + 4 from rfl, ← List.drop_drop, hdrop, List.drop_left' (encodeFixed32_length _)]
  have hlen := encode_length f
  have hsize := h.bits
  have hok : ¬ (f.encode.length ≠ (f.bitCount + 7) / 8 + 8 ∨ f.bitCount = 0 ∨ f.hashCount = 0 ∨
      f.hashCount > 30) := by
    have h1 := h.bitCount_pos
    have h2 := h.hashCount_pos
    have h3 := h.hashCount_le
    omega
  rw [decode, if_neg (by omega)]
  simp only [hcount, hhash, hbits]
  rw [if_neg hok]

/-! ## Building with checked indices -/

/-- The write to `bits_[bit / 8]`, which must be inside the array. -/
def checkedSetBit (bits : Bytes) (bit : Nat) : Option Bytes :=
  if bit / 8 < bits.length then some (setBit bits bit) else none

def checkedAddKey (bitCount hashCount : Nat) (bits : Bytes) (key : Bytes) : Option Bytes :=
  (List.range hashCount).foldlM (fun bits i => checkedSetBit bits (probe bitCount key i)) bits

/-- `buildWith`, where a count beyond 32 bits or an index outside the array is a failure. -/
def checkedBuild (keys : List Bytes) (bitsPerKey hashCount : Nat) : Option BloomFilter :=
  let bitCount := max 64 (keys.length * max 1 bitsPerKey)
  if bitCount + 7 < 2 ^ 32 then
    (keys.foldlM (checkedAddKey bitCount hashCount) (List.replicate ((bitCount + 7) / 8) 0)).map
      fun bits => ⟨bitCount, hashCount, bits⟩
  else none

theorem checkedAddKey_eq (hpos : 64 ≤ bitCount) (hashCount : Nat)
    (hlen : bits.length = (bitCount + 7) / 8) (key : Bytes) :
    checkedAddKey bitCount hashCount bits key = some (addKey bitCount hashCount bits key) := by
  unfold checkedAddKey addKey
  induction List.range hashCount generalizing bits with
  | nil => rfl
  | cons i is ih =>
    have hin : probe bitCount key i / 8 < bits.length := by
      rw [hlen]
      exact probe_div_lt hpos key i
    rw [List.foldlM_cons, checkedSetBit, if_pos hin]
    exact ih (by rw [setBit_length, hlen])

theorem foldlM_checkedAddKey (hpos : 64 ≤ bitCount) (hashCount : Nat) (keys : List Bytes)
    (hlen : bits.length = (bitCount + 7) / 8) :
    keys.foldlM (checkedAddKey bitCount hashCount) bits =
      some (keys.foldl (addKey bitCount hashCount) bits) := by
  induction keys generalizing bits with
  | nil => rfl
  | cons key keys ih =>
    rw [List.foldlM_cons, checkedAddKey_eq hpos hashCount hlen]
    exact ih (by rw [addKey_length, hlen])

theorem checkedBuild_eq (hashCount : Nat) (hsize : keys.length * bitsPerKey ≤ maxUInt32 - 7)
    (hpos : 1 ≤ bitsPerKey) :
    checkedBuild keys bitsPerKey hashCount = some (buildWith keys bitsPerKey hashCount) := by
  have hfit := counts_fit hsize hpos
  have hcount : max 64 (keys.length * max 1 bitsPerKey) < 2 ^ 32 := by omega
  have h64 : 64 ≤ max 64 (keys.length * max 1 bitsPerKey) := le_max_left _ _
  simp only [checkedBuild, buildWith, Nat.mod_eq_of_lt hcount, Nat.mod_eq_of_lt hfit, if_pos hfit,
    foldlM_checkedAddKey h64 hashCount keys (List.length_replicate), Option.map_some]

/-- From building over the encoding to the answers: for every number of keys and every
width the writer admits, the build stays inside its counts and its array, the encoding
reads back, and no key is ruled out. -/
theorem filter_keeps_keys {keys : List Bytes} {bitsPerKey hashCount : Nat}
    (hpos : 1 ≤ bitsPerKey) (hsize : keys.length ≤ (maxUInt32 - 7) / bitsPerKey)
    (hhash : 1 ≤ hashCount) (h30 : hashCount ≤ 30) :
    checkedBuild keys bitsPerKey hashCount = some (buildWith keys bitsPerKey hashCount) ∧
    ∃ filter, decode (buildWith keys bitsPerKey hashCount).encode = .ok filter ∧
      ∀ key ∈ keys, filter.mayContain key = true := by
  have hmul : keys.length * bitsPerKey ≤ maxUInt32 - 7 := (Nat.le_div_iff_mul_le hpos).mp hsize
  refine ⟨checkedBuild_eq hashCount hmul hpos, _, decode_encode (buildWith_wf hmul hpos hhash h30), ?_⟩
  intro key hk
  exact mayContain_buildWith hk hmul hpos hhash

theorem filter_keeps_keys_two :
    checkedBuild [ascii "a", ascii "b"] 10 6 = some (buildWith [ascii "a", ascii "b"] 10 6) ∧
    ∃ filter, decode (buildWith [ascii "a", ascii "b"] 10 6).encode = .ok filter ∧
      ∀ key ∈ [ascii "a", ascii "b"], filter.mayContain key = true :=
  filter_keeps_keys (by decide) (by decide) (by decide) (by decide)

end BloomFilter

end KvMem
