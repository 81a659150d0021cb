import KvMem.Storage.Types

/-! # Fixed integers and the checksum -/

namespace KvMem

open FixedWidth

def encodeFixed32 (value : Nat) : Bytes := leBytes 4 value

def encodeFixed64 (value : Nat) : Bytes := leBytes 8 value

def decodeFixed32 (buffer : Bytes) : Nat := leValue (buffer.take 4)

def decodeFixed64 (buffer : Bytes) : Nat := leValue (buffer.take 8)

@[simp] theorem encodeFixed32_length (v : Nat) : (encodeFixed32 v).length = 4 := leBytes_length 4 v

@[simp] theorem encodeFixed64_length (v : Nat) : (encodeFixed64 v).length = 8 := leBytes_length 8 v

theorem decodeFixed32_encode_mod (v : Nat) (rest : Bytes) :
    decodeFixed32 (encodeFixed32 v ++ rest) = v % 2 ^ 32 := by
  rw [decodeFixed32, List.take_left' (encodeFixed32_length v), encodeFixed32, leValue_leBytes,
    show (256 : Nat) ^ 4 = 2 ^ 32 by decide]

theorem decodeFixed32_encode {v : Nat} (h : v ≤ maxUInt32) (rest : Bytes) :
    decodeFixed32 (encodeFixed32 v ++ rest) = v := by
  have hv : v < 2 ^ 32 := by
    unfold maxUInt32 at h
    omega
  rw [decodeFixed32_encode_mod, Nat.mod_eq_of_lt hv]

theorem decodeFixed64_encode_mod (v : Nat) (rest : Bytes) :
    decodeFixed64 (encodeFixed64 v ++ rest) = v % 2 ^ 64 := by
  rw [decodeFixed64, List.take_left' (encodeFixed64_length v), encodeFixed64, leValue_leBytes,
    show (256 : Nat) ^ 8 = 2 ^ 64 by decide]

theorem decodeFixed64_encode {v : Nat} (h : v ≤ maxUInt64) (rest : Bytes) :
    decodeFixed64 (encodeFixed64 v ++ rest) = v := by
  have hv : v < 2 ^ 64 := by
    unfold maxUInt64 at h
    omega
  rw [decodeFixed64_encode_mod, Nat.mod_eq_of_lt hv]

theorem decodeFixed32_take (buffer : Bytes) : decodeFixed32 (buffer.take 4) = decodeFixed32 buffer := by
  rw [decodeFixed32, List.take_take, Nat.min_self, decodeFixed32]

theorem decodeFixed64_take (buffer : Bytes) : decodeFixed64 (buffer.take 8) = decodeFixed64 buffer := by
  rw [decodeFixed64, List.take_take, Nat.min_self, decodeFixed64]

theorem decodeFixed32_le (buffer : Bytes) : decodeFixed32 buffer ≤ maxUInt32 := by
  have hlt := leValue_lt (buffer.take 4)
  have hpow : 256 ^ (buffer.take 4).length ≤ 256 ^ 4 :=
    Nat.pow_le_pow_right (by decide) (List.length_take_le 4 buffer)
  unfold decodeFixed32 maxUInt32
  omega

theorem encodeFixed32_decode {buffer : Bytes} (h : 4 ≤ buffer.length) :
    encodeFixed32 (decodeFixed32 buffer) = buffer.take 4 := by
  have hlen : (buffer.take 4).length = 4 := by
    rw [List.length_take]
    omega
  have hback := leBytes_leValue (buffer.take 4)
  rwa [hlen] at hback

theorem decodeFixed64_le (buffer : Bytes) : decodeFixed64 buffer ≤ maxUInt64 := by
  have hlt := leValue_lt (buffer.take 8)
  have hpow : 256 ^ (buffer.take 8).length ≤ 256 ^ 8 :=
    Nat.pow_le_pow_right (by decide) (List.length_take_le 8 buffer)
  unfold decodeFixed64 maxUInt64
  omega

/-- One shift of the reflected polynomial. -/
def crcBit (crc : Nat) : Nat := (crc >>> 1) ^^^ (if crc % 2 = 1 then 0xedb88320 else 0)

def crcByte (crc : Nat) (byte : Byte) : Nat :=
  crcBit (crcBit (crcBit (crcBit (crcBit (crcBit (crcBit (crcBit (crc ^^^ byte.val))))))))

def crc32 (data : Bytes) : Nat := data.foldl crcByte 0xffffffff ^^^ 0xffffffff

theorem crcBit_lt {crc : Nat} (h : crc < 2 ^ 32) : crcBit crc < 2 ^ 32 := by
  unfold crcBit
  apply Nat.xor_lt_two_pow
  · rw [Nat.shiftRight_eq_div_pow]
    omega
  · split <;> omega

theorem crcByte_lt {crc : Nat} (byte : Byte) (h : crc < 2 ^ 32) : crcByte crc byte < 2 ^ 32 := by
  unfold crcByte
  have hb := byte.isLt
  have hx : crc ^^^ byte.val < 2 ^ 32 := Nat.xor_lt_two_pow h (by omega)
  exact crcBit_lt (crcBit_lt (crcBit_lt (crcBit_lt (crcBit_lt (crcBit_lt (crcBit_lt
    (crcBit_lt hx)))))))

theorem foldl_crcByte_lt (data : Bytes) {crc : Nat} (h : crc < 2 ^ 32) :
    data.foldl crcByte crc < 2 ^ 32 := by
  induction data generalizing crc with
  | nil => exact h
  | cons b bs ih => exact ih (crcByte_lt b h)

theorem crc32_le (data : Bytes) : crc32 data ≤ maxUInt32 := by
  have h : crc32 data < 2 ^ 32 :=
    Nat.xor_lt_two_pow (foldl_crcByte_lt data (by decide)) (by decide)
  unfold maxUInt32
  omega

example : crc32 (ascii "123456789") = 0xcbf43926 := by decide +kernel

end KvMem
