import KvMem.Storage.Util

/-! # One flipped bit

The damage model: one bit of a file is inverted. A flip changes exactly one byte,
so it changes every fixed integer it falls into, and the checksum of every block
of bytes it falls into. The checksum detects more: any change within four bytes.
-/

namespace KvMem

open FixedWidth

def flipByte (bit : Fin 8) (b : Byte) : Byte := Fin.ofNat 256 (b.val ^^^ 2 ^ bit.val)

/-- Invert bit `bit` of the byte at offset `i`. -/
def flipBit (i : Nat) (bit : Fin 8) (bytes : Bytes) : Bytes := bytes.modify i (flipByte bit)

theorem flipByte_ne (bit : Fin 8) (b : Byte) : flipByte bit b ≠ b := by
  revert bit b
  decide +kernel

@[simp] theorem flipBit_length (i : Nat) (bit : Fin 8) (bytes : Bytes) :
    (flipBit i bit bytes).length = bytes.length := by
  simp [flipBit]

variable {i k crc a b c : Nat} {xs : Bytes}

theorem flipBit_append_left (bit : Fin 8) (ys : Bytes) (h : i < xs.length) :
    flipBit i bit (xs ++ ys) = flipBit i bit xs ++ ys := by
  induction xs generalizing i with
  | nil => simp at h
  | cons x xs ih =>
    cases i with
    | zero => simp [flipBit]
    | succ i =>
      have hx := ih (by simpa using h)
      simpa [flipBit] using hx

theorem flipBit_append_right (i : Nat) (bit : Fin 8) (xs ys : Bytes) :
    flipBit (xs.length + i) bit (xs ++ ys) = xs ++ flipBit i bit ys := by
  induction xs with
  | nil => simp
  | cons x xs ih =>
    have hlen : (x :: xs).length + i = (xs.length + i) + 1 := by
      simp only [List.length_cons]
      omega
    rw [hlen]
    simpa [flipBit] using ih

theorem flipBit_split (bit : Fin 8) {bytes : Bytes} (h : i < bytes.length) :
    ∃ front b back, bytes = front ++ b :: back ∧ front.length = i ∧
      flipBit i bit bytes = front ++ flipByte bit b :: back := by
  obtain ⟨b, back, hdrop⟩ : ∃ b back, bytes.drop i = b :: back :=
    ⟨_, _, List.drop_eq_getElem_cons h⟩
  have hlen : (bytes.take i).length = i := by
    rw [List.length_take]
    omega
  have hbytes : bytes = bytes.take i ++ b :: back := by
    rw [← hdrop, List.take_append_drop]
  refine ⟨bytes.take i, b, back, hbytes, hlen, ?_⟩
  have hr := flipBit_append_right 0 bit (bytes.take i) (b :: back)
  rw [hlen, Nat.add_zero, ← hbytes] at hr
  simpa [flipBit] using hr

theorem flipBit_ne (bit : Fin 8) {bytes : Bytes} (h : i < bytes.length) :
    flipBit i bit bytes ≠ bytes := by
  obtain ⟨front, b, back, hb, _, hf⟩ := flipBit_split bit h
  rw [hf]
  intro he
  rw [hb] at he
  have hcons := List.append_cancel_left he
  exact flipByte_ne bit b (List.cons.inj hcons).1

theorem flipBit_drop_of_lt (bit : Fin 8) {bytes : Bytes} (h : i < k) (hk : k ≤ bytes.length) :
    (flipBit i bit bytes).drop k = bytes.drop k := by
  have hlen : (bytes.take k).length = k := by
    rw [List.length_take]
    omega
  have hin : i < (bytes.take k).length := by rwa [hlen]
  have hflip := flipBit_append_left bit (bytes.drop k) hin
  rw [List.take_append_drop] at hflip
  rw [hflip]
  exact List.drop_left' (by rw [flipBit_length, hlen])

theorem flipBit_drop_of_ge (bit : Fin 8) {bytes : Bytes} (h : k ≤ i) (hk : k ≤ bytes.length) :
    (flipBit i bit bytes).drop k = flipBit (i - k) bit (bytes.drop k) := by
  have hlen : (bytes.take k).length = k := by
    rw [List.length_take]
    omega
  have hflip := flipBit_append_right (i - k) bit (bytes.take k) (bytes.drop k)
  rw [hlen, List.take_append_drop, Nat.add_sub_cancel' h] at hflip
  rw [hflip]
  exact List.drop_left' hlen

theorem flipBit_take_of_le (bit : Fin 8) {bytes : Bytes} (h : k ≤ i) (hk : k ≤ bytes.length) :
    (flipBit i bit bytes).take k = bytes.take k := by
  have hlen : (bytes.take k).length = k := by
    rw [List.length_take]
    omega
  have hflip := flipBit_append_right (i - k) bit (bytes.take k) (bytes.drop k)
  rw [hlen, List.take_append_drop, Nat.add_sub_cancel' h] at hflip
  rw [hflip]
  exact List.take_left' hlen

/-! ## Fixed integers -/

theorem leValue_inj {ys : Bytes} (hlen : xs.length = ys.length) (h : leValue xs = leValue ys) :
    xs = ys := by
  induction xs generalizing ys with
  | nil => exact (List.length_eq_zero_iff.mp hlen.symm).symm
  | cons x xs ih =>
    cases ys with
    | nil => simp at hlen
    | cons y ys =>
      have hx := x.isLt
      have hy := y.isLt
      simp only [leValue] at h
      have hhead : x = y := Fin.ext (by omega)
      have htail := ih (by simpa using hlen) (by omega)
      rw [hhead, htail]

theorem decodeFixed32_flip_ne (bit : Fin 8) {bytes : Bytes} (hi : i < 4) (hlen : bytes.length = 4)
    (rest : Bytes) :
    decodeFixed32 (flipBit i bit bytes ++ rest) ≠ decodeFixed32 (bytes ++ rest) := by
  have htake : (flipBit i bit bytes ++ rest).take 4 = flipBit i bit bytes :=
    List.take_left' (by simpa using hlen)
  rw [decodeFixed32, decodeFixed32, htake, List.take_left' hlen]
  intro h
  exact flipBit_ne bit (by omega) (leValue_inj (flipBit_length _ _ _) h)

/-! ## The checksum

One shift of the register is injective: its top bit tells whether the polynomial
was added, because the polynomial has its top bit set and a shifted value has not.
It is linear in exclusive or as well, so that up to four bytes act like one word. -/

theorem crcBit_testBit_31 (h : crc < 2 ^ 32) : (crcBit crc).testBit 31 = decide (crc % 2 = 1) := by
  have hshift : (crc >>> 1).testBit 31 = false := by
    rw [Nat.testBit_shiftRight]
    exact Nat.testBit_lt_two_pow (by omega)
  rw [crcBit, Nat.testBit_xor, hshift, Bool.false_xor]
  by_cases hb : crc % 2 = 1
  · rw [if_pos hb, decide_eq_true hb]
    decide +kernel
  · rw [if_neg hb, decide_eq_false hb, Nat.zero_testBit]

theorem crcBit_inj (ha : a < 2 ^ 32) (hb : b < 2 ^ 32) (h : crcBit a = crcBit b) : a = b := by
  have htop := crcBit_testBit_31 ha
  rw [h, crcBit_testBit_31 hb] at htop
  have hlow : (a % 2 = 1) ↔ (b % 2 = 1) := by simpa using htop.symm
  simp only [crcBit, hlow] at h
  have hhigh : a >>> 1 = b >>> 1 := Nat.xor_left_inj.mp h
  rw [Nat.shiftRight_eq_div_pow, Nat.shiftRight_eq_div_pow] at hhigh
  omega

theorem crcBits_inj (ha : a < 2 ^ 32) (hb : b < 2 ^ 32) (n : Nat)
    (h : crcBit^[n] a = crcBit^[n] b) : a = b := by
  induction n generalizing a b with
  | zero => exact h
  | succ n ih =>
    rw [Function.iterate_succ_apply, Function.iterate_succ_apply] at h
    exact crcBit_inj ha hb (ih (crcBit_lt ha) (crcBit_lt hb) h)

theorem crcByte_eq_iterate (crc : Nat) (b : Byte) : crcByte crc b = crcBit^[8] (crc ^^^ b.val) := rfl

theorem xor_byte_lt (b : Byte) (h : crc < 2 ^ 32) : crc ^^^ b.val < 2 ^ 32 :=
  Nat.xor_lt_two_pow h (by have := b.isLt; omega)

theorem crcByte_inj_left (ha : a < 2 ^ 32) (hc : c < 2 ^ 32) (b : Byte)
    (h : crcByte a b = crcByte c b) : a = c := by
  rw [crcByte_eq_iterate, crcByte_eq_iterate] at h
  exact Nat.xor_left_inj.mp (crcBits_inj (xor_byte_lt b ha) (xor_byte_lt b hc) 8 h)

theorem foldl_crcByte_inj (ha : a < 2 ^ 32) (hc : c < 2 ^ 32) (data : Bytes)
    (h : data.foldl crcByte a = data.foldl crcByte c) : a = c := by
  induction data generalizing a c with
  | nil => exact h
  | cons b bs ih =>
    exact crcByte_inj_left ha hc b (ih (crcByte_lt b ha) (crcByte_lt b hc) h)

theorem crcBit_xor (a b : Nat) : crcBit (a ^^^ b) = crcBit a ^^^ crcBit b := by
  have hparity : (a ^^^ b) % 2 = (a % 2 + b % 2) % 2 := Nat.xor_mod_two_eq.trans (by omega)
  unfold crcBit
  rw [Nat.shiftRight_xor_distrib, hparity]
  rcases Nat.mod_two_eq_zero_or_one a with ha | ha
  · rcases Nat.mod_two_eq_zero_or_one b with hb | hb
    · simp [ha, hb]
    · simp [ha, hb, Nat.xor_assoc]
  · rcases Nat.mod_two_eq_zero_or_one b with hb | hb
    · simp only [ha, hb, Nat.zero_ne_one, if_true, if_false, Nat.xor_zero]
      ac_rfl
    · -- the polynomial is added twice
      generalize 0xedb88320 = polynomial
      have hregroup : ∀ x y p : Nat, (x ^^^ p) ^^^ (y ^^^ p) = (x ^^^ y) ^^^ (p ^^^ p) := by
        intro x y p
        ac_rfl
      simp only [ha, hb, if_true]
      rw [hregroup, Nat.xor_self]
      rfl

theorem crcBits_xor (n a b : Nat) : crcBit^[n] (a ^^^ b) = crcBit^[n] a ^^^ crcBit^[n] b := by
  induction n generalizing a b with
  | zero => rfl
  | succ n ih =>
    rw [Function.iterate_succ_apply, crcBit_xor, ih, Function.iterate_succ_apply,
      Function.iterate_succ_apply]

theorem crcBits_high (n v : Nat) : crcBit^[n] (2 ^ n * v) = v := by
  induction n with
  | zero => simp
  | succ n ih =>
    have hstep : crcBit (2 ^ (n + 1) * v) = 2 ^ n * v := by
      have htwo : 2 ^ (n + 1) * v = 2 * (2 ^ n * v) := by
        rw [Nat.pow_succ']
        exact Nat.mul_assoc _ _ _
      rw [crcBit, htwo, if_neg (by omega), Nat.xor_zero, Nat.shiftRight_eq_div_pow]
      omega
    rw [Function.iterate_succ_apply, hstep, ih]

/-- Bytes fed one after the other act like one word that is added before the shifts. -/
theorem foldl_crcByte_eq (data : Bytes) (crc : Nat) :
    data.foldl crcByte crc = crcBit^[8 * data.length] (crc ^^^ leValue data) := by
  induction data generalizing crc with
  | nil => simp [leValue]
  | cons b bs ih =>
    have hword : leValue (b :: bs) = b.val ^^^ 2 ^ 8 * leValue bs := by
      have hb : b.val < 2 ^ 8 := b.isLt
      have hsum : leValue (b :: bs) = 2 ^ 8 * leValue bs + b.val := by
        simp only [leValue]
        omega
      apply Nat.eq_of_testBit_eq
      intro i
      rw [hsum, Nat.testBit_two_pow_mul_add _ hb, Nat.testBit_xor, Nat.testBit_two_pow_mul]
      by_cases hi : i < 8
      · have hge : ¬ 8 ≤ i := by omega
        simp [hi, hge]
      · have hclear : b.val.testBit i = false :=
          Nat.testBit_lt_two_pow (hb.trans_le (Nat.pow_le_pow_right (by decide) (by omega)))
        have hge : 8 ≤ i := by omega
        simp [hi, hge, hclear]
    have hcount : 8 * (b :: bs).length = 8 * bs.length + 8 := by
      rw [List.length_cons]
      omega
    calc (b :: bs).foldl crcByte crc
        = crcBit^[8 * bs.length] (crcBit^[8] (crc ^^^ b.val) ^^^ leValue bs) := ih _
      _ = crcBit^[8 * bs.length] (crcBit^[8] (crc ^^^ b.val) ^^^
            crcBit^[8] (2 ^ 8 * leValue bs)) := by rw [crcBits_high]
      _ = crcBit^[8 * bs.length] (crcBit^[8] (crc ^^^ leValue (b :: bs))) := by
            rw [← crcBits_xor, hword, Nat.xor_assoc]
      _ = crcBit^[8 * (b :: bs).length] (crc ^^^ leValue (b :: bs)) := by
            rw [hcount, Function.iterate_add_apply]

theorem crc32_ne_of_ne (front back : Bytes) {w w' : Bytes} (hlen : w.length = w'.length)
    (h4 : w.length ≤ 4) (h : w ≠ w') : crc32 (front ++ (w ++ back)) ≠ crc32 (front ++ (w' ++ back)) := by
  intro he
  have hfold := Nat.xor_left_inj.mp he
  simp only [List.foldl_append] at hfold
  have hfront := foldl_crcByte_lt front (show 0xffffffff < 2 ^ 32 by decide)
  generalize front.foldl crcByte 0xffffffff = crc at hfold hfront
  have hword := foldl_crcByte_inj (foldl_crcByte_lt w hfront) (foldl_crcByte_lt w' hfront) back hfold
  have hlt : ∀ {v : Bytes}, v.length ≤ 4 → crc ^^^ leValue v < 2 ^ 32 := by
    intro v hv
    have hvalue := leValue_lt v
    have hpow : 256 ^ v.length ≤ 256 ^ 4 := Nat.pow_le_pow_right (by decide) hv
    exact Nat.xor_lt_two_pow hfront (by omega)
  rw [foldl_crcByte_eq, foldl_crcByte_eq, ← hlen] at hword
  have hsame := crcBits_inj (hlt h4) (hlt (hlen ▸ h4)) _ hword
  exact h (leValue_inj hlen (Nat.xor_right_inj.mp hsame))

theorem crc32_ne_of_byte_ne (front back : Bytes) {a b : Byte} (h : a ≠ b) :
    crc32 (front ++ a :: back) ≠ crc32 (front ++ b :: back) :=
  @crc32_ne_of_ne front back [a] [b] rfl (show 1 ≤ 4 by decide) (by simpa using h)

theorem crc32_flip_ne (bit : Fin 8) {bytes : Bytes} (h : i < bytes.length) :
    crc32 (flipBit i bit bytes) ≠ crc32 bytes := by
  obtain ⟨front, b, back, hb, _, hf⟩ := flipBit_split bit h
  rw [hf, hb]
  exact crc32_ne_of_byte_ne front back (flipByte_ne bit b)

/-- Every burst of up to four bytes is detected, wherever it is; so are one changed byte
and one flipped bit. -/
theorem crc32_detects_bursts :
    (∀ x y w w' : Bytes, w.length = w'.length → w.length ≤ 4 → w ≠ w' →
      crc32 (x ++ (w ++ y)) ≠ crc32 (x ++ (w' ++ y))) ∧
    (∀ (x y : Bytes) (a b : Byte), a ≠ b → crc32 (x ++ a :: y) ≠ crc32 (x ++ b :: y)) ∧
    (∀ (bytes : Bytes) (i : Nat) (bit : Fin 8), i < bytes.length →
      crc32 (flipBit i bit bytes) ≠ crc32 bytes) := by
  refine ⟨?_, ?_, ?_⟩
  · intro x y w w' hlen h4 h
    exact crc32_ne_of_ne x y hlen h4 h
  · intro x y a b h
    exact crc32_ne_of_byte_ne x y h
  · intro bytes i bit h
    exact crc32_flip_ne bit h

theorem crc32_detects_bursts_word :
    crc32 (ascii "x" ++ (ascii "abcd" ++ ascii "y")) ≠
      crc32 (ascii "x" ++ (ascii "dcba" ++ ascii "y")) :=
  crc32_detects_bursts.1 (ascii "x") (ascii "y") (ascii "abcd") (ascii "dcba") (by decide)
    (by decide) (by decide)

end KvMem
