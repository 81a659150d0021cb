import Mathlib

/-! # Fixed-width integers as bytes

Little-endian digits base 256 with a fixed count, and the value of a digit list.
-/

namespace KvMem

abbrev Byte := Fin 256

/-! Byte numerals and comparisons of bytes refer to these two facts. -/

instance neZero_256 : NeZero 256 := ⟨by decide⟩

instance lawfulBEq_byte : LawfulBEq Byte := inferInstance

abbrev Bytes := List Byte

namespace FixedWidth

/-- The low `w` bytes of `v`, least significant first. -/
def leBytes : Nat → Nat → Bytes
  | 0, _ => []
  | w + 1, v => Fin.ofNat 256 v :: leBytes w (v / 256)

theorem length_flatMap_fixed {α : Type} {encode : α → Bytes} {width : Nat}
    (h : ∀ a, (encode a).length = width) (items : List α) :
    (items.flatMap encode).length = width * items.length := by
  induction items with
  | nil => rfl
  | cons a items ih =>
    rw [List.flatMap_cons, List.length_append, h, ih, List.length_cons, Nat.mul_succ, Nat.add_comm]

def leValue : Bytes → Nat
  | [] => 0
  | b :: bs => b.val + 256 * leValue bs

@[simp] theorem leBytes_length (w v : Nat) : (leBytes w v).length = w := by
  induction w generalizing v with
  | zero => rfl
  | succ w ih => simp [leBytes, ih]

theorem leValue_leBytes (w v : Nat) : leValue (leBytes w v) = v % 256 ^ w := by
  induction w generalizing v with
  | zero => simp [leBytes, leValue, Nat.mod_one]
  | succ w ih =>
    have hsplit : v % (256 * 256 ^ w) = v % 256 + 256 * (v / 256 % 256 ^ w) :=
      Nat.mod_mul
    simp only [leBytes, leValue, ih, Fin.val_ofNat]
    rw [pow_succ, Nat.mul_comm (256 ^ w) 256, hsplit]

theorem leValue_lt (bs : Bytes) : leValue bs < 256 ^ bs.length := by
  induction bs with
  | nil => simp [leValue]
  | cons b bs ih =>
    have hb := b.isLt
    simp only [leValue, List.length_cons, pow_succ]
    omega

theorem leBytes_leValue (bs : Bytes) : leBytes bs.length (leValue bs) = bs := by
  induction bs with
  | nil => rfl
  | cons b bs ih =>
    have hb := b.isLt
    have hdiv : (b.val + 256 * leValue bs) / 256 = leValue bs := by omega
    have hdigit : Fin.ofNat 256 (b.val + 256 * leValue bs) = b := by
      apply Fin.ext
      rw [Fin.val_ofNat]
      omega
    simp only [List.length_cons, leBytes, leValue, hdiv, hdigit, ih]

/-! ## Big-endian digits and their order -/

/-- The low `w` bytes of `v`, most significant first. -/
def beBytes : Nat → Nat → Bytes
  | 0, _ => []
  | w + 1, v => Fin.ofNat 256 (v / 256 ^ w) :: beBytes w v

@[simp] theorem beBytes_length (w v : Nat) : (beBytes w v).length = w := by
  induction w with
  | zero => rfl
  | succ w ih => simp [beBytes, ih]

theorem beBytes_add_mul (w v c : Nat) : beBytes w (v + c * 256 ^ w) = beBytes w v := by
  induction w generalizing c with
  | zero => rfl
  | succ w ih =>
    have hpos : 0 < 256 ^ w := Nat.pow_pos (by decide)
    have hmul : c * 256 ^ (w + 1) = c * 256 * 256 ^ w := by
      rw [pow_succ, Nat.mul_assoc, Nat.mul_comm 256]
    simp only [beBytes]
    rw [hmul, Nat.add_mul_div_right _ _ hpos, ih]
    congr 1
    apply Fin.ext
    simp [Nat.add_mul_mod_self_right]

theorem beBytes_mod (w v : Nat) : beBytes w (v % 256 ^ w) = beBytes w v := by
  have h := beBytes_add_mul w (v % 256 ^ w) (v / 256 ^ w)
  rw [Nat.mul_comm, Nat.mod_add_div] at h
  exact h.symm

/-- Unsigned byte order agrees with the order of the numbers. -/
theorem beBytes_lt {w v u : Nat} (hu : u < 256 ^ w) (h : v < u) : beBytes w v < beBytes w u := by
  induction w generalizing v u with
  | zero => omega
  | succ w ih =>
    have hpos : 0 < 256 ^ w := Nat.pow_pos (by decide)
    have hud : u / 256 ^ w < 256 := by
      rw [Nat.div_lt_iff_lt_mul hpos, Nat.mul_comm, ← pow_succ]
      exact hu
    have hle : v / 256 ^ w ≤ u / 256 ^ w := Nat.div_le_div_right (Nat.le_of_lt h)
    have hvd : v / 256 ^ w < 256 := Nat.lt_of_le_of_lt hle hud
    simp only [beBytes, List.cons_lt_cons_iff]
    rcases Nat.lt_or_eq_of_le hle with hlt | heq
    · left
      rw [Fin.lt_def, Fin.val_ofNat, Fin.val_ofNat, Nat.mod_eq_of_lt hvd, Nat.mod_eq_of_lt hud]
      exact hlt
    · -- equal leading digits: the remainders decide
      right
      refine ⟨by rw [heq], ?_⟩
      have hv := Nat.div_add_mod v (256 ^ w)
      have hu' := Nat.div_add_mod u (256 ^ w)
      rw [heq] at hv
      have hmod : v % 256 ^ w < u % 256 ^ w := by omega
      have := ih (Nat.mod_lt u hpos) hmod
      rwa [beBytes_mod, beBytes_mod] at this

def beValue (bs : Bytes) : Nat := bs.foldl (fun acc b => acc * 256 + b.val) 0

theorem beValue_beBytes {w v : Nat} (hv : v < 256 ^ w) : beValue (beBytes w v) = v := by
  have hfold : ∀ w v acc, (beBytes w v).foldl (fun acc b => acc * 256 + b.val) acc =
      acc * 256 ^ w + v % 256 ^ w := by
    intro w
    induction w with
    | zero =>
      intro v acc
      simp [beBytes, Nat.mod_one]
    | succ w ih =>
      intro v acc
      have hdigit : (Fin.ofNat 256 (v / 256 ^ w)).val = v / 256 ^ w % 256 := Fin.val_ofNat _ _
      have hsplit : v % 256 ^ (w + 1) = v / 256 ^ w % 256 * 256 ^ w + v % 256 ^ w := by
        rw [pow_succ, Nat.mod_mul, Nat.add_comm, Nat.mul_comm]
      rw [beBytes, List.foldl_cons, ih, hdigit, hsplit, pow_succ]
      ring
  rw [beValue, hfold, Nat.mod_eq_of_lt hv, Nat.zero_mul, Nat.zero_add]

end FixedWidth

end KvMem
