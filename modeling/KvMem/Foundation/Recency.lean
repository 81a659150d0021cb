import Mathlib

/-! # Recency

The distinct elements of a list of uses, the last used one first, and what one more use
does to the first few of them.
-/

namespace KvMem.Recency

variable {κ : Type} [DecidableEq κ]

/-- The distinct elements of a list of uses, the last used one first. -/
def recent (uses : List κ) : List κ := uses.dedup.reverse

/-- Use an element when only `n` are kept. -/
def touch (n : Nat) (k : κ) (kept : List κ) : List κ := (k :: kept.filter fun x => x ≠ k).take n

theorem recent_nodup (uses : List κ) : (recent uses).Nodup :=
  List.nodup_reverse.mpr (List.nodup_dedup uses)

theorem dedup_append_singleton (uses : List κ) (k : κ) :
    (uses ++ [k]).dedup = (uses.dedup.filter fun x => x ≠ k) ++ [k] := by
  induction uses with
  | nil => simp
  | cons x xs ih =>
    rw [List.cons_append]
    by_cases hx : x ∈ xs
    · rw [List.dedup_cons_of_mem (List.mem_append_left _ hx), ih, List.dedup_cons_of_mem hx]
    · rw [List.dedup_cons_of_notMem hx]
      by_cases hk : x = k
      · rw [List.dedup_cons_of_mem (by simp [hk]), ih, List.filter_cons_of_neg (by simp [hk])]
      · rw [List.dedup_cons_of_notMem (by simp [hx, hk]), ih,
          List.filter_cons_of_pos (by simp [hk]), List.cons_append]

theorem recent_append (uses : List κ) (k : κ) :
    recent (uses ++ [k]) = k :: (recent uses).filter fun x => x ≠ k := by
  rw [recent, dedup_append_singleton, List.reverse_append, List.reverse_singleton,
    List.singleton_append, recent, List.filter_reverse]

theorem take_filter_ne {kept : List κ} (h : kept.Nodup) (k : κ) (n : Nat) :
    (kept.filter fun x => x ≠ k).take n = ((kept.take (n + 1)).filter fun x => x ≠ k).take n := by
  induction kept generalizing n with
  | nil => rfl
  | cons x xs ih =>
    obtain ⟨hx, hxs⟩ := List.nodup_cons.mp h
    by_cases hk : x = k
    · subst hk
      have hall : ∀ ys : List κ, (∀ y ∈ ys, y ∈ xs) → (ys.filter fun y => y ≠ x) = ys := by
        intro ys hys
        apply List.filter_eq_self.mpr
        intro y hy
        simp only [decide_eq_true_eq]
        rintro rfl
        exact hx (hys y hy)
      rw [List.take_succ_cons, List.filter_cons_of_neg (by simp), List.filter_cons_of_neg (by simp),
        hall xs (fun y hy => hy), hall (xs.take n) (fun y hy => List.mem_of_mem_take hy),
        List.take_take, Nat.min_self]
    · rw [List.take_succ_cons, List.filter_cons_of_pos (by simp [hk]),
        List.filter_cons_of_pos (by simp [hk])]
      cases n with
      | zero => rfl
      | succ n => rw [List.take_succ_cons, List.take_succ_cons, ih hxs]

/-- The first `n` after one more use follow from the first `n` before it. -/
theorem take_recent_append (uses : List κ) (k : κ) (n : Nat) :
    (recent (uses ++ [k])).take n = touch n k ((recent uses).take n) := by
  rw [recent_append, touch]
  cases n with
  | zero => rfl
  | succ n => rw [List.take_succ_cons, List.take_succ_cons, take_filter_ne (recent_nodup uses)]

theorem touch_of_mem {n : Nat} {k : κ} {kept : List κ} (hlen : kept.length ≤ n) (hk : k ∈ kept) :
    touch n k kept = k :: kept.filter fun x => x ≠ k := by
  have hlt : (kept.filter fun x => x ≠ k).length < kept.length :=
    List.length_filter_lt_length_iff_exists.mpr ⟨k, hk, by simp⟩
  apply List.take_of_length_le
  rw [List.length_cons]
  omega

theorem touch_of_notMem (n : Nat) {k : κ} {kept : List κ} (hk : k ∉ kept) :
    touch n k kept = (k :: kept).take n := by
  have hall : (kept.filter fun x => x ≠ k) = kept := by
    apply List.filter_eq_self.mpr
    intro x hx
    simp only [decide_eq_true_eq]
    rintro rfl
    exact hk hx
  rw [touch, hall]

end KvMem.Recency
