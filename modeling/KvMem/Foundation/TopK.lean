import Mathlib

/-! # The best few of a stream

A comparator says which of two elements is better. The best `k` elements of a stream are
kept by comparing each new element with the worst one kept. When no two elements rank
equal, what is kept is the beginning of the sorted stream.
-/

namespace KvMem.TopK

variable {α β : Type}

section Definitions

variable (better : α → α → Bool)

/-- Insert in front of the first element that is not better. -/
def push (x : α) (xs : List α) : List α := xs.orderedInsert (fun a b => better a b = true) x

def sort (xs : List α) : List α := xs.insertionSort fun a b => better a b = true

def keep (k : Nat) (kept : List α) (x : α) : List α :=
  if kept.length < k then push better x kept
  else
    match kept.getLast? with
    | none => kept
    | some worst => if better x worst then push better x kept.dropLast else kept

end Definitions

def Sorted (better : α → α → Bool) (xs : List α) : Prop := xs.Pairwise fun a b => better a b = true

def Distinct (rank : α → β) (xs : List α) : Prop := xs.Pairwise fun a b => rank a ≠ rank b

/-- What has been kept of a stream, and what has been dropped for it. -/
structure Kept (better : α → α → Bool) (k : Nat) (xs kept dropped : List α) : Prop where
  perm : (kept ++ dropped).Perm xs
  sorted : Sorted better kept
  best : ∀ a ∈ kept, ∀ b ∈ dropped, better a b = true
  length_le : kept.length ≤ k
  full : dropped ≠ [] → kept.length = k

section Ranked

variable [LinearOrder β] {better : α → α → Bool} {rank : α → β}
  (hrank : ∀ a b, better a b = true ↔ rank a < rank b)

include hrank

variable {a b x : α} {xs dropped : List α} {k : Nat}

theorem better_trans {c : α} (hab : better a b = true) (hbc : better b c = true) :
    better a c = true :=
  (hrank a c).mpr (((hrank a b).mp hab).trans ((hrank b c).mp hbc))

theorem better_of_not (hne : rank a ≠ rank b) (h : ¬ better a b = true) : better b a = true := by
  rw [hrank] at h ⊢
  exact lt_of_le_of_ne (not_lt.mp h) (Ne.symm hne)

theorem push_sorted (hs : Sorted better xs) (hx : ∀ y ∈ xs, rank x ≠ rank y) :
    Sorted better (push better x xs) := by
  induction xs with
  | nil => exact List.pairwise_singleton _ _
  | cons y ys ih =>
    obtain ⟨hy, hys⟩ := List.pairwise_cons.mp hs
    rw [push, List.orderedInsert]
    split
    · rename_i hxy
      refine List.pairwise_cons.mpr ⟨?_, hs⟩
      intro z hz
      rcases List.mem_cons.mp hz with rfl | hz
      · exact hxy
      · exact better_trans hrank hxy (hy z hz)
    · rename_i hxy
      refine List.pairwise_cons.mpr ⟨?_, ih hys fun z hz => hx z (List.mem_cons_of_mem _ hz)⟩
      intro z hz
      rcases List.mem_cons.mp ((List.perm_orderedInsert _ x ys).mem_iff.mp hz) with rfl | hz
      · exact better_of_not hrank (hx y List.mem_cons_self) hxy
      · exact hy z hz

theorem sort_sorted (hd : Distinct rank xs) : Sorted better (sort better xs) := by
  induction xs with
  | nil => exact List.Pairwise.nil
  | cons x xs ih =>
    obtain ⟨hx, hxs⟩ := List.pairwise_cons.mp hd
    refine push_sorted hrank (ih hxs) ?_
    intro y hy
    exact hx y ((List.perm_insertionSort _ xs).mem_iff.mp hy)

theorem eq_of_sorted {ys : List α} (hperm : xs.Perm ys) (hx : Sorted better xs)
    (hy : Sorted better ys) : xs = ys := by
  refine List.Perm.eq_of_pairwise ?_ hx hy hperm
  intro a b _ _ hab hba
  exact absurd (((hrank a b).mp hab).trans ((hrank b a).mp hba)) (lt_irrefl _)

theorem Sorted.distinct (h : Sorted better xs) : Distinct rank xs :=
  h.imp fun hab => ne_of_lt ((hrank _ _).mp hab)

/-- Popping a heap yields the elements from the worst on; sorting brings them back. -/
theorem sort_reverse (h : Sorted better xs) : sort better xs.reverse = xs := by
  have hdistinct : Distinct rank xs.reverse :=
    (List.Perm.pairwise_iff (fun hab => Ne.symm hab) xs.reverse_perm).mpr (h.distinct hrank)
  refine eq_of_sorted hrank ?_ (sort_sorted hrank hdistinct) h
  exact (List.perm_insertionSort _ xs.reverse).trans xs.reverse_perm

theorem Kept.keep {kept : List α} (h : Kept better k xs kept dropped)
    (hx : ∀ y ∈ xs, rank x ≠ rank y) :
    ∃ dropped', Kept better k (xs ++ [x]) (TopK.keep better k kept x) dropped' := by
  have hnew : ∀ ys : List α, (∀ y ∈ ys, y ∈ kept ++ dropped) → ∀ y ∈ ys, rank x ≠ rank y :=
    fun ys hsub y hy => hx y (h.perm.mem_iff.mp (hsub y hy))
  have hperm : (x :: (kept ++ dropped)).Perm (xs ++ [x]) :=
    (h.perm.cons x).trans (List.perm_append_singleton x xs).symm
  unfold TopK.keep
  split
  · rename_i hroom
    have hnone : dropped = [] := by
      by_contra hne
      have hfull := h.full hne
      omega
    subst hnone
    refine ⟨[], ?_, push_sorted hrank h.sorted (hnew kept fun y hy => List.mem_append_left _ hy),
      by simp, ?_, fun hne => absurd rfl hne⟩
    · rw [List.append_nil] at hperm ⊢
      exact (List.perm_orderedInsert _ x kept).trans hperm
    · rw [push, List.orderedInsert_length]
      omega
  · rename_i hfull
    have hlen := h.length_le
    cases hlast : kept.getLast? with
    | none =>
      have hnil : kept = [] := List.getLast?_eq_none_iff.mp hlast
      subst hnil
      rw [List.length_nil] at hfull
      refine ⟨x :: dropped, hperm, List.Pairwise.nil, by simp, hlen, fun _ => ?_⟩
      rw [List.length_nil]
      omega
    | some worst =>
      obtain ⟨front, rfl⟩ := List.getLast?_eq_some_iff.mp hlast
      obtain ⟨hfront, _, hworst⟩ := List.pairwise_append.mp h.sorted
      rw [List.length_append, List.length_singleton] at hfull hlen
      dsimp only
      split
      · rename_i hbetter
        rw [List.dropLast_concat]
        have hperm' : (push better x front ++ worst :: dropped).Perm (xs ++ [x]) := by
          refine ((List.perm_orderedInsert _ x front).append_right (worst :: dropped)).trans ?_
          rw [List.append_assoc, List.singleton_append] at hperm
          exact hperm
        refine ⟨worst :: dropped, hperm', ?_, ?_, ?_, ?_⟩
        · exact push_sorted hrank hfront (hnew front fun y hy => by simp [hy])
        · intro a ha b hb
          have hworse : ∀ a, better a worst = true → better a b = true := by
            intro a ha
            rcases List.mem_cons.mp hb with rfl | hb
            · exact ha
            · exact better_trans hrank ha (h.best worst (by simp) b hb)
          rcases List.mem_cons.mp ((List.perm_orderedInsert _ x front).mem_iff.mp ha) with rfl | ha
          · exact hworse _ hbetter
          · exact hworse a (hworst a ha worst (by simp))
        · rw [push, List.orderedInsert_length]
          omega
        · intro _
          rw [push, List.orderedInsert_length]
          omega
      · rename_i hworse
        have hlt : better worst x = true :=
          better_of_not hrank (hnew [worst] (fun y hy => by simp_all) worst (by simp)) hworse
        refine ⟨x :: dropped, List.perm_middle.trans hperm, h.sorted, ?_, h.length_le, ?_⟩
        · intro a ha b hb
          rcases List.mem_cons.mp hb with rfl | hb
          · rcases List.mem_append.mp ha with ha | ha
            · exact better_trans hrank (hworst a ha worst (by simp)) hlt
            · rw [List.mem_singleton.mp ha]
              exact hlt
          · exact h.best a ha b hb
        · intro _
          rw [List.length_append, List.length_singleton]
          omega

theorem Kept.foldl (xs : List α) {seen kept : List α} (h : Kept better k seen kept dropped)
    (hd : Distinct rank (seen ++ xs)) :
    ∃ dropped', Kept better k (seen ++ xs) (xs.foldl (TopK.keep better k) kept) dropped' := by
  induction xs generalizing seen kept dropped with
  | nil => exact ⟨dropped, by rwa [List.append_nil]⟩
  | cons x xs ih =>
    rw [List.append_cons] at hd ⊢
    have hseen := (List.pairwise_append.mp (List.pairwise_append.mp hd).1).2.2
    obtain ⟨dropped₁, h₁⟩ := h.keep hrank fun y hy => Ne.symm (hseen y hy x (by simp))
    exact ih h₁ hd

/-- The best `k` of a stream are the first `k` of the sorted stream. -/
theorem foldl_keep_eq (k : Nat) (hd : Distinct rank xs) :
    xs.foldl (TopK.keep better k) [] = (sort better xs).take k := by
  have hempty : Kept better k ([] : List α) [] [] :=
    ⟨List.Perm.refl _, List.Pairwise.nil, by simp, Nat.zero_le _, fun hne => absurd rfl hne⟩
  obtain ⟨dropped, h⟩ := hempty.foldl hrank xs (by simpa using hd)
  rw [List.nil_append] at h
  generalize xs.foldl (TopK.keep better k) [] = kept at h
  have hdistinct : Distinct rank dropped :=
    ((List.Perm.pairwise_iff (fun hab => Ne.symm hab) h.perm).mpr hd).sublist
      (List.sublist_append_right kept dropped)
  have hall : sort better xs = kept ++ sort better dropped := by
    refine eq_of_sorted hrank ?_ (sort_sorted hrank hd) ?_
    · exact (List.perm_insertionSort _ xs).trans
        (h.perm.symm.trans ((List.perm_insertionSort _ dropped).symm.append_left kept))
    · refine List.pairwise_append.mpr ⟨h.sorted, sort_sorted hrank hdistinct, ?_⟩
      intro a ha b hb
      exact h.best a ha b ((List.perm_insertionSort _ dropped).mem_iff.mp hb)
  rw [hall]
  by_cases hnil : dropped = []
  · subst hnil
    rw [sort, List.insertionSort_nil, List.append_nil, List.take_of_length_le h.length_le]
  · rw [List.take_left' (h.full hnil)]

end Ranked

end KvMem.TopK
