import Mathlib

/-! # Sets in a stamped array

A set of indices kept in an array that is never cleared between uses: an index is in the
set when its mark is the current generation. A new set begins with the next generation.
Generations are counted modulo `limit`; when the count comes round to zero the marks are
cleared and it goes on with one. Access outside the array is a failure.
-/

namespace KvMem

structure Stamps where
  marks : List Nat := []
  generation : Nat := 0
  deriving DecidableEq, Repr

namespace Stamps

def grow (n : Nat) (marks : List Nat) : List Nat :=
  if marks.length < n then marks ++ List.replicate (n - marks.length) 0 else marks

/-- Begin an empty set of indices below `n`. -/
def next (limit n : Nat) (s : Stamps) : Stamps :=
  let marks := grow n s.marks
  let generation := (s.generation + 1) % limit
  if generation = 0 then ⟨marks.map fun _ => 0, 1⟩ else ⟨marks, generation⟩

def isMarked (s : Stamps) (x : Nat) : Option Bool := (s.marks[x]?).map fun m => m = s.generation

def mark (s : Stamps) (x : Nat) : Option Stamps :=
  if x < s.marks.length then some { s with marks := s.marks.set x s.generation } else none

structure Bounded (limit : Nat) (s : Stamps) : Prop where
  generation : s.generation < limit
  marks : ∀ m ∈ s.marks, m ≤ s.generation

/-- The array has room for the indices below `n`, and `set` is the set it holds. -/
structure Represents (limit n : Nat) (set : List Nat) (s : Stamps) : Prop where
  bounded : Bounded limit s
  room : n ≤ s.marks.length
  marked : ∀ x, s.marks[x]? = some s.generation ↔ x ∈ set

theorem bounded_new {limit : Nat} (h : 0 < limit) : Bounded limit {} where
  generation := h
  marks := by
    intro m hm
    cases hm

theorem grow_length (n : Nat) (marks : List Nat) : n ≤ (grow n marks).length := by
  unfold grow
  split
  · rw [List.length_append, List.length_replicate]
    omega
  · omega

theorem mem_grow {n m : Nat} {marks : List Nat} (h : m ∈ grow n marks) : m ∈ marks ∨ m = 0 := by
  unfold grow at h
  split at h
  · exact (List.mem_append.mp h).imp_right List.eq_of_mem_replicate
  · exact Or.inl h

variable {limit n : Nat} {s : Stamps} {set : List Nat}

/-- A new set is empty, whatever was marked before. -/
theorem Bounded.next (h : Bounded limit s) (hlimit : 1 < limit) (n : Nat) :
    Represents limit n [] (s.next limit n) := by
  have hlt : (s.generation + 1) % limit < limit := Nat.mod_lt _ (by omega)
  have hlen := grow_length n s.marks
  unfold Stamps.next
  by_cases hzero : (s.generation + 1) % limit = 0
  · -- the count came round: every mark is zero now
    simp only [hzero, if_true]
    have hmarks : ∀ m ∈ (grow n s.marks).map (fun _ => 0), m = 0 := by
      intro m hm
      obtain ⟨_, _, rfl⟩ := List.mem_map.mp hm
      rfl
    refine ⟨⟨hlimit, ?_⟩, by simpa using hlen, ?_⟩
    · intro m hm
      rw [hmarks m hm]
      exact Nat.zero_le 1
    · intro x
      constructor
      · intro hx
        exact absurd (hmarks 1 (List.mem_of_getElem? hx)) (by decide)
      · intro hx
        cases hx
  · have hgen : (s.generation + 1) % limit = s.generation + 1 := by
      apply Nat.mod_eq_of_lt
      have hle : s.generation + 1 ≤ limit := h.generation
      rcases Nat.lt_or_eq_of_le hle with hlt | heq
      · exact hlt
      · exact absurd (by rw [heq, Nat.mod_self]) hzero
    simp only [hzero, if_false]
    have hmarks : ∀ m ∈ grow n s.marks, m < (s.generation + 1) % limit := by
      intro m hm
      rw [hgen]
      rcases mem_grow hm with hm | rfl
      · exact Nat.lt_succ_of_le (h.marks m hm)
      · exact Nat.succ_pos _
    refine ⟨⟨hlt, fun m hm => (hmarks m hm).le⟩, hlen, ?_⟩
    intro x
    constructor
    · intro hx
      exact absurd (hmarks _ (List.mem_of_getElem? hx)) (lt_irrefl _)
    · intro hx
      cases hx

theorem Represents.isMarked (h : Represents limit n set s) {x : Nat} (hx : x < n) :
    s.isMarked x = some (decide (x ∈ set)) := by
  have hroom := h.room
  have hget : s.marks[x]? = some s.marks[x] := List.getElem?_eq_getElem (by omega)
  have hiff := h.marked x
  rw [hget, Option.some_inj] at hiff
  rw [Stamps.isMarked, hget, Option.map_some]
  simp [hiff]

theorem Represents.mark (h : Represents limit n set s) {x : Nat} (hx : x < n) :
    ∃ s', s.mark x = some s' ∧ Represents limit n (x :: set) s' := by
  have hlt : x < s.marks.length := lt_of_lt_of_le hx h.room
  refine ⟨{ s with marks := s.marks.set x s.generation }, if_pos hlt, ?_, ?_, ?_⟩
  · refine ⟨h.bounded.generation, ?_⟩
    intro m hm
    rcases List.mem_or_eq_of_mem_set hm with hm | rfl
    · exact h.bounded.marks m hm
    · exact le_rfl
  · simpa using h.room
  · intro y
    show (s.marks.set x s.generation)[y]? = some s.generation ↔ y ∈ x :: set
    by_cases hy : y = x
    · rw [hy, List.getElem?_set_self hlt]
      simp
    · rw [List.getElem?_set_ne (Ne.symm hy), h.marked y]
      simp [hy]

end Stamps

end KvMem
