import Mathlib

/-! # Entries put into a partial map

Entries are put into a partial map one by one. A key that is there keeps its value, and
the new value has to agree with it. If the entries are those of a second map, all of them
can be put in exactly when the two maps agree, and the result is their union in whatever
order the entries come.
-/

namespace KvMem.MapUnion

variable {κ β : Type} [DecidableEq κ]

section Definitions

variable (agree : β → β → Prop) [DecidableRel agree]

def put (m : κ → Option β) (e : κ × β) : Option (κ → Option β) :=
  match m e.1 with
  | none => some (Function.update m e.1 (some e.2))
  | some old => if agree old e.2 then some m else none

/-- The entries one after the other, until one does not agree. -/
def putAll : List (κ × β) → (κ → Option β) → Option (κ → Option β)
  | [], m => some m
  | e :: es, m => (put agree m e).bind (putAll es)

end Definitions

def Compatible (agree : β → β → Prop) (m n : κ → Option β) : Prop :=
  ∀ k a b, m k = some a → n k = some b → agree a b

def union (m n : κ → Option β) : κ → Option β := fun k => (m k).or (n k)

structure Lists (n : κ → Option β) (es : List (κ × β)) : Prop where
  distinct : es.Pairwise fun a b => a.1 ≠ b.1
  mem_iff : ∀ k b, (k, b) ∈ es ↔ n k = some b

omit [DecidableEq κ] in
theorem Lists.head {n : κ → Option β} {e : κ × β} {es : List (κ × β)} (h : Lists n (e :: es)) :
    n e.1 = some e.2 :=
  (h.mem_iff e.1 e.2).mp List.mem_cons_self

theorem Lists.tail {n : κ → Option β} {e : κ × β} {es : List (κ × β)} (h : Lists n (e :: es)) :
    Lists (Function.update n e.1 none) es := by
  obtain ⟨hhead, htail⟩ := List.pairwise_cons.mp h.distinct
  refine ⟨htail, ?_⟩
  intro k b
  by_cases hk : k = e.1
  · subst hk
    rw [Function.update_self]
    constructor
    · intro hmem
      exact absurd rfl (hhead (e.1, b) hmem)
    · intro hnone
      cases hnone
  · rw [Function.update_of_ne hk, ← h.mem_iff k b, List.mem_cons]
    constructor
    · exact Or.inr
    · rintro (heq | hmem)
      · exact absurd (congrArg Prod.fst heq) hk
      · exact hmem

section Put

variable {agree : β → β → Prop} [DecidableRel agree] {m n : κ → Option β}

/-- One entry of the second map moves to the first: neither agreement nor union changes. -/
theorem put_some {m' : κ → Option β} {e : κ × β} (he : n e.1 = some e.2)
    (h : put agree m e = some m') :
    (Compatible agree m' (Function.update n e.1 none) ↔ Compatible agree m n) ∧
      union m' (Function.update n e.1 none) = union m n := by
  unfold put at h
  cases hm : m e.1 with
  | none =>
    rw [hm] at h
    cases h
    refine ⟨forall_congr' fun k => ?_, funext fun k => ?_⟩
    · by_cases hk : k = e.1
      · subst hk
        simp [hm]
      · simp [Function.update_of_ne hk]
    · by_cases hk : k = e.1
      · subst hk
        simp [union, hm, he]
      · simp [union, Function.update_of_ne hk]
  | some old =>
    rw [hm] at h
    dsimp only at h
    split at h
    · rename_i hagree
      cases h
      refine ⟨forall_congr' fun k => ?_, funext fun k => ?_⟩
      · by_cases hk : k = e.1
        · subst hk
          simp [hm, he, hagree]
        · simp [Function.update_of_ne hk]
      · by_cases hk : k = e.1
        · subst hk
          simp [union, hm]
        · simp [union, Function.update_of_ne hk]
    · cases h

theorem put_none {e : κ × β} (he : n e.1 = some e.2) (h : put agree m e = none) :
    ¬ Compatible agree m n := by
  unfold put at h
  cases hm : m e.1 with
  | none =>
    rw [hm] at h
    cases h
  | some old =>
    rw [hm] at h
    dsimp only at h
    split at h
    · cases h
    · rename_i hdiffer
      intro hcompatible
      exact hdiffer (hcompatible e.1 old e.2 hm he)

variable (agree m) in
/-- All entries of a map go in exactly when the maps agree, and give the union. -/
theorem putAll_lists {es : List (κ × β)} (h : Lists n es) :
    (Compatible agree m n ∧ putAll agree es m = some (union m n)) ∨
      (¬ Compatible agree m n ∧ putAll agree es m = none) := by
  induction es generalizing m n with
  | nil =>
    have hempty : ∀ k, n k = none := by
      intro k
      cases hk : n k with
      | none => rfl
      | some b => exact absurd ((h.mem_iff k b).mpr hk) List.not_mem_nil
    refine Or.inl ⟨?_, ?_⟩
    · intro k a b _ hb
      rw [hempty k] at hb
      cases hb
    · rw [putAll]
      exact congrArg some (funext fun k => by simp [union, hempty k])
  | cons e es ih =>
    rw [putAll]
    cases hput : put agree m e with
    | none => exact Or.inr ⟨put_none h.head hput, rfl⟩
    | some m' =>
      obtain ⟨hcompatible, hunion⟩ := put_some h.head hput
      rw [Option.bind_some, ← hcompatible, ← hunion]
      exact ih m' h.tail

end Put

end KvMem.MapUnion
