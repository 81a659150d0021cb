import Mathlib

/-! # Maps as ascending lists

An ordered map as the list of its entries. The list is ascending when its keys are;
the operations keep it so.
-/

namespace KvMem.OrderedMap

variable {K V : Type}

section Find

variable [DecidableEq K]

def find (m : List (K × V)) (key : K) : Option V :=
  match m with
  | [] => none
  | (k, v) :: m => if k = key then some v else find m key

@[simp] theorem find_nil (key : K) : find ([] : List (K × V)) key = none := rfl

theorem find_cons (k : K) (v : V) (m : List (K × V)) (key : K) :
    find ((k, v) :: m) key = if k = key then some v else find m key := rfl

theorem mem_of_find {m : List (K × V)} {key : K} {value : V} (h : find m key = some value) :
    (key, value) ∈ m := by
  induction m with
  | nil => cases h
  | cons e m ih =>
    obtain ⟨k, v⟩ := e
    rw [find_cons] at h
    split at h
    · rename_i hk
      cases h
      subst hk
      exact List.mem_cons_self
    · exact List.mem_cons_of_mem _ (ih h)

theorem find_of_mem {m : List (K × V)} (hm : (m.map (·.1)).Nodup) {key : K} {value : V}
    (h : (key, value) ∈ m) : find m key = some value := by
  induction m with
  | nil => cases h
  | cons e m ih =>
    obtain ⟨k, v⟩ := e
    obtain ⟨hhead, htail⟩ := List.nodup_cons.mp hm
    rw [find_cons]
    rcases List.mem_cons.mp h with heq | hmem
    · cases heq
      exact if_pos rfl
    · have hne : k ≠ key := by
        rintro rfl
        exact hhead (List.mem_map.mpr ⟨(k, value), hmem, rfl⟩)
      rw [if_neg hne]
      exact ih htail hmem

end Find

variable [LinearOrder K]

/-- Add an entry; a key that is there keeps its value. -/
def emplace (key : K) (value : V) : List (K × V) → List (K × V)
  | [] => [(key, value)]
  | (k, v) :: m =>
    if key < k then (key, value) :: (k, v) :: m
    else if key = k then (k, v) :: m
    else (k, v) :: emplace key value m

/-- The entry in front of the first key above `bound`. -/
def lastAtMost (bound : K) (m : List (K × V)) : Option (K × V) :=
  (m.takeWhile fun entry => entry.1 ≤ bound).getLast?

def Ascending (m : List (K × V)) : Prop := m.Pairwise fun a b => a.1 < b.1

theorem ascending_nil : Ascending ([] : List (K × V)) := List.Pairwise.nil

variable {m : List (K × V)} {k bound : K}

theorem Ascending.nodup (h : Ascending m) : (m.map (·.1)).Nodup :=
  List.pairwise_map.mpr (h.imp ne_of_lt)

/-! ## Adding an entry -/

theorem find_emplace {key : K} (hnew : find m key = none) (value : V) (other : K) :
    find (emplace key value m) other = if other = key then some value else find m other := by
  induction m with
  | nil =>
    rw [emplace, find_cons]
    by_cases h : other = key
    · rw [if_pos h, if_pos h.symm]
    · rw [if_neg h, if_neg (Ne.symm h)]
  | cons e m ih =>
    obtain ⟨k, v⟩ := e
    rw [find_cons] at hnew
    split at hnew
    · cases hnew
    · rename_i hk
      rw [emplace]
      split
      · rw [find_cons]
        by_cases h : other = key
        · rw [if_pos h, if_pos h.symm]
        · rw [if_neg h, if_neg (Ne.symm h)]
      · rw [if_neg (Ne.symm hk), find_cons, find_cons, ih hnew]
        by_cases h : other = key
        · subst h
          rw [if_pos rfl, if_pos rfl, if_neg hk]
        · rw [if_neg h, if_neg h]

theorem mem_emplace {key : K} {value : V} {e : K × V} (h : e ∈ emplace key value m) :
    e = (key, value) ∨ e ∈ m := by
  induction m with
  | nil => exact Or.inl (List.mem_singleton.mp h)
  | cons a m ih =>
    obtain ⟨k, v⟩ := a
    rw [emplace] at h
    split at h
    · exact List.mem_cons.mp h
    · split at h
      · exact Or.inr h
      · rcases List.mem_cons.mp h with heq | hmem
        · exact Or.inr (heq ▸ List.mem_cons_self)
        · exact (ih hmem).imp_right (List.mem_cons_of_mem _)

theorem ascending_emplace (hm : Ascending m) (key : K) (value : V) :
    Ascending (emplace key value m) := by
  induction m with
  | nil => exact List.pairwise_singleton _ _
  | cons a m ih =>
    obtain ⟨k, v⟩ := a
    obtain ⟨hhead, htail⟩ := List.pairwise_cons.mp hm
    rw [emplace]
    split
    · rename_i hlt
      refine List.pairwise_cons.mpr ⟨?_, hm⟩
      intro e he
      rcases List.mem_cons.mp he with heq | hmem
      · rw [heq]
        exact hlt
      · exact hlt.trans (hhead e hmem)
    · rename_i hge
      split
      · exact hm
      · rename_i hne
        have hgt : k < key := lt_of_le_of_ne (not_lt.mp hge) (Ne.symm hne)
        refine List.pairwise_cons.mpr ⟨?_, ih htail⟩
        intro e he
        rcases mem_emplace he with heq | hmem
        · rw [heq]
          exact hgt
        · exact hhead e hmem

theorem mem_keys_emplace {key : K} {value : V} :
    k ∈ (emplace key value m).map (·.1) ↔ k = key ∨ k ∈ m.map (·.1) := by
  induction m with
  | nil => simp [emplace]
  | cons a m ih =>
    obtain ⟨k', v⟩ := a
    rw [emplace]
    split
    · simp
    · split
      · rename_i heq
        simp [heq]
      · rw [List.map_cons, List.mem_cons, ih, List.map_cons, List.mem_cons]
        exact or_left_comm

theorem emplace_append {key : K} (h : ∀ e ∈ m, e.1 < key) (value : V) :
    emplace key value m = m ++ [(key, value)] := by
  induction m with
  | nil => rfl
  | cons a m ih =>
    obtain ⟨k, v⟩ := a
    have hlt : k < key := h (k, v) List.mem_cons_self
    rw [emplace, if_neg (not_lt.mpr hlt.le), if_neg hlt.ne',
      ih fun e he => h e (List.mem_cons_of_mem _ he), List.cons_append]

theorem emplace_ne_nil (key : K) (value : V) (m : List (K × V)) : emplace key value m ≠ [] := by
  cases m with
  | nil => exact List.cons_ne_nil _ _
  | cons a m =>
    rw [emplace]
    split
    · exact List.cons_ne_nil _ _
    · split
      · exact List.cons_ne_nil _ _
      · exact List.cons_ne_nil _ _

/-! ## The last entry up to a bound -/

def IsLastAtMost (bound : K) (m : List (K × V)) (key : K) (value : V) : Prop :=
  find m key = some value ∧ key ≤ bound ∧
    ∀ k v, find m k = some v → k ≤ bound → k ≤ key

theorem IsLastAtMost.unique {k' : K} {v v' : V} (h : IsLastAtMost bound m k v)
    (h' : IsLastAtMost bound m k' v') : k = k' ∧ v = v' := by
  have hk : k = k' := le_antisymm (h'.2.2 k v h.1 h.2.1) (h.2.2 k' v' h'.1 h'.2.1)
  subst hk
  exact ⟨rfl, Option.some.inj (h.1.symm.trans h'.1)⟩

theorem mem_takeWhile_iff (hm : Ascending m) (bound : K) (e : K × V) :
    e ∈ m.takeWhile (fun entry => entry.1 ≤ bound) ↔ e ∈ m ∧ e.1 ≤ bound := by
  induction m with
  | nil => simp
  | cons a m ih =>
    obtain ⟨hhead, htail⟩ := List.pairwise_cons.mp hm
    rw [List.takeWhile_cons]
    by_cases ha : a.1 ≤ bound
    · rw [if_pos (by simpa using ha), List.mem_cons, List.mem_cons, ih htail]
      constructor
      · rintro (rfl | ⟨hmem, hle⟩)
        · exact ⟨Or.inl rfl, ha⟩
        · exact ⟨Or.inr hmem, hle⟩
      · rintro ⟨rfl | hmem, hle⟩
        · exact Or.inl rfl
        · exact Or.inr ⟨hmem, hle⟩
    · rw [if_neg (by simpa using ha)]
      constructor
      · intro h
        cases h
      · rintro ⟨hmem, hle⟩
        rcases List.mem_cons.mp hmem with rfl | hmem
        · exact absurd hle ha
        · exact absurd ((hhead e hmem).le.trans hle) ha

theorem lastAtMost_eq_some (hm : Ascending m) {key : K} {value : V} :
    lastAtMost bound m = some (key, value) ↔ IsLastAtMost bound m key value := by
  have hsub : Ascending (m.takeWhile fun entry => entry.1 ≤ bound) :=
    List.Pairwise.sublist (List.takeWhile_sublist _) hm
  have hlast : ∀ k v, lastAtMost bound m = some (k, v) → IsLastAtMost bound m k v := by
    intro k v h
    obtain ⟨front, hfront⟩ := List.getLast?_eq_some_iff.mp h
    have hmem : (k, v) ∈ m.takeWhile fun entry => entry.1 ≤ bound := by
      rw [hfront]
      exact List.mem_append_right _ List.mem_cons_self
    obtain ⟨hin, hle⟩ := (mem_takeWhile_iff hm bound _).mp hmem
    refine ⟨find_of_mem hm.nodup hin, hle, ?_⟩
    intro k' v' hk' hle'
    have hmem' := (mem_takeWhile_iff hm bound (k', v')).mpr ⟨mem_of_find hk', hle'⟩
    rw [hfront] at hmem' hsub
    rcases List.mem_append.mp hmem' with hf | hl
    · exact ((List.pairwise_append.mp hsub).2.2 _ hf _ List.mem_cons_self).le
    · cases List.mem_singleton.mp hl
      exact le_rfl
  refine ⟨hlast key value, ?_⟩
  intro h
  have hmem := (mem_takeWhile_iff hm bound (key, value)).mpr ⟨mem_of_find h.1, h.2.1⟩
  cases hl : lastAtMost bound m with
  | none => rw [List.getLast?_eq_none_iff.mp hl] at hmem; cases hmem
  | some e =>
    obtain ⟨hk, hv⟩ := (hlast e.1 e.2 hl).unique h
    rw [← hk, ← hv]

end KvMem.OrderedMap
