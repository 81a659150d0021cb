import Mathlib

/-! # Best-first search with a bounded result set

A search over a graph given by `links` from some entry points. Nodes wait in a
queue ordered by distance, ties broken by the node itself; the best `ef` visible
nodes met so far are kept, and the search stops when the next node in the queue is
farther than all of these. Invisible nodes are stepping stones: they are visited
and expanded, and never kept.

The two priority queues are sorted lists. A node enters the queue at most once, so
the number of nodes is enough fuel for the loop.
-/

namespace KvMem.BeamSearch

variable {ν D : Type}

structure Candidate (ν D : Type) where
  distance : D
  id : ν
  deriving Repr

def Candidate.rank (c : Candidate ν D) : D ×ₗ ν := toLex (c.distance, c.id)

theorem Candidate.rank_injective : Function.Injective (Candidate.rank (ν := ν) (D := D)) := by
  intro a b h
  have hpair : (a.distance, a.id) = (b.distance, b.id) := toLex.injective h
  cases a
  cases b
  simp only [Prod.mk.injEq] at hpair
  simp [hpair]

/-- Drop the worst candidate of an overfull result. -/
def cap (ef : Nat) (nearest : List (Candidate ν D)) : List (Candidate ν D) :=
  if ef < nearest.length then nearest.dropLast else nearest

theorem cap_sublist (ef : Nat) (nearest : List (Candidate ν D)) :
    (cap ef nearest).Sublist nearest := by
  unfold cap
  split
  · exact List.dropLast_sublist _
  · exact List.Sublist.refl _

variable {ef : Nat} {nearest queue : List (Candidate ν D)} {c : Candidate ν D}

theorem cap_ne_nil (hef : 1 ≤ ef) (h : nearest ≠ []) : cap ef nearest ≠ [] := by
  unfold cap
  split
  · intro he
    have := congrArg List.length he
    rw [List.length_dropLast, List.length_nil] at this
    omega
  · exact h

theorem cap_length_le (h : nearest.length ≤ ef + 1) : (cap ef nearest).length ≤ ef := by
  unfold cap
  split
  · rw [List.length_dropLast]
    omega
  · omega

variable [LinearOrder ν] [LinearOrder D]

instance : LinearOrder (Candidate ν D) := LinearOrder.lift' Candidate.rank Candidate.rank_injective

theorem Candidate.lt_iff {a b : Candidate ν D} :
    a < b ↔ a.distance < b.distance ∨ (a.distance = b.distance ∧ a.id < b.id) :=
  Prod.Lex.toLex_lt_toLex

def push (c : Candidate ν D) (queue : List (Candidate ν D)) : List (Candidate ν D) :=
  queue.orderedInsert (· ≤ ·) c

structure State (ν D : Type) where
  candidates : List (Candidate ν D) := []
  nearest : List (Candidate ν D) := []
  visited : List ν := []

section Search

variable (dist : ν → D) (visible : ν → Bool) (ef : Nat) (links : ν → List ν)

def accept (c : Candidate ν D) (nearest : List (Candidate ν D)) : List (Candidate ν D) :=
  if visible c.id then cap ef (push c nearest) else nearest

/-- Queue a node that has not been met before, and keep it if it is visible. -/
def queueNode (s : State ν D) (x : ν) : State ν D where
  candidates := push ⟨dist x, x⟩ s.candidates
  nearest := accept visible ef ⟨dist x, x⟩ s.nearest
  visited := x :: s.visited

def enter (s : State ν D) (x : ν) : State ν D :=
  if x ∈ s.visited then s else queueNode dist visible ef s x

/-- The kept nodes leave room for `c`. -/
def improves (c : Candidate ν D) (nearest : List (Candidate ν D)) : Prop :=
  nearest.length < ef ∨ ∃ top ∈ nearest.getLast?, c < top

instance (c : Candidate ν D) (nearest : List (Candidate ν D)) : Decidable (improves ef c nearest) := by
  unfold improves
  infer_instance

def visit (s : State ν D) (x : ν) : State ν D :=
  if x ∈ s.visited then s
  else if improves ef ⟨dist x, x⟩ s.nearest then queueNode dist visible ef s x
  else { s with visited := x :: s.visited }

/-- The next node of the queue is farther than every node kept, and no more fit. -/
def stops (s : State ν D) (current : Candidate ν D) : Prop :=
  ef ≤ s.nearest.length ∧ ∃ top ∈ s.nearest.getLast?, top.distance < current.distance

instance (s : State ν D) (current : Candidate ν D) : Decidable (stops ef s current) := by
  unfold stops
  infer_instance

def expand (s : State ν D) (current : Candidate ν D) (rest : List (Candidate ν D)) : State ν D :=
  (links current.id).foldl (visit dist visible ef) { s with candidates := rest }

def loop : Nat → State ν D → State ν D
  | 0, s => s
  | fuel + 1, s =>
    match s.candidates with
    | [] => s
    | current :: rest =>
      if stops ef s current then s else loop fuel (expand dist visible ef links s current rest)

def start (entries : List ν) : State ν D := entries.foldl (enter dist visible ef) {}

/-- The nodes kept at the end, best first. -/
def search (fuel : Nat) (entries : List ν) : List (Candidate ν D) :=
  (loop dist visible ef links fuel (start dist visible ef entries)).nearest

end Search

/-! ## Queues -/

theorem mem_push {x : Candidate ν D} :
    x ∈ push c queue ↔ x = c ∨ x ∈ queue := List.mem_orderedInsert _

@[simp] theorem push_length (c : Candidate ν D) (queue : List (Candidate ν D)) :
    (push c queue).length = queue.length + 1 := List.orderedInsert_length _ _ _

theorem push_ne_nil (c : Candidate ν D) (queue : List (Candidate ν D)) : push c queue ≠ [] := by
  intro h
  have := congrArg List.length h
  simp at this

theorem push_sorted (h : queue.Pairwise (· < ·)) (hc : c ∉ queue) :
    (push c queue).Pairwise (· < ·) := by
  induction queue with
  | nil => simp [push]
  | cons q qs ih =>
    rw [List.pairwise_cons] at h
    rw [List.mem_cons, not_or] at hc
    by_cases hle : c ≤ q
    · have hlt : c < q := lt_of_le_of_ne hle hc.1
      have hp : push c (q :: qs) = c :: q :: qs := by simp [push, hle]
      rw [hp, List.pairwise_cons, List.pairwise_cons]
      refine ⟨?_, h.1, h.2⟩
      intro x hx
      rcases List.mem_cons.mp hx with rfl | hx
      · exact hlt
      · exact hlt.trans (h.1 x hx)
    · have hp : push c (q :: qs) = q :: push c qs := by simp [push, hle]
      rw [hp, List.pairwise_cons]
      refine ⟨?_, ih h.2 hc.2⟩
      intro x hx
      rcases mem_push.mp hx with rfl | hx
      · exact lt_of_not_ge hle
      · exact h.1 x hx

/-! ## What every step keeps -/

section Invariant

variable {dist : ν → D} {visible : ν → Bool} {ef : Nat} {links : ν → List ν}

/-- The invariant of the search. `P` holds of every node met. -/
structure Inv (dist : ν → D) (visible : ν → Bool) (ef : Nat) (P : ν → Prop) (s : State ν D) :
    Prop where
  visited_nodup : s.visited.Nodup
  visited_sat : ∀ x ∈ s.visited, P x
  queue_sorted : s.candidates.Pairwise (· < ·)
  queue_mem : ∀ c ∈ s.candidates, c.id ∈ s.visited ∧ c.distance = dist c.id
  nearest_sorted : s.nearest.Pairwise (· < ·)
  nearest_mem : ∀ c ∈ s.nearest, c.id ∈ s.visited ∧ c.distance = dist c.id ∧ visible c.id = true
  nearest_le : s.nearest.length ≤ ef

theorem Inv.empty (P : ν → Prop) : Inv dist visible ef P ({} : State ν D) where
  visited_nodup := List.nodup_nil
  visited_sat := by simp
  queue_sorted := List.Pairwise.nil
  queue_mem := by simp
  nearest_sorted := List.Pairwise.nil
  nearest_mem := by simp
  nearest_le := Nat.zero_le _

variable {P open_ : ν → Prop} {s : State ν D} {x : ν} {S : Finset ν}

theorem Inv.mark (h : Inv dist visible ef P s) (hx : P x) (hn : x ∉ s.visited) :
    Inv dist visible ef P { s with visited := x :: s.visited } where
  visited_nodup := List.nodup_cons.mpr ⟨hn, h.visited_nodup⟩
  visited_sat := by
    intro y hy
    rcases List.mem_cons.mp hy with rfl | hy
    · exact hx
    · exact h.visited_sat y hy
  queue_sorted := h.queue_sorted
  queue_mem := fun c hc => ⟨List.mem_cons_of_mem x (h.queue_mem c hc).1, (h.queue_mem c hc).2⟩
  nearest_sorted := h.nearest_sorted
  nearest_mem := fun c hc =>
    ⟨List.mem_cons_of_mem x (h.nearest_mem c hc).1, (h.nearest_mem c hc).2⟩
  nearest_le := h.nearest_le

theorem mem_accept {c x : Candidate ν D} {nearest : List (Candidate ν D)}
    (h : x ∈ accept visible ef c nearest) : (x = c ∧ visible c.id = true) ∨ x ∈ nearest := by
  unfold accept at h
  split at h
  · rename_i hv
    rcases mem_push.mp ((cap_sublist ef _).subset h) with rfl | hx
    · exact Or.inl ⟨rfl, hv⟩
    · exact Or.inr hx
  · exact Or.inr h

section

variable (h : Inv dist visible ef P s)

include h

theorem Inv.queueNode (hx : P x) (hn : x ∉ s.visited) :
    Inv dist visible ef P (queueNode dist visible ef s x) := by
  have hmark := h.mark hx hn
  have hfresh : ∀ c : Candidate ν D, c.id = x → c ∉ s.candidates ∧ c ∉ s.nearest := by
    intro c hc
    exact ⟨fun hm => hn (hc ▸ (h.queue_mem c hm).1), fun hm => hn (hc ▸ (h.nearest_mem c hm).1)⟩
  refine ⟨hmark.visited_nodup, hmark.visited_sat, ?_, ?_, ?_, ?_, ?_⟩
  · exact push_sorted h.queue_sorted (hfresh _ rfl).1
  · intro c hc
    rcases mem_push.mp hc with rfl | hc
    · exact ⟨List.mem_cons_self, rfl⟩
    · exact hmark.queue_mem c hc
  · simp only [BeamSearch.queueNode, accept]
    split
    · exact (push_sorted h.nearest_sorted (hfresh _ rfl).2).sublist (cap_sublist ef _)
    · exact h.nearest_sorted
  · intro c hc
    rcases mem_accept hc with ⟨rfl, hv⟩ | hc
    · exact ⟨List.mem_cons_self, rfl, hv⟩
    · exact hmark.nearest_mem c hc
  · simp only [BeamSearch.queueNode, accept]
    split
    · apply cap_length_le
      have := h.nearest_le
      rw [push_length]
      omega
    · exact h.nearest_le

theorem Inv.enter (hx : P x) : Inv dist visible ef P (enter dist visible ef s x) := by
  unfold BeamSearch.enter
  split
  · exact h
  · rename_i hn
    exact h.queueNode hx hn

theorem Inv.visit (hx : P x) : Inv dist visible ef P (visit dist visible ef s x) := by
  unfold BeamSearch.visit
  split
  · exact h
  · rename_i hn
    split
    · exact h.queueNode hx hn
    · exact h.mark hx hn

theorem Inv.pop {current : Candidate ν D}
    {rest : List (Candidate ν D)} (hs : s.candidates = current :: rest) :
    Inv dist visible ef P { s with candidates := rest } where
  visited_nodup := h.visited_nodup
  visited_sat := h.visited_sat
  queue_sorted := by
    have hq := h.queue_sorted
    rw [hs, List.pairwise_cons] at hq
    exact hq.2
  queue_mem := fun c hc => h.queue_mem c (hs ▸ List.mem_cons_of_mem current hc)
  nearest_sorted := h.nearest_sorted
  nearest_mem := h.nearest_mem
  nearest_le := h.nearest_le

theorem Inv.foldl_visit (xs : List ν) (hx : ∀ x ∈ xs, P x) :
    Inv dist visible ef P (xs.foldl (BeamSearch.visit dist visible ef) s) := by
  induction xs generalizing s with
  | nil => exact h
  | cons x xs ih =>
    exact ih (h.visit (hx x List.mem_cons_self)) fun y hy => hx y (List.mem_cons_of_mem x hy)

theorem Inv.expand (hlinks : ∀ x, P x → ∀ y ∈ links x, P y)
    {current : Candidate ν D} {rest : List (Candidate ν D)} (hs : s.candidates = current :: rest) :
    Inv dist visible ef P (expand dist visible ef links s current rest) := by
  have hmem : current ∈ s.candidates := hs ▸ List.mem_cons_self
  have hcur := h.visited_sat _ (h.queue_mem current hmem).1
  exact (h.pop hs).foldl_visit _ (hlinks _ hcur)

end

theorem Inv.loop (hlinks : ∀ x, P x → ∀ y ∈ links x, P y) (fuel : Nat)
    (h : Inv dist visible ef P s) : Inv dist visible ef P (loop dist visible ef links fuel s) := by
  induction fuel generalizing s with
  | zero => exact h
  | succ fuel ih =>
    unfold BeamSearch.loop
    split
    · exact h
    · rename_i current rest hs
      split
      · exact h
      · exact ih (h.expand hlinks hs)

theorem Inv.start (entries : List ν) (he : ∀ x ∈ entries, P x) :
    Inv dist visible ef P (start dist visible ef entries : State ν D) := by
  suffices hfold : ∀ s : State ν D, Inv dist visible ef P s →
      Inv dist visible ef P (entries.foldl (BeamSearch.enter dist visible ef) s) from
    hfold {} (Inv.empty P)
  induction entries with
  | nil => exact fun s hs => hs
  | cons x xs ih =>
    intro s hs
    exact ih (fun y hy => he y (List.mem_cons_of_mem x hy)) _ (hs.enter (he x List.mem_cons_self))

theorem inv_search (hlinks : ∀ x, P x → ∀ y ∈ links x, P y) (fuel : Nat) (entries : List ν)
    (he : ∀ x ∈ entries, P x) :
    Inv dist visible ef P
      (loop dist visible ef links fuel (start dist visible ef entries) : State ν D) :=
  Inv.loop hlinks fuel (Inv.start entries he)

/-! ## The result -/

/-- What is returned is visible, satisfies whatever the links preserve, carries its
own distance, is sorted without repetition, and has at most `ef` nodes. -/
theorem search_sound (dist : ν → D) (visible : ν → Bool) (ef : Nat)
    (hlinks : ∀ x, P x → ∀ y ∈ links x, P y) (fuel : Nat) (entries : List ν)
    (he : ∀ x ∈ entries, P x) :
    (∀ c ∈ search dist visible ef links fuel entries,
      P c.id ∧ c.distance = dist c.id ∧ visible c.id = true) ∧
    (search dist visible ef links fuel entries).Pairwise (· < ·) ∧
    (search dist visible ef links fuel entries).length ≤ ef := by
  have hinv : Inv dist visible ef P
      (loop dist visible ef links fuel (start dist visible ef entries)) :=
    inv_search hlinks fuel entries he
  exact ⟨fun c hc => ⟨hinv.visited_sat _ (hinv.nearest_mem c hc).1, (hinv.nearest_mem c hc).2⟩,
    hinv.nearest_sorted, hinv.nearest_le⟩

theorem ids_nodup (h : Inv dist visible ef P s) : (s.nearest.map Candidate.id).Nodup := by
  have hpair : (s.nearest.map Candidate.id).Pairwise (· ≠ ·) := by
    rw [List.pairwise_map]
    refine List.Pairwise.imp_of_mem ?_ h.nearest_sorted
    intro a b ha hb hlt he
    have hda := (h.nearest_mem a ha).2.1
    have hdb := (h.nearest_mem b hb).2.1
    have hab : a = b := by
      cases a
      cases b
      simp only at he hda hdb
      simp [he, hda, hdb]
    exact absurd hlt (hab ▸ lt_irrefl _)
  exact hpair

theorem search_ids_nodup (hlinks : ∀ x, P x → ∀ y ∈ links x, P y) (fuel : Nat) (entries : List ν)
    (he : ∀ x ∈ entries, P x) :
    ((search dist visible ef links fuel entries).map Candidate.id).Nodup :=
  ids_nodup (inv_search hlinks fuel entries he)

/-! ### The result is not empty -/

theorem queueNode_nearest_ne_nil (hef : 1 ≤ ef) (h : s.nearest ≠ [] ∨ visible x = true) :
    (queueNode dist visible ef s x).nearest ≠ [] := by
  simp only [queueNode, accept]
  split
  · exact cap_ne_nil hef (push_ne_nil _ _)
  · rename_i hv
    rcases h with h | h
    · exact h
    · exact absurd h hv

theorem visit_nearest_ne_nil (hef : 1 ≤ ef) (x : ν) (h : s.nearest ≠ []) :
    (visit dist visible ef s x).nearest ≠ [] := by
  unfold visit
  split
  · exact h
  · split
    · exact queueNode_nearest_ne_nil hef (Or.inl h)
    · exact h

theorem enter_nearest_ne_nil (hef : 1 ≤ ef) (x : ν) (h : s.nearest ≠ []) :
    (enter dist visible ef s x).nearest ≠ [] := by
  unfold enter
  split
  · exact h
  · exact queueNode_nearest_ne_nil hef (Or.inl h)

theorem loop_nearest_ne_nil (hef : 1 ≤ ef) (fuel : Nat) (h : s.nearest ≠ []) :
    (loop dist visible ef links fuel s).nearest ≠ [] := by
  have hfold : ∀ (xs : List ν) (s : State ν D), s.nearest ≠ [] →
      (xs.foldl (visit dist visible ef) s).nearest ≠ [] := by
    intro xs
    induction xs with
    | nil => exact fun s hs => hs
    | cons x xs ih => exact fun s hs => ih _ (visit_nearest_ne_nil hef x hs)
  induction fuel generalizing s with
  | zero => exact h
  | succ fuel ih =>
    unfold loop
    split
    · exact h
    · split
      · exact h
      · exact ih (hfold _ _ h)

theorem search_ne_nil (hef : 1 ≤ ef) (fuel : Nat) (xs : List ν) (hv : visible x = true) :
    search dist visible ef links fuel (x :: xs) ≠ [] := by
  have hfold : ∀ (xs : List ν) (s : State ν D), s.nearest ≠ [] →
      (xs.foldl (enter dist visible ef) s).nearest ≠ [] := by
    intro xs
    induction xs with
    | nil => exact fun s hs => hs
    | cons x xs ih => exact fun s hs => ih _ (enter_nearest_ne_nil hef x hs)
  apply loop_nearest_ne_nil hef
  rw [start, List.foldl_cons]
  apply hfold
  have henter : enter dist visible ef ({} : State ν D) x = queueNode dist visible ef {} x := by
    simp [enter]
  rw [henter]
  exact queueNode_nearest_ne_nil hef (Or.inr hv)

/-! ### The loop ends by itself -/

/-- The queue is empty, or its first node stops the search. -/
def Finished (ef : Nat) (s : State ν D) : Prop :=
  ∀ current rest, s.candidates = current :: rest → stops ef s current

def pending (S : Finset ν) (s : State ν D) : Nat := s.candidates.length + (S.card - s.visited.length)

section

variable (h : Inv dist visible ef (· ∈ S) s)

include h

theorem Inv.visited_length_le : s.visited.length ≤ S.card := by
  rw [← List.toFinset_card_of_nodup h.visited_nodup]
  exact Finset.card_le_card fun x hx => h.visited_sat x (List.mem_toFinset.mp hx)

theorem queueNode_pending (hx : x ∈ S) (hn : x ∉ s.visited) :
    pending S (queueNode dist visible ef s x) ≤ pending S s := by
  have hlen := (h.queueNode hx hn).visited_length_le
  simp only [queueNode, List.length_cons] at hlen
  simp only [pending, queueNode, push_length, List.length_cons]
  omega

theorem visit_pending (hx : x ∈ S) : pending S (visit dist visible ef s x) ≤ pending S s := by
  unfold visit
  split
  · exact Nat.le_refl _
  · rename_i hn
    split
    · exact queueNode_pending h hx hn
    · simp only [pending, List.length_cons]
      omega

theorem enter_pending (hx : x ∈ S) : pending S (enter dist visible ef s x) ≤ pending S s := by
  unfold enter
  split
  · exact Nat.le_refl _
  · rename_i hn
    exact queueNode_pending h hx hn

end

theorem foldl_visit_pending (xs : List ν) (h : Inv dist visible ef (· ∈ S) s)
    (hx : ∀ x ∈ xs, x ∈ S) : pending S (xs.foldl (visit dist visible ef) s) ≤ pending S s := by
  induction xs generalizing s with
  | nil => exact Nat.le_refl _
  | cons x xs ih =>
    have hstep := visit_pending h (hx x List.mem_cons_self)
    have hrest := ih (h.visit (hx x List.mem_cons_self)) fun y hy => hx y (List.mem_cons_of_mem x hy)
    exact hrest.trans hstep

theorem start_pending (entries : List ν) (he : ∀ x ∈ entries, x ∈ S) :
    pending S (start dist visible ef entries : State ν D) ≤ S.card := by
  suffices hfold : ∀ s : State ν D, Inv dist visible ef (· ∈ S) s →
      pending S (entries.foldl (enter dist visible ef) s) ≤ pending S s by
    have h := hfold {} (Inv.empty _)
    simpa [pending, start] using h
  induction entries with
  | nil => exact fun s _ => Nat.le_refl _
  | cons x xs ih =>
    intro s hs
    have hstep := enter_pending hs (he x List.mem_cons_self)
    exact (ih (fun y hy => he y (List.mem_cons_of_mem x hy)) _
      (hs.enter (he x List.mem_cons_self))).trans hstep

theorem loop_finished (hlinks : ∀ x ∈ S, ∀ y ∈ links x, y ∈ S) (fuel : Nat)
    (h : Inv dist visible ef (· ∈ S) s) (hfuel : pending S s ≤ fuel) :
    Finished ef (loop dist visible ef links fuel s) := by
  induction fuel generalizing s with
  | zero =>
    intro current rest hs
    rw [loop] at hs
    simp only [pending, hs, List.length_cons] at hfuel
    omega
  | succ fuel ih =>
    unfold loop
    split
    · rename_i hs
      intro current rest hc
      rw [hs] at hc
      cases hc
    · rename_i current rest hs
      split
      · rename_i hstop
        intro current' rest' hc
        rw [hs] at hc
        cases hc
        exact hstop
      · have hmem : current ∈ s.candidates := hs ▸ List.mem_cons_self
        have hcur := h.visited_sat _ (h.queue_mem current hmem).1
        have hexp := foldl_visit_pending (links current.id) (h.pop hs) (hlinks _ hcur)
        refine ih (h.expand hlinks hs) (hexp.trans ?_)
        simp only [pending, hs, List.length_cons] at hfuel ⊢
        omega

/-! ### A beam as wide as the graph

When `ef` is at least the number of nodes nothing is ever dropped: every visible
node that can be reached from the entry points is returned. -/

/-- Every node met is kept if visible, and waits in the queue or has had all its
neighbours met. -/
structure Full (dist : ν → D) (visible : ν → Bool) (links : ν → List ν) (open_ : ν → Prop)
    (s : State ν D) : Prop where
  kept : ∀ x ∈ s.visited, visible x = true → ⟨dist x, x⟩ ∈ s.nearest
  closed : ∀ x ∈ s.visited, open_ x ∨ ⟨dist x, x⟩ ∈ s.candidates ∨ ∀ y ∈ links x, y ∈ s.visited

theorem Inv.nearest_length_le_visited (h : Inv dist visible ef P s) :
    s.nearest.length ≤ s.visited.length := by
  have hsub : (s.nearest.map Candidate.id).toFinset ⊆ s.visited.toFinset := by
    intro x hx
    obtain ⟨c, hc, rfl⟩ := List.mem_map.mp (List.mem_toFinset.mp hx)
    exact List.mem_toFinset.mpr (h.nearest_mem c hc).1
  have hcard := Finset.card_le_card hsub
  rwa [List.toFinset_card_of_nodup (ids_nodup h), List.length_map,
    List.toFinset_card_of_nodup h.visited_nodup] at hcard

theorem Inv.room (h : Inv dist visible ef (· ∈ S) s) (hef : S.card ≤ ef) (hx : x ∈ S)
    (hn : x ∉ s.visited) : s.nearest.length < ef := by
  have hlen := (h.mark hx hn).visited_length_le
  have hle := h.nearest_length_le_visited
  simp only [List.length_cons] at hlen
  omega

theorem visit_wide (h : Inv dist visible ef (· ∈ S) s) (hef : S.card ≤ ef) (hx : x ∈ S)
    (hn : x ∉ s.visited) : visit dist visible ef s x = queueNode dist visible ef s x := by
  have himproves : improves ef ⟨dist x, x⟩ s.nearest := Or.inl (h.room hef hx hn)
  rw [visit, if_neg hn, if_pos himproves]

theorem mem_accept_wide {c x : Candidate ν D} {nearest : List (Candidate ν D)}
    (hroom : nearest.length < ef) (h : (x = c ∧ visible c.id = true) ∨ x ∈ nearest) :
    x ∈ accept visible ef c nearest := by
  have hcap : cap ef (push c nearest) = push c nearest := by
    rw [cap, if_neg]
    rw [push_length]
    omega
  unfold accept
  split
  · rw [hcap]
    exact mem_push.mpr (h.imp And.left id)
  · rename_i hv
    exact h.resolve_left fun hc => hv hc.2

theorem Full.queueNode (hf : Full dist visible links open_ s) (h : Inv dist visible ef (· ∈ S) s)
    (hef : S.card ≤ ef) (hx : x ∈ S) (hn : x ∉ s.visited) :
    Full dist visible links open_ (queueNode dist visible ef s x) where
  kept := by
    intro y hy hv
    apply mem_accept_wide (h.room hef hx hn)
    rcases List.mem_cons.mp hy with rfl | hy
    · exact Or.inl ⟨rfl, hv⟩
    · exact Or.inr (hf.kept y hy hv)
  closed := by
    intro y hy
    rcases List.mem_cons.mp hy with rfl | hy
    · exact Or.inr (Or.inl (mem_push.mpr (Or.inl rfl)))
    · rcases hf.closed y hy with ho | hc | hl
      · exact Or.inl ho
      · exact Or.inr (Or.inl (mem_push.mpr (Or.inr hc)))
      · exact Or.inr (Or.inr fun z hz => List.mem_cons_of_mem x (hl z hz))

theorem Full.visit (hf : Full dist visible links open_ s) (h : Inv dist visible ef (· ∈ S) s)
    (hef : S.card ≤ ef) (hx : x ∈ S) :
    Full dist visible links open_ (visit dist visible ef s x) := by
  by_cases hn : x ∈ s.visited
  · rwa [BeamSearch.visit, if_pos hn]
  · rw [visit_wide h hef hx hn]
    exact hf.queueNode h hef hx hn

theorem Full.enter (hf : Full dist visible links open_ s) (h : Inv dist visible ef (· ∈ S) s)
    (hef : S.card ≤ ef) (hx : x ∈ S) :
    Full dist visible links open_ (enter dist visible ef s x) := by
  unfold BeamSearch.enter
  split
  · exact hf
  · rename_i hn
    exact hf.queueNode h hef hx hn

theorem mem_visit_visited (s : State ν D) (x : ν) : x ∈ (visit dist visible ef s x).visited := by
  unfold visit
  split
  · assumption
  · split <;> exact List.mem_cons_self

theorem mem_enter_visited (s : State ν D) (x : ν) : x ∈ (enter dist visible ef s x).visited := by
  unfold enter
  split
  · assumption
  · exact List.mem_cons_self

theorem visited_subset_visit (s : State ν D) (x : ν) :
    s.visited ⊆ (visit dist visible ef s x).visited := by
  unfold visit
  split
  · exact List.Subset.refl _
  · split <;> exact List.subset_cons_self _ _

theorem visited_subset_enter (s : State ν D) (x : ν) :
    s.visited ⊆ (enter dist visible ef s x).visited := by
  unfold enter
  split
  · exact List.Subset.refl _
  · exact List.subset_cons_self _ _

theorem foldl_visit_visited (dist : ν → D) (visible : ν → Bool) (ef : Nat) (xs : List ν)
    (s : State ν D) :
    s.visited ⊆ (xs.foldl (visit dist visible ef) s).visited ∧
      xs ⊆ (xs.foldl (visit dist visible ef) s).visited := by
  induction xs generalizing s with
  | nil => exact ⟨List.Subset.refl _, List.nil_subset _⟩
  | cons x xs ih =>
    obtain ⟨hold, hnew⟩ := ih (visit dist visible ef s x)
    refine ⟨List.Subset.trans (visited_subset_visit s x) hold, ?_⟩
    intro y hy
    rcases List.mem_cons.mp hy with rfl | hy
    · exact hold (mem_visit_visited s y)
    · exact hnew hy

theorem Full.foldl_visit (xs : List ν) (hf : Full dist visible links open_ s)
    (h : Inv dist visible ef (· ∈ S) s) (hef : S.card ≤ ef) (hx : ∀ x ∈ xs, x ∈ S) :
    Full dist visible links open_ (xs.foldl (BeamSearch.visit dist visible ef) s) := by
  induction xs generalizing s with
  | nil => exact hf
  | cons x xs ih =>
    have hxs := hx x List.mem_cons_self
    exact ih (hf.visit h hef hxs) (h.visit hxs) fun y hy => hx y (List.mem_cons_of_mem x hy)

theorem Full.expand (hf : Full dist visible links (fun _ => False) s)
    (h : Inv dist visible ef (· ∈ S) s) (hlinks : ∀ x ∈ S, ∀ y ∈ links x, y ∈ S) (hef : S.card ≤ ef)
    {current : Candidate ν D} {rest : List (Candidate ν D)} (hs : s.candidates = current :: rest) :
    Full dist visible links (fun _ => False) (expand dist visible ef links s current rest) := by
  have hmem : current ∈ s.candidates := hs ▸ List.mem_cons_self
  have hcur := h.visited_sat _ (h.queue_mem current hmem).1
  -- while its neighbours are visited, only the node taken off the queue is open
  have hopen : Full dist visible links (· = current.id) { s with candidates := rest } := by
    refine ⟨hf.kept, fun x hx => ?_⟩
    rcases hf.closed x hx with ho | hc | hl
    · exact ho.elim
    · rw [hs] at hc
      rcases List.mem_cons.mp hc with hc | hc
      · exact Or.inl (congrArg Candidate.id hc)
      · exact Or.inr (Or.inl hc)
    · exact Or.inr (Or.inr hl)
  have hfold := hopen.foldl_visit (links current.id) (h.pop hs) hef (hlinks _ hcur)
  have hmet := foldl_visit_visited dist visible ef (links current.id)
    { s with candidates := rest }
  refine ⟨hfold.kept, fun x hx => ?_⟩
  rcases hfold.closed x hx with rfl | hc | hl
  · exact Or.inr (Or.inr fun y hy => hmet.2 hy)
  · exact Or.inr (Or.inl hc)
  · exact Or.inr (Or.inr hl)

theorem Full.loop (hlinks : ∀ x ∈ S, ∀ y ∈ links x, y ∈ S) (hef : S.card ≤ ef) (fuel : Nat)
    (hf : Full dist visible links (fun _ => False) s) (h : Inv dist visible ef (· ∈ S) s) :
    Full dist visible links (fun _ => False) (loop dist visible ef links fuel s) ∧
      s.visited ⊆ (loop dist visible ef links fuel s).visited := by
  induction fuel generalizing s with
  | zero => exact ⟨hf, List.Subset.refl _⟩
  | succ fuel ih =>
    unfold BeamSearch.loop
    split
    · exact ⟨hf, List.Subset.refl _⟩
    · rename_i current rest hs
      split
      · exact ⟨hf, List.Subset.refl _⟩
      · obtain ⟨hrest, hsub⟩ := ih (hf.expand h hlinks hef hs) (h.expand hlinks hs)
        have hmet := foldl_visit_visited dist visible ef (links current.id)
          { s with candidates := rest }
        exact ⟨hrest, List.Subset.trans hmet.1 hsub⟩

theorem Full.start (hef : S.card ≤ ef) (entries : List ν) (he : ∀ x ∈ entries, x ∈ S) :
    Full dist visible links (fun _ => False) (start dist visible ef entries) ∧
      entries ⊆ (start dist visible ef entries : State ν D).visited := by
  suffices hfold : ∀ s : State ν D, Inv dist visible ef (· ∈ S) s →
      Full dist visible links (fun _ => False) s →
      Full dist visible links (fun _ => False) (entries.foldl (BeamSearch.enter dist visible ef) s) ∧
        s.visited ⊆ (entries.foldl (BeamSearch.enter dist visible ef) s).visited ∧
        entries ⊆ (entries.foldl (BeamSearch.enter dist visible ef) s).visited by
    obtain ⟨hfull, _, hsub⟩ := hfold {} (Inv.empty _) ⟨by simp, by simp⟩
    exact ⟨hfull, hsub⟩
  induction entries with
  | nil => exact fun s _ hs => ⟨hs, List.Subset.refl _, List.nil_subset _⟩
  | cons x xs ih =>
    intro s hi hs
    have hx := he x List.mem_cons_self
    obtain ⟨hfull, hold, hnew⟩ := ih (fun y hy => he y (List.mem_cons_of_mem x hy)) _
      (hi.enter hx) (hs.enter hi hef hx)
    refine ⟨hfull, List.Subset.trans (visited_subset_enter s x) hold, ?_⟩
    intro y hy
    rcases List.mem_cons.mp hy with rfl | hy
    · exact hold (mem_enter_visited s y)
    · exact hnew hy

def Reaches (links : ν → List ν) (entries : List ν) (x : ν) : Prop :=
  ∃ e ∈ entries, Relation.ReflTransGen (fun a b => b ∈ links a) e x

omit [LinearOrder ν] in
theorem Reaches.step {entries : List ν} {y : ν} (h : Reaches links entries x) (hy : y ∈ links x) :
    Reaches links entries y := by
  obtain ⟨e, he, hpath⟩ := h
  exact ⟨e, he, hpath.tail hy⟩

omit [LinearOrder ν] in
theorem Reaches.induction {entries : List ν} (he : ∀ x ∈ entries, P x)
    (hlinks : ∀ x, P x → ∀ y ∈ links x, P y) (h : Reaches links entries x) : P x := by
  obtain ⟨e, hentry, hpath⟩ := h
  induction hpath with
  | refl => exact he e hentry
  | tail _ hstep ih => exact hlinks _ ih _ hstep

theorem Inv.mem_of_full (h : Inv dist visible ef (· ∈ S) s) (hef : S.card ≤ ef)
    (hfull : ef ≤ s.nearest.length) (hx : x ∈ S) : x ∈ s.visited := by
  have hsub : (s.nearest.map Candidate.id).toFinset ⊆ S := by
    intro y hy
    obtain ⟨c, hc, rfl⟩ := List.mem_map.mp (List.mem_toFinset.mp hy)
    exact h.visited_sat _ (h.nearest_mem c hc).1
  have hcard : S.card ≤ (s.nearest.map Candidate.id).toFinset.card := by
    rw [List.toFinset_card_of_nodup (ids_nodup h), List.length_map]
    omega
  have heq := Finset.eq_of_subset_of_card_le hsub hcard
  rw [← heq] at hx
  obtain ⟨c, hc, rfl⟩ := List.mem_map.mp (List.mem_toFinset.mp hx)
  exact (h.nearest_mem c hc).1

/-- With a beam as wide as the graph the search returns exactly the visible nodes
that can be reached. -/
theorem mem_search_iff (hlinks : ∀ x ∈ S, ∀ y ∈ links x, y ∈ S) (hef : S.card ≤ ef)
    (entries : List ν) (he : ∀ x ∈ entries, x ∈ S) {fuel : Nat} (hfuel : S.card ≤ fuel)
    {c : Candidate ν D} :
    c ∈ search dist visible ef links fuel entries ↔
      c.distance = dist c.id ∧ visible c.id = true ∧ Reaches links entries c.id := by
  constructor
  · intro hc
    have hinv : Inv dist visible ef (Reaches links entries)
        (loop dist visible ef links fuel (start dist visible ef entries)) :=
      inv_search (fun x hx y hy => hx.step hy) fuel entries
        (fun x hx => ⟨x, hx, Relation.ReflTransGen.refl⟩)
    obtain ⟨hmet, hdist, hvis⟩ := hinv.nearest_mem c hc
    exact ⟨hdist, hvis, hinv.visited_sat _ hmet⟩
  · rintro ⟨hdist, hvis, hreach⟩
    have hstart : Inv dist visible ef (· ∈ S) (start dist visible ef entries) := Inv.start entries he
    have hinv := Inv.loop hlinks fuel hstart
    have hfin := loop_finished hlinks fuel hstart ((start_pending entries he).trans hfuel)
    have hboth : Full dist visible links (fun _ => False) (start dist visible ef entries) ∧
        entries ⊆ (start dist visible ef entries : State ν D).visited := Full.start hef entries he
    obtain ⟨hfull, hsub⟩ := Full.loop hlinks hef fuel hboth.1 hstart
    have hentries := List.Subset.trans hboth.2 hsub
    have hce : c = ⟨dist c.id, c.id⟩ := by
      cases c
      simp only at hdist
      simp [hdist]
    rw [search, hce]
    suffices hmet : c.id ∈ (loop dist visible ef links fuel
        (start dist visible ef entries : State ν D)).visited from hfull.kept _ hmet hvis
    -- all nodes reached have been met: the queue is empty, or every node is kept
    cases hcand : (loop dist visible ef links fuel
        (start dist visible ef entries : State ν D)).candidates with
    | nil =>
      refine hreach.induction (fun x hx => hentries hx) fun x hx y hy => ?_
      rcases hfull.closed x hx with ho | hc | hl
      · exact ho.elim
      · rw [hcand] at hc
        cases hc
      · exact hl y hy
    | cons current rest =>
      have hS : c.id ∈ S := hreach.induction he hlinks
      exact hinv.mem_of_full hef (hfin current rest hcand).1 hS

/-! ### A local optimum

Whatever the width of the beam, the search stops at a result none of whose
neighbours would improve it. -/

/-- A kept node: it is in the result, or the result is full of better ones. -/
def Placed (ef : Nat) (nearest : List (Candidate ν D)) (c : Candidate ν D) : Prop :=
  c ∈ nearest ∨ (ef ≤ nearest.length ∧ ∀ z ∈ nearest, z < c)

/-- Every visible node met has been placed, and every node kept waits in the queue or
has had all its neighbours met. -/
structure Local (dist : ν → D) (visible : ν → Bool) (ef : Nat) (links : ν → List ν)
    (open_ : ν → Prop) (s : State ν D) : Prop where
  placed : ∀ x ∈ s.visited, visible x = true → Placed ef s.nearest ⟨dist x, x⟩
  closed : ∀ c ∈ s.nearest, open_ c.id ∨ c ∈ s.candidates ∨ ∀ y ∈ links c.id, y ∈ s.visited

theorem placed_cap_push {c y : Candidate ν D} {nearest : List (Candidate ν D)}
    (hs : nearest.Pairwise (· < ·)) (hc : c ∉ nearest) (hle : nearest.length ≤ ef)
    (hy : y = c ∨ Placed ef nearest y) : Placed ef (cap ef (push c nearest)) y := by
  have hsorted := push_sorted hs hc
  by_cases hfull : ef < (push c nearest).length
  · have hlen : nearest.length = ef := by
      rw [push_length] at hfull
      omega
    have hcap : cap ef (push c nearest) = (push c nearest).dropLast := if_pos hfull
    have hne := push_ne_nil c nearest
    have hsplit := List.dropLast_append_getLast hne
    -- what stays is better than the candidate that is dropped
    have hbetter : ∀ z ∈ (push c nearest).dropLast, z < (push c nearest).getLast hne := by
      intro z hz
      rw [← hsplit] at hsorted
      exact (List.pairwise_append.mp hsorted).2.2 z hz _ (List.mem_singleton_self _)
    have hstay : ef ≤ (push c nearest).dropLast.length := by
      rw [List.length_dropLast, push_length]
      omega
    rw [hcap]
    have hmem : y ∈ push c nearest → Placed ef (push c nearest).dropLast y := by
      intro hy'
      rw [← hsplit] at hy'
      rcases List.mem_append.mp hy' with hy' | hy'
      · exact Or.inl hy'
      · rw [List.mem_singleton] at hy'
        exact Or.inr ⟨hstay, fun z hz => hy' ▸ hbetter z hz⟩
    rcases hy with rfl | hy | ⟨_, hworse⟩
    · exact hmem (mem_push.mpr (Or.inl rfl))
    · exact hmem (mem_push.mpr (Or.inr hy))
    · refine Or.inr ⟨hstay, fun z hz => ?_⟩
      have hz' := (List.dropLast_sublist _).subset hz
      rcases mem_push.mp (List.getLast_mem hne) with hlast | hlast
      · rcases mem_push.mp hz' with rfl | hz'
        · have hlt := hbetter z hz
          rw [hlast] at hlt
          exact absurd hlt (lt_irrefl z)
        · exact hworse z hz'
      · exact (hbetter z hz).trans (hworse _ hlast)
  · have hcap : cap ef (push c nearest) = push c nearest := if_neg hfull
    rw [hcap]
    rcases hy with rfl | hy | ⟨hge, _⟩
    · exact Or.inl (mem_push.mpr (Or.inl rfl))
    · exact Or.inl (mem_push.mpr (Or.inr hy))
    · rw [push_length] at hfull
      omega

theorem Local.queueNode (hl : Local dist visible ef links open_ s) (h : Inv dist visible ef P s)
    (hn : x ∉ s.visited) : Local dist visible ef links open_ (queueNode dist visible ef s x) := by
  have hfresh : (⟨dist x, x⟩ : Candidate ν D) ∉ s.nearest := fun hm => hn (h.nearest_mem _ hm).1
  constructor
  · intro y hy hvis
    show Placed ef (accept visible ef ⟨dist x, x⟩ s.nearest) ⟨dist y, y⟩
    by_cases hv : visible x = true
    · have hacc : accept visible ef ⟨dist x, x⟩ s.nearest = cap ef (push ⟨dist x, x⟩ s.nearest) :=
        if_pos hv
      rw [hacc]
      refine placed_cap_push h.nearest_sorted hfresh h.nearest_le ?_
      rcases List.mem_cons.mp hy with rfl | hy
      · exact Or.inl rfl
      · exact Or.inr (hl.placed y hy hvis)
    · have hacc : accept visible ef ⟨dist x, x⟩ s.nearest = s.nearest := if_neg hv
      rw [hacc]
      rcases List.mem_cons.mp hy with rfl | hy
      · exact absurd hvis hv
      · exact hl.placed y hy hvis
  · intro c hc
    rcases mem_accept hc with ⟨rfl, _⟩ | hc
    · exact Or.inr (Or.inl (mem_push.mpr (Or.inl rfl)))
    · rcases hl.closed c hc with ho | hq | hm
      · exact Or.inl ho
      · exact Or.inr (Or.inl (mem_push.mpr (Or.inr hq)))
      · exact Or.inr (Or.inr fun y hy => List.mem_cons_of_mem x (hm y hy))

theorem placed_of_not_improves (hef : 1 ≤ ef) {c : Candidate ν D} {nearest : List (Candidate ν D)}
    (hs : nearest.Pairwise (· < ·)) (hc : c ∉ nearest) (h : ¬ improves ef c nearest) :
    Placed ef nearest c := by
  simp only [improves, not_or, Nat.not_lt, not_exists, not_and] at h
  obtain ⟨hfull, htop⟩ := h
  have hne : nearest ≠ [] := by
    rintro rfl
    simp at hfull
    omega
  have hlast : nearest.getLast hne < c := by
    have hle : ¬ c < nearest.getLast hne := htop _ (by rw [List.getLast?_eq_some_getLast hne]; rfl)
    refine lt_of_le_of_ne (not_lt.mp hle) fun he => hc ?_
    rw [← he]
    exact List.getLast_mem hne
  refine Or.inr ⟨hfull, fun z hz => ?_⟩
  rw [← List.dropLast_append_getLast hne] at hz hs
  rcases List.mem_append.mp hz with hz | hz
  · exact ((List.pairwise_append.mp hs).2.2 z hz _ (List.mem_singleton_self _)).trans hlast
  · rw [List.mem_singleton.mp hz]
    exact hlast

theorem Local.visit (hef : 1 ≤ ef) (hl : Local dist visible ef links open_ s)
    (h : Inv dist visible ef P s) (x : ν) :
    Local dist visible ef links open_ (visit dist visible ef s x) := by
  unfold BeamSearch.visit
  split
  · exact hl
  · rename_i hn
    split
    · exact hl.queueNode h hn
    · rename_i himp
      constructor
      · intro y hy hvis
        rcases List.mem_cons.mp hy with rfl | hy
        · exact placed_of_not_improves hef h.nearest_sorted (fun hm => hn (h.nearest_mem _ hm).1) himp
        · exact hl.placed y hy hvis
      · intro c hc
        rcases hl.closed c hc with ho | hq | hm
        · exact Or.inl ho
        · exact Or.inr (Or.inl hq)
        · exact Or.inr (Or.inr fun y hy => List.mem_cons_of_mem x (hm y hy))

theorem Local.foldl_visit (hef : 1 ≤ ef) (xs : List ν) (hl : Local dist visible ef links open_ s)
    (h : Inv dist visible ef P s) (hx : ∀ x ∈ xs, P x) :
    Local dist visible ef links open_ (xs.foldl (BeamSearch.visit dist visible ef) s) := by
  induction xs generalizing s with
  | nil => exact hl
  | cons x xs ih =>
    exact ih (hl.visit hef h x) (h.visit (hx x List.mem_cons_self))
      fun y hy => hx y (List.mem_cons_of_mem x hy)

theorem Local.expand (hef : 1 ≤ ef) (hl : Local dist visible ef links (fun _ => False) s)
    (h : Inv dist visible ef P s) (hlinks : ∀ x, P x → ∀ y ∈ links x, P y) {current : Candidate ν D}
    {rest : List (Candidate ν D)} (hs : s.candidates = current :: rest) :
    Local dist visible ef links (fun _ => False) (expand dist visible ef links s current rest) := by
  have hmem : current ∈ s.candidates := hs ▸ List.mem_cons_self
  have hcur := h.visited_sat _ (h.queue_mem current hmem).1
  have hopen : Local dist visible ef links (· = current.id) { s with candidates := rest } := by
    refine ⟨hl.placed, fun c hc => ?_⟩
    rcases hl.closed c hc with ho | hq | hm
    · exact ho.elim
    · rw [hs] at hq
      rcases List.mem_cons.mp hq with rfl | hq
      · exact Or.inl rfl
      · exact Or.inr (Or.inl hq)
    · exact Or.inr (Or.inr hm)
  have hfold := hopen.foldl_visit hef (links current.id) (h.pop hs) (hlinks _ hcur)
  have hmet := foldl_visit_visited dist visible ef (links current.id)
    { s with candidates := rest }
  refine ⟨hfold.placed, fun c hc => ?_⟩
  rcases hfold.closed c hc with ho | hq | hm
  · exact Or.inr (Or.inr fun y hy => hmet.2 (ho ▸ hy))
  · exact Or.inr (Or.inl hq)
  · exact Or.inr (Or.inr hm)

theorem Local.loop (hef : 1 ≤ ef) (hlinks : ∀ x, P x → ∀ y ∈ links x, P y) (fuel : Nat)
    (hl : Local dist visible ef links (fun _ => False) s) (h : Inv dist visible ef P s) :
    Local dist visible ef links (fun _ => False) (loop dist visible ef links fuel s) := by
  induction fuel generalizing s with
  | zero => exact hl
  | succ fuel ih =>
    unfold BeamSearch.loop
    split
    · exact hl
    · rename_i current rest hs
      split
      · exact hl
      · exact ih (hl.expand hef h hlinks hs) (h.expand hlinks hs)

theorem local_start (entries : List ν) (he : ∀ x ∈ entries, P x) :
    Local dist visible ef links (fun _ => False) (start dist visible ef entries) := by
  suffices hfold : ∀ s : State ν D, Inv dist visible ef P s →
      Local dist visible ef links (fun _ => False) s →
      Local dist visible ef links (fun _ => False)
        (entries.foldl (BeamSearch.enter dist visible ef) s) from
    hfold {} (Inv.empty P) ⟨by simp, by simp⟩
  induction entries with
  | nil => exact fun s _ hs => hs
  | cons x xs ih =>
    intro s hi hs
    have henter : Local dist visible ef links (fun _ => False) (enter dist visible ef s x) := by
      unfold BeamSearch.enter
      split
      · exact hs
      · rename_i hn
        exact hs.queueNode hi hn
    exact ih (fun y hy => he y (List.mem_cons_of_mem x hy)) _ (hi.enter (he x List.mem_cons_self))
      henter

theorem distance_le_last {nearest : List (Candidate ν D)} (hs : nearest.Pairwise (· < ·))
    {c top : Candidate ν D} (hc : c ∈ nearest) (ht : top ∈ nearest.getLast?) :
    c.distance ≤ top.distance := by
  have hne := List.ne_nil_of_mem hc
  rw [List.getLast?_eq_some_getLast hne] at ht
  cases ht
  rw [← List.dropLast_append_getLast hne] at hc hs
  rcases List.mem_append.mp hc with hc | hc
  · have hlt := (List.pairwise_append.mp hs).2.2 c hc _ (List.mem_singleton_self _)
    rcases Candidate.lt_iff.mp hlt with hd | ⟨hd, _⟩
    · exact hd.le
    · exact hd.le
  · rw [List.mem_singleton.mp hc]

theorem Finished.not_waiting (hf : Finished ef s) (h : Inv dist visible ef P s) {c : Candidate ν D}
    (hc : c ∈ s.nearest) : c ∉ s.candidates := by
  intro hq
  cases hs : s.candidates with
  | nil =>
    rw [hs] at hq
    cases hq
  | cons current rest =>
    obtain ⟨_, top, htop, hlt⟩ := hf current rest hs
    have hle := distance_le_last h.nearest_sorted hc htop
    have hsorted := h.queue_sorted
    rw [hs] at hq hsorted
    have hcur : current.distance ≤ c.distance := by
      rcases List.mem_cons.mp hq with rfl | hq
      · exact le_refl _
      · rcases Candidate.lt_iff.mp ((List.pairwise_cons.mp hsorted).1 c hq) with hd | ⟨hd, _⟩
        · exact hd.le
        · exact hd.le
    exact absurd (hlt.trans_le hcur) (not_lt.mpr hle)

/-- A visible neighbour of a returned node is returned too, or the result is full of
better nodes. -/
theorem search_local (hef : 1 ≤ ef) (hlinks : ∀ x ∈ S, ∀ y ∈ links x, y ∈ S) (entries : List ν)
    (he : ∀ x ∈ entries, x ∈ S) {fuel : Nat} (hfuel : S.card ≤ fuel) {c : Candidate ν D}
    (hc : c ∈ search dist visible ef links fuel entries) (hx : x ∈ links c.id)
    (hv : visible x = true) :
    ⟨dist x, x⟩ ∈ search dist visible ef links fuel entries ∨
      ((search dist visible ef links fuel entries).length = ef ∧
        ∀ z ∈ search dist visible ef links fuel entries, z < ⟨dist x, x⟩) := by
  have hstart : Inv dist visible ef (· ∈ S) (start dist visible ef entries) := Inv.start entries he
  have hinv := Inv.loop hlinks fuel hstart
  have hfin := loop_finished hlinks fuel hstart ((start_pending entries he).trans hfuel)
  have hbegin : Local dist visible ef links (fun _ => False) (start dist visible ef entries) :=
    local_start entries he
  have hlocal := Local.loop hef hlinks fuel hbegin hstart
  have hmet : x ∈ (loop dist visible ef links fuel (start dist visible ef entries)).visited := by
    rcases hlocal.closed c hc with ho | hq | hm
    · exact ho.elim
    · exact absurd hq (hfin.not_waiting hinv hc)
    · exact hm x hx
  rcases hlocal.placed x hmet hv with hin | ⟨hfull, hbetter⟩
  · exact Or.inl hin
  · exact Or.inr ⟨Nat.le_antisymm hinv.nearest_le hfull, hbetter⟩

end Invariant

end KvMem.BeamSearch
