import Mathlib

/-! # Skip lists

Nodes are numbered in the order they are made; a node has one successor for each of
its levels, and the head has one for every level there can be. A search walks down the
levels and remembers where it left each of them, and an insertion splices the new node
in at these places. The number of levels of a node is an argument of the insertion.

The proofs keep the nodes in key order beside the list: level `i` links exactly the
nodes of that order that have more than `i` levels.
-/

namespace KvMem.SkipLists

structure Node (κ α : Type) where
  key : κ
  value : α
  next : List (Option Nat)

/-- The head, or a node by its number. -/
inductive Place where
  | head
  | node (id : Nat)
  deriving DecidableEq, Repr

structure SkipList (κ α : Type) where
  head : List (Option Nat)
  level : Nat
  size : Nat
  nodes : List (Node κ α)

namespace SkipList

variable {κ α : Type}

def empty (maxLevel : Nat) : SkipList κ α := ⟨List.replicate maxLevel none, 1, 0, []⟩

def next (l : SkipList κ α) (p : Place) (i : Nat) : Option Nat :=
  match p with
  | .head => (l.head[i]?).join
  | .node id => ((l.nodes[id]?).bind fun n => n.next[i]?).join

def setNext (l : SkipList κ α) (p : Place) (i : Nat) (target : Option Nat) : SkipList κ α :=
  match p with
  | .head => { l with head := l.head.set i target }
  | .node id =>
    { l with nodes := l.nodes.modify id fun n => { n with next := n.next.set i target } }

/-- Put the node `id` behind `p` on level `i`. -/
def splice (id : Nat) (p : Place) (i : Nat) (l : SkipList κ α) : SkipList κ α :=
  (l.setNext (.node id) i (l.next p i)).setNext p i (some id)

def overwrite (l : SkipList κ α) (id : Nat) (value : α) : SkipList κ α :=
  { l with nodes := l.nodes.modify id fun n => { n with value := value } }

/-- Make a node of `newLevel` levels and splice it in behind the places of `prev`; levels
that were not in use begin at the head. -/
def link (l : SkipList κ α) (prev : List Place) (key : κ) (value : α) (newLevel : Nat) :
    SkipList κ α :=
  let prev := prev ++ List.replicate (newLevel - l.level) Place.head
  (List.range newLevel).foldl (fun l' i => splice l.nodes.length (prev.getD i .head) i l')
    { l with
      level := max l.level newLevel
      size := l.size + 1
      nodes := l.nodes ++ [⟨key, value, List.replicate newLevel none⟩] }

def follow (l : SkipList κ α) (i : Nat) : Nat → Option Nat → List Nat
  | 0, _ => []
  | _, none => []
  | fuel + 1, some id => id :: follow l i fuel (l.next (.node id) i)

def levelIds (l : SkipList κ α) (i : Nat) : List Nat := l.follow i l.nodes.length (l.next .head i)

section Search

variable [LinearOrder κ]

def isBefore (l : SkipList κ α) (key : κ) (id : Nat) : Bool :=
  (l.nodes[id]?).any fun n => n.key < key

def isAt (l : SkipList κ α) (key : κ) (id : Nat) : Bool :=
  (l.nodes[id]?).any fun n => n.key = key

def walk (l : SkipList κ α) (key : κ) (i : Nat) : Nat → Place → Place
  | 0, p => p
  | fuel + 1, p =>
    match l.next p i with
    | none => p
    | some id => if l.isBefore key id then walk l key i fuel (.node id) else p

/-- Walk down the levels below `i`; the places where they are left, lowest first, and
the last of them. -/
def descend (l : SkipList κ α) (key : κ) : Nat → Place → List Place × Place
  | 0, p => ([], p)
  | i + 1, p =>
    let p := l.walk key i (l.nodes.length + 1) p
    let (prev, last) := descend l key i p
    (prev ++ [p], last)

def findGreaterOrEqual (l : SkipList κ α) (key : κ) : List Place × Option Nat :=
  let (prev, last) := l.descend key l.level .head
  (prev, l.next last 0)

def insert (l : SkipList κ α) (key : κ) (value : α) (newLevel : Nat) : SkipList κ α :=
  match l.findGreaterOrEqual key with
  | (prev, some id) =>
    if l.isAt key id then l.overwrite id value else l.link prev key value newLevel
  | (prev, none) => l.link prev key value newLevel

end Search

/-! ## Updates -/

def info (l : SkipList κ α) (id : Nat) : Option (κ × α × Nat) :=
  (l.nodes[id]?).map fun n => (n.key, n.value, n.next.length)

def height (l : SkipList κ α) (id : Nat) : Nat := ((l.info id).map fun n => n.2.2).getD 0

def slots (l : SkipList κ α) : Place → Nat
  | .head => l.head.length
  | .node id => l.height id

theorem height_eq (l : SkipList κ α) (id : Nat) :
    l.height id = ((l.nodes[id]?).map fun n => n.next.length).getD 0 := by
  rw [height, info, Option.map_map]
  rfl

theorem info_setNext (l : SkipList κ α) (p : Place) (i : Nat) (target : Option Nat) (id : Nat) :
    (l.setNext p i target).info id = l.info id := by
  cases p with
  | head => rfl
  | node id' =>
    simp only [info, setNext, List.getElem?_modify]
    cases l.nodes[id]? with
    | none => rfl
    | some n =>
      by_cases h : id' = id
      · simp [h]
      · simp [h]

theorem slots_setNext (l : SkipList κ α) (p : Place) (i : Nat) (target : Option Nat) (q : Place) :
    (l.setNext p i target).slots q = l.slots q := by
  cases q with
  | head => cases p <;> simp [slots, setNext]
  | node id =>
    simp only [slots, height]
    rw [info_setNext]

variable {i : Nat} {p : Place}

theorem next_setNext (l : SkipList κ α) (h : i < l.slots p) (target : Option Nat) (q : Place)
    (j : Nat) : (l.setNext p i target).next q j = if q = p ∧ j = i then target else l.next q j := by
  cases p with
  | head =>
    have hi : i < l.head.length := h
    cases q with
    | head =>
      by_cases hj : j = i
      · subst hj
        simp [next, setNext, hi]
      · have hij : ¬ i = j := fun he => hj he.symm
        simp [next, setNext, hj, hij]
    | node id => simp [next, setNext]
  | node id =>
    cases q with
    | head => simp [next, setNext]
    | node id' =>
      by_cases hid : id' = id
      · subst hid
        cases hn : l.nodes[id']? with
        | none => simp [slots, height_eq, hn] at h
        | some n =>
          have hi : i < n.next.length := by simpa [slots, height_eq, hn] using h
          by_cases hj : j = i
          · subst hj
            simp [next, setNext, hn, hi]
          · have hij : ¬ i = j := fun he => hj he.symm
            simp [next, setNext, hn, hj, hij]
      · have hid' : ¬ id = id' := fun he => hid he.symm
        simp [next, setNext, hid, hid']

theorem next_splice (l : SkipList κ α) {id : Nat} (hid : i < l.height id) (hp : i < l.slots p)
    (q : Place) (j : Nat) :
    (l.splice id p i).next q j =
      if j = i then
        if q = p then some id else if q = .node id then l.next p i else l.next q j
      else l.next q j := by
  have hslots : i < (l.setNext (.node id) i (l.next p i)).slots p := by
    rw [slots_setNext]
    exact hp
  rw [splice, next_setNext _ hslots, next_setNext _ (show i < l.slots (.node id) from hid)]
  by_cases hj : j = i
  · simp [hj]
  · simp [hj]

/-! ## Paths -/

/-- Level `i` leads from `p` through exactly these nodes. -/
def Path (l : SkipList κ α) (i : Nat) : Place → List Nat → Prop
  | p, [] => l.next p i = none
  | p, id :: ids => l.next p i = some id ∧ Path l i (.node id) ids

def lastPlace (p : Place) : List Nat → Place
  | [] => p
  | id :: ids => lastPlace (.node id) ids

theorem lastPlace_append (p : Place) (xs ys : List Nat) :
    lastPlace p (xs ++ ys) = lastPlace (lastPlace p xs) ys := by
  induction xs generalizing p with
  | nil => rfl
  | cons x xs ih => exact ih (.node x)

theorem lastPlace_mem (p : Place) (xs : List Nat) :
    lastPlace p xs = p ∨ ∃ id ∈ xs, lastPlace p xs = .node id := by
  induction xs generalizing p with
  | nil => exact Or.inl rfl
  | cons x xs ih =>
    right
    rcases ih (.node x) with h | ⟨id, hid, h⟩
    · exact ⟨x, List.mem_cons_self, h⟩
    · exact ⟨id, List.mem_cons_of_mem x hid, h⟩

theorem lastPlace_ne_start {x : Nat} {xs : List Nat} (h : ∀ id ∈ x :: xs, p ≠ .node id) :
    lastPlace p (x :: xs) ≠ p := by
  show lastPlace (.node x) xs ≠ p
  intro he
  rcases lastPlace_mem (.node x) xs with h' | ⟨id, hid, h'⟩
  · exact h x List.mem_cons_self (he.symm.trans h')
  · exact h id (List.mem_cons_of_mem x hid) (he.symm.trans h')

theorem exists_lastPlace_filter (q : Nat → Bool) (p : Place) (ids : List Nat) :
    ∃ xs ys, ids = xs ++ ys ∧ lastPlace p xs = lastPlace p (ids.filter q) := by
  induction ids generalizing p with
  | nil => exact ⟨[], [], rfl, rfl⟩
  | cons a ids ih =>
    by_cases ha : q a = true
    · obtain ⟨xs, ys, hsplit, hlast⟩ := ih (.node a)
      refine ⟨a :: xs, ys, by rw [hsplit]; rfl, ?_⟩
      rw [List.filter_cons_of_pos ha]
      exact hlast
    · obtain ⟨xs, ys, hsplit, hlast⟩ := ih p
      rw [List.filter_cons_of_neg ha]
      cases xs with
      | nil => exact ⟨[], a :: ids, rfl, hlast⟩
      | cons x xs => exact ⟨a :: x :: xs, ys, by rw [hsplit]; rfl, hlast⟩

section Path

variable {l l' : SkipList κ α} {i : Nat} {p : Place}

variable {xs ys ids : List Nat}

theorem Path.drop (h : l.Path i p (xs ++ ys)) : l.Path i (lastPlace p xs) ys := by
  induction xs generalizing p with
  | nil => exact h
  | cons x xs ih => exact ih h.2

theorem Path.next_eq (h : l.Path i p ys) : l.next p i = ys.head? := by
  cases ys with
  | nil => exact h
  | cons y ys => exact h.1

theorem Path.congr (h : l.Path i p ids) (hp : l'.next p i = l.next p i)
    (hids : ∀ id ∈ ids, l'.next (.node id) i = l.next (.node id) i) : l'.Path i p ids := by
  induction ids generalizing p with
  | nil => exact hp.trans h
  | cons x xs ih =>
    exact ⟨hp.trans h.1, ih h.2 (hids x List.mem_cons_self)
      fun id hid => hids id (List.mem_cons_of_mem x hid)⟩

theorem Path.splice {id : Nat} (h : l.Path i p (xs ++ ys)) (hnodup : (xs ++ ys).Nodup)
    (hstart : ∀ x ∈ xs ++ ys, p ≠ .node x) (hnew : id ∉ xs ++ ys) (hpid : p ≠ .node id)
    (hlast : l'.next (lastPlace p xs) i = some id)
    (hid : l'.next (.node id) i = l.next (lastPlace p xs) i)
    (hsame : ∀ q, q ≠ lastPlace p xs → q ≠ .node id → l'.next q i = l.next q i) :
    l'.Path i p (xs ++ id :: ys) := by
  induction xs generalizing p with
  | nil =>
    refine ⟨hlast, ?_⟩
    cases ys with
    | nil => exact hid.trans h
    | cons y ys =>
      have hother : ∀ z ∈ y :: ys, l'.next (.node z) i = l.next (.node z) i := by
        intro z hz
        refine hsame _ (fun he => hstart z hz he.symm) fun he => ?_
        cases he
        exact hnew hz
      exact ⟨hid.trans h.1, h.2.congr (hother y List.mem_cons_self)
        fun z hz => hother z (List.mem_cons_of_mem y hz)⟩
  | cons x xs ih =>
    obtain ⟨hx, hrest⟩ := List.nodup_cons.mp hnodup
    refine ⟨?_, ih h.2 hrest ?_ (fun hm => hnew (List.mem_cons_of_mem x hm)) ?_ hlast hid hsame⟩
    · rw [hsame p _ hpid, h.1]
      exact (lastPlace_ne_start fun z hz => hstart z (List.mem_append_left ys hz)).symm
    · intro z hz he
      cases he
      exact hx hz
    · intro he
      cases he
      exact hnew List.mem_cons_self

theorem follow_path (h : l.Path i p ids) {fuel : Nat} (hfuel : ids.length ≤ fuel) :
    l.follow i fuel (l.next p i) = ids := by
  induction ids generalizing p fuel with
  | nil =>
    rw [show l.next p i = none from h]
    cases fuel <;> rfl
  | cons id ids ih =>
    cases fuel with
    | zero => simp at hfuel
    | succ fuel =>
      rw [h.1, follow, ih h.2 (by simpa using hfuel)]

end Path

/-! ## The invariant -/

section Invariant

variable [LinearOrder κ] {maxLevel : Nat} {l : SkipList κ α} {order : List Nat} {key : κ}

/-- `order` lists all nodes by key, and every level links those that reach it. -/
structure Inv (maxLevel : Nat) (l : SkipList κ α) (order : List Nat) : Prop where
  head : l.head.length = maxLevel
  level_pos : 1 ≤ l.level
  level_le : l.level ≤ maxLevel
  perm : order.Perm (List.range l.nodes.length)
  sorted : order.Pairwise fun a b => ∀ x ∈ l.info a, ∀ y ∈ l.info b, x.1 < y.1
  heights : ∀ id < l.nodes.length, 1 ≤ l.height id ∧ l.height id ≤ l.level
  paths : ∀ i < maxLevel, l.Path i .head (order.filter fun id => i < l.height id)
  size : l.size = l.nodes.length

theorem inv_empty (h : 1 ≤ maxLevel) : Inv maxLevel (empty maxLevel : SkipList κ α) [] where
  head := List.length_replicate
  level_pos := Nat.le_refl 1
  level_le := h
  perm := List.Perm.nil
  sorted := List.Pairwise.nil
  heights id hid := by simp [empty] at hid
  paths i hi := by
    show ((List.replicate maxLevel none)[i]?).join = none
    simp [hi]
  size := rfl

def contents (l : SkipList κ α) (order : List Nat) : List (κ × α) :=
  order.filterMap fun id => (l.info id).map fun n => (n.1, n.2.1)

variable {id b newLevel : Nat} {n : κ × α × Nat} {ids : List Nat}

theorem Inv.mem_order (h : Inv maxLevel l order) : id ∈ order ↔ id < l.nodes.length := by
  rw [h.perm.mem_iff, List.mem_range]

omit [LinearOrder κ] in
theorem exists_info (h : id < l.nodes.length) : ∃ n, l.info id = some n :=
  ⟨_, by rw [info, List.getElem?_eq_getElem h]; rfl⟩

theorem isBefore_iff (h : l.info id = some n) : l.isBefore key id = true ↔ n.1 < key := by
  obtain ⟨m, hm, rfl⟩ := Option.map_eq_some_iff.mp h
  simp [isBefore, hm]

theorem isAt_iff (h : l.info id = some n) : l.isAt key id = true ↔ n.1 = key := by
  obtain ⟨m, hm, rfl⟩ := Option.map_eq_some_iff.mp h
  simp [isAt, hm]

theorem Inv.isBefore_of_later (h : Inv maxLevel l order) {a : Nat} (ha : a ∈ order) (hb : b ∈ order)
    (hlt : ∀ x ∈ l.info a, ∀ y ∈ l.info b, x.1 < y.1) (hbefore : l.isBefore key b = true) :
    l.isBefore key a = true := by
  obtain ⟨x, hx⟩ := exists_info (h.mem_order.mp ha)
  obtain ⟨y, hy⟩ := exists_info (h.mem_order.mp hb)
  exact (isBefore_iff hx).mpr ((hlt x hx y hy).trans ((isBefore_iff hy).mp hbefore))

theorem Inv.not_before (h : Inv maxLevel l order) (hb : b ∈ order.dropWhile (l.isBefore key)) :
    l.isBefore key b = false := by
  have hall : ∀ ids : List Nat, ids.Sublist order → b ∈ ids.dropWhile (l.isBefore key) →
      l.isBefore key b = false := by
    intro ids
    induction ids with
    | nil =>
      intro _ hm
      cases hm
    | cons a ids ih =>
      intro hsub hm
      by_cases ha : l.isBefore key a = true
      · rw [List.dropWhile_cons_of_pos ha] at hm
        exact ih ((List.sublist_cons_self a ids).trans hsub) hm
      · rw [List.dropWhile_cons_of_neg ha] at hm
        by_contra hbefore
        have hbefore : l.isBefore key b = true := by simpa using hbefore
        rcases List.mem_cons.mp hm with rfl | hm
        · exact ha hbefore
        · have hlt := (List.pairwise_cons.mp (h.sorted.sublist hsub)).1 b hm
          exact ha (h.isBefore_of_later (hsub.subset List.mem_cons_self)
            (hsub.subset (List.mem_cons_of_mem a hm)) hlt hbefore)
  exact hall order (List.Sublist.refl _) hb

/-! ## Searching -/

theorem walk_eq {i : Nat} {p : Place} {xs ys : List Nat} (h : l.Path i p (xs ++ ys))
    (hxs : ∀ x ∈ xs, l.isBefore key x = true) (hys : ∀ y ∈ ys, l.isBefore key y = false)
    {fuel : Nat} (hfuel : xs.length < fuel) : l.walk key i fuel p = lastPlace p xs := by
  induction xs generalizing p fuel with
  | nil =>
    cases fuel with
    | zero => omega
    | succ fuel =>
      rw [walk, Path.next_eq (show l.Path i p ys from h)]
      cases ys with
      | nil => rfl
      | cons y ys =>
        simp only [List.head?_cons, hys y List.mem_cons_self]
        rfl
  | cons x xs ih =>
    cases fuel with
    | zero => omega
    | succ fuel =>
      rw [walk, h.1]
      simp only [hxs x List.mem_cons_self, if_true]
      exact ih h.2 (fun z hz => hxs z (List.mem_cons_of_mem x hz)) (by simpa using hfuel)

/-- The place on level `i` behind which a key belongs. -/
def predecessor (l : SkipList κ α) (order : List Nat) (key : κ) (i : Nat) : Place :=
  lastPlace .head ((order.takeWhile (l.isBefore key)).filter fun id => i < l.height id)

theorem Inv.filter_split (l : SkipList κ α) (order : List Nat) (key : κ) (q : Nat → Bool) :
    order.filter q =
      (order.takeWhile (l.isBefore key)).filter q ++ (order.dropWhile (l.isBefore key)).filter q := by
  rw [← List.filter_append, List.takeWhile_append_dropWhile]

section

variable (h : Inv maxLevel l order)

include h

theorem Inv.length_le : order.length = l.nodes.length := by
  rw [h.perm.length_eq, List.length_range]

/-- One level of the descent: from where level `i + 1` was left to where level `i` is. -/
theorem Inv.walk_predecessor (key : κ) {i : Nat} (hi : i < maxLevel) :
    l.walk key i (l.nodes.length + 1) (l.predecessor order key (i + 1)) =
      l.predecessor order key i := by
  have hpath := h.paths i hi
  rw [Inv.filter_split l order key] at hpath
  have hbefore : ∀ x ∈ (order.takeWhile (l.isBefore key)).filter fun id => i < l.height id,
      l.isBefore key x = true := fun x hx => List.mem_takeWhile_imp (List.mem_of_mem_filter hx)
  have hafter : ∀ y ∈ (order.dropWhile (l.isBefore key)).filter fun id => i < l.height id,
      l.isBefore key y = false := fun y hy => h.not_before (List.mem_of_mem_filter hy)
  have hhigher : (order.takeWhile (l.isBefore key)).filter (fun id => decide (i + 1 < l.height id)) =
      ((order.takeWhile (l.isBefore key)).filter fun id => decide (i < l.height id)).filter
        fun id => decide (i + 1 < l.height id) := by
    rw [List.filter_filter]
    apply List.filter_congr
    intro id _
    by_cases hlt : i + 1 < l.height id
    · simp [hlt, Nat.lt_of_succ_lt hlt]
    · simp [hlt]
  have hlen : ((order.takeWhile (l.isBefore key)).filter fun id => decide (i < l.height id)).length ≤
      l.nodes.length := by
    rw [← h.length_le]
    exact (List.filter_sublist.trans (List.takeWhile_sublist _)).length_le
  rw [predecessor, predecessor, hhigher]
  generalize (order.takeWhile (l.isBefore key)).filter (fun id => decide (i < l.height id)) = ids
    at hpath hbefore hlen
  obtain ⟨xs, ys, rfl, hlast⟩ := exists_lastPlace_filter (fun id => decide (i + 1 < l.height id))
    .head ids
  rw [← hlast, lastPlace_append]
  rw [List.append_assoc] at hpath
  refine walk_eq hpath.drop (fun y hy => hbefore y (List.mem_append_right xs hy)) hafter ?_
  rw [List.length_append] at hlen
  omega

theorem Inv.descend_eq (key : κ) {j : Nat} (hj : j ≤ maxLevel) :
    l.descend key j (l.predecessor order key j) =
      ((List.range j).map (l.predecessor order key), l.predecessor order key 0) := by
  induction j with
  | zero => rfl
  | succ j ih =>
    rw [descend]
    dsimp only
    rw [h.walk_predecessor key (by omega), ih (by omega), List.range_succ, List.map_append,
      List.map_singleton]

theorem Inv.predecessor_top (key : κ) {i : Nat} (hi : l.level ≤ i) :
    l.predecessor order key i = .head := by
  have hnil : (order.takeWhile (l.isBefore key)).filter (fun id => decide (i < l.height id)) = [] := by
    rw [List.filter_eq_nil_iff]
    intro id hid
    have hmem := h.mem_order.mp ((List.takeWhile_sublist _).subset hid)
    have := (h.heights id hmem).2
    simp only [decide_eq_true_eq]
    omega
  rw [predecessor, hnil]
  rfl

theorem Inv.filter_all (hsub : ids.Sublist order) :
    (ids.filter fun id => 0 < l.height id) = ids := by
  rw [List.filter_eq_self]
  intro id hid
  have := (h.heights id (h.mem_order.mp (hsub.subset hid))).1
  simp only [decide_eq_true_eq]
  omega

/-- A search leaves every level at the predecessor of the key and finds the first node
from the key on. -/
theorem Inv.findGreaterOrEqual_eq (key : κ) : l.findGreaterOrEqual key =
      ((List.range l.level).map (l.predecessor order key),
        (order.dropWhile (l.isBefore key)).head?) := by
  have hdescend := h.descend_eq key h.level_le
  rw [h.predecessor_top key (Nat.le_refl _)] at hdescend
  have hpath := h.paths 0 (by have := h.level_pos; have := h.level_le; omega)
  rw [Inv.filter_split l order key] at hpath
  have hnext := hpath.drop.next_eq
  rw [h.filter_all (List.dropWhile_sublist _)] at hnext
  rw [findGreaterOrEqual, hdescend]
  dsimp only
  rw [predecessor, hnext]

end

/-! ## Inserting -/

def grown (l : SkipList κ α) (key : κ) (value : α) (newLevel : Nat) : SkipList κ α :=
  { l with
    level := max l.level newLevel
    size := l.size + 1
    nodes := l.nodes ++ [⟨key, value, List.replicate newLevel none⟩] }

omit [LinearOrder κ] in
theorem info_grown (l : SkipList κ α) (key : κ) (value : α) (newLevel id : Nat) :
    (l.grown key value newLevel).info id =
      if id = l.nodes.length then some (key, value, newLevel) else l.info id := by
  simp only [info, grown]
  rcases Nat.lt_trichotomy id l.nodes.length with hlt | rfl | hgt
  · rw [List.getElem?_append_left hlt, if_neg (Nat.ne_of_lt hlt)]
  · simp
  · rw [List.getElem?_eq_none (by simp; omega), if_neg (Nat.ne_of_gt hgt),
      List.getElem?_eq_none (by omega)]

omit [LinearOrder κ] in
theorem next_grown (l : SkipList κ α) (key : κ) (value : α) (newLevel : Nat) (p : Place) (i : Nat) :
    (l.grown key value newLevel).next p i = l.next p i := by
  cases p with
  | head => rfl
  | node id =>
    simp only [next, grown]
    rcases Nat.lt_trichotomy id l.nodes.length with hlt | rfl | hgt
    · rw [List.getElem?_append_left hlt]
    · rw [List.getElem?_append_right (Nat.le_refl _)]
      by_cases hi : i < newLevel
      · simp [hi]
      · simp [hi]
    · rw [List.getElem?_eq_none (by simp; omega), List.getElem?_eq_none (by omega)]

omit [LinearOrder κ] in
/-- What a row of splices does: on every level below `m` the new node stands behind the
place given for that level. -/
theorem next_splices (g : SkipList κ α) {places : Nat → Place} (hid : g.height id = newLevel)
    (hslots : ∀ i < newLevel, i < g.slots (places i)) {m : Nat} (hm : m ≤ newLevel) :
    (∀ x, ((List.range m).foldl (fun l' i => splice id (places i) i l') g).info x = g.info x) ∧
    (∀ q, ((List.range m).foldl (fun l' i => splice id (places i) i l') g).slots q = g.slots q) ∧
    ((List.range m).foldl (fun l' i => splice id (places i) i l') g).level = g.level ∧
    ((List.range m).foldl (fun l' i => splice id (places i) i l') g).size = g.size ∧
    ((List.range m).foldl (fun l' i => splice id (places i) i l') g).nodes.length =
      g.nodes.length ∧
    ∀ q j, ((List.range m).foldl (fun l' i => splice id (places i) i l') g).next q j =
      if j < m then
        if q = places j then some id
        else if q = .node id then g.next (places j) j else g.next q j
      else g.next q j := by
  induction m with
  | zero => exact ⟨fun _ => rfl, fun _ => rfl, rfl, rfl, rfl, fun q j => rfl⟩
  | succ m ih =>
    obtain ⟨hinfo, hslot, hlevel, hsize, hlen, hnext⟩ := ih (by omega)
    rw [List.range_succ, List.foldl_append]
    generalize (List.range m).foldl (fun l' i => splice id (places i) i l') g = g'
      at hinfo hslot hlevel hsize hlen hnext
    simp only [List.foldl_cons, List.foldl_nil]
    have hfields : ∀ (l : SkipList κ α) p i t, (l.setNext p i t).level = l.level ∧
        (l.setNext p i t).size = l.size ∧
        (l.setNext p i t).nodes.length = l.nodes.length := by
      intro l p i t
      cases p with
      | head => exact ⟨rfl, rfl, rfl⟩
      | node id => exact ⟨rfl, rfl, by simp [setNext]⟩
    refine ⟨?_, ?_, ?_, ?_, ?_, ?_⟩
    · intro x
      rw [splice, info_setNext, info_setNext, hinfo]
    · intro q
      rw [splice, slots_setNext, slots_setNext, hslot]
    · rw [splice, (hfields _ _ _ _).1, (hfields _ _ _ _).1, hlevel]
    · rw [splice, (hfields _ _ _ _).2.1, (hfields _ _ _ _).2.1, hsize]
    · rw [splice, (hfields _ _ _ _).2.2, (hfields _ _ _ _).2.2, hlen]
    · intro q j
      have hid' : m < g'.height id := by
        rw [height, hinfo, ← height, hid]
        omega
      have hslot' : m < g'.slots (places m) := by
        rw [hslot]
        exact hslots m (by omega)
      rw [next_splice g' hid' hslot', hnext, hnext]
      by_cases hj : j = m
      · subst hj
        simp
      · have hiff : j < m + 1 ↔ j < m := by omega
        simp only [hj, if_false, hiff]

theorem Inv.prev_getD (h : Inv maxLevel l order) (key : κ) {i : Nat} (hi : i < newLevel) :
    ((List.range l.level).map (l.predecessor order key) ++
      List.replicate (newLevel - l.level) Place.head).getD i .head =
        l.predecessor order key i := by
  rw [List.getD_eq_getElem?_getD]
  by_cases hlt : i < l.level
  · rw [List.getElem?_append_left (by simpa using hlt)]
    simp [hlt]
  · rw [List.getElem?_append_right (by simpa using hlt), h.predecessor_top key (by omega)]
    have hin : i - l.level < newLevel - l.level := by omega
    simp [hin]

theorem Inv.link_eq (h : Inv maxLevel l order) (key : κ) (value : α) (newLevel : Nat) :
    l.link ((List.range l.level).map (l.predecessor order key)) key value newLevel =
      (List.range newLevel).foldl
        (fun l' i => splice l.nodes.length (l.predecessor order key i) i l')
        (l.grown key value newLevel) := by
  rw [link]
  have hcongr : ∀ (is : List Nat) (g : SkipList κ α), (∀ i ∈ is, i < newLevel) →
      is.foldl (fun l' i => splice l.nodes.length
        (((List.range l.level).map (l.predecessor order key) ++
          List.replicate (newLevel - l.level) Place.head).getD i .head) i l') g =
      is.foldl (fun l' i => splice l.nodes.length (l.predecessor order key i) i l') g := by
    intro is
    induction is with
    | nil => exact fun g _ => rfl
    | cons i is ih =>
      intro g hin
      rw [List.foldl_cons, List.foldl_cons, h.prev_getD key (hin i List.mem_cons_self)]
      exact ih _ fun j hj => hin j (List.mem_cons_of_mem i hj)
  exact hcongr _ _ fun i hi => List.mem_range.mp hi

theorem Inv.predecessor_cases (h : Inv maxLevel l order) (key : κ) (i : Nat) :
    l.predecessor order key i = .head ∨
      ∃ id, id < l.nodes.length ∧ i < l.height id ∧ l.predecessor order key i = .node id := by
  rcases lastPlace_mem .head
    ((order.takeWhile (l.isBefore key)).filter fun id => decide (i < l.height id)) with
      he | ⟨id, hid, he⟩
  · exact Or.inl he
  · obtain ⟨hmem, hlt⟩ := List.mem_filter.mp hid
    exact Or.inr ⟨id, h.mem_order.mp ((List.takeWhile_sublist _).subset hmem), by simpa using hlt, he⟩

/-- A key that is not there yet gets a node of its own between the smaller and the
greater ones, on as many levels as it was given. -/
theorem Inv.link (h : Inv maxLevel l order) {key : κ} (value : α) (hpos : 1 ≤ newLevel)
    (hle : newLevel ≤ maxLevel) (hnew : ∀ id ∈ order, l.isAt key id = false) :
    Inv maxLevel (l.link ((List.range l.level).map (l.predecessor order key)) key value newLevel)
        (order.takeWhile (l.isBefore key) ++
          l.nodes.length :: order.dropWhile (l.isBefore key)) ∧
      ∀ id, (l.link ((List.range l.level).map (l.predecessor order key)) key value newLevel).info
        id = if id = l.nodes.length then some (key, value, newLevel) else l.info id := by
  rw [h.link_eq]
  have hgrown : (l.grown key value newLevel).height l.nodes.length = newLevel := by
    rw [height, info_grown, if_pos rfl]
    rfl
  have hold : ∀ id, id < l.nodes.length →
      (l.grown key value newLevel).height id = l.height id := by
    intro id hid
    rw [height, info_grown, if_neg (Nat.ne_of_lt hid), height]
  have hslots : ∀ i < newLevel,
      i < (l.grown key value newLevel).slots (l.predecessor order key i) := by
    intro i hi
    rcases h.predecessor_cases key i with he | ⟨id, hid, hlt, he⟩
    · rw [he]
      show i < l.head.length
      rw [h.head]
      omega
    · rw [he]
      show i < (l.grown key value newLevel).height id
      rw [hold id hid]
      exact hlt
  have hne : ∀ i < newLevel, l.predecessor order key i ≠ .node l.nodes.length := by
    intro i _ heq
    rcases h.predecessor_cases key i with he | ⟨id, hid, _, he⟩
    · rw [he] at heq
      cases heq
    · rw [he] at heq
      cases heq
      exact absurd hid (Nat.lt_irrefl _)
  obtain ⟨hinfo, hslot, hlevel, hsize, hlen, hnext⟩ :=
    next_splices (l.grown key value newLevel) hgrown hslots (Nat.le_refl newLevel)
  generalize (List.range newLevel).foldl
    (fun l' i => splice l.nodes.length (l.predecessor order key i) i l')
    (l.grown key value newLevel) = l' at hinfo hslot hlevel hsize hlen hnext
  have hinfo' : ∀ id, l'.info id =
      if id = l.nodes.length then some (key, value, newLevel) else l.info id := by
    intro id
    rw [hinfo, info_grown]
  have hheight : ∀ id, l'.height id = if id = l.nodes.length then newLevel else l.height id := by
    intro id
    rw [height, hinfo']
    split
    · rfl
    · rfl
  have hlen' : l'.nodes.length = l.nodes.length + 1 := by
    rw [hlen]
    simp [grown]
  have hlevel' : l'.level = max l.level newLevel := hlevel
  have hnotMem : l.nodes.length ∉ order := fun hm =>
    absurd (h.mem_order.mp hm) (Nat.lt_irrefl _)
  have hsplit := List.takeWhile_append_dropWhile (p := l.isBefore key) (l := order)
  have hmemA : ∀ {id}, id ∈ order.takeWhile (l.isBefore key) → id ∈ order :=
    fun hm => (List.takeWhile_sublist _).subset hm
  have hmemB : ∀ {id}, id ∈ order.dropWhile (l.isBefore key) → id ∈ order :=
    fun hm => (List.dropWhile_sublist _).subset hm
  have hneA : ∀ {id}, id ∈ order → id ≠ l.nodes.length := by
    rintro id hm rfl
    exact hnotMem hm
  refine ⟨⟨?_, ?_, ?_, ?_, ?_, ?_, ?_, ?_⟩, hinfo'⟩
  · exact (hslot .head).trans h.head
  · rw [hlevel']
    exact h.level_pos.trans (le_max_left _ _)
  · rw [hlevel']
    exact max_le h.level_le hle
  · rw [hlen', List.range_succ]
    refine List.perm_middle.trans ?_
    rw [hsplit]
    exact (List.Perm.cons _ h.perm).trans (List.perm_append_singleton _ _).symm
  · -- the new key lies between the two parts
    have hkeep : ∀ {a b : Nat}, a ∈ order → b ∈ order →
        (∀ x ∈ l.info a, ∀ y ∈ l.info b, x.1 < y.1) → ∀ x ∈ l'.info a, ∀ y ∈ l'.info b, x.1 < y.1 := by
      intro a b ha hb hab x hx y hy
      rw [hinfo', if_neg (hneA ha)] at hx
      rw [hinfo', if_neg (hneA hb)] at hy
      exact hab x hx y hy
    have hs := h.sorted
    rw [← hsplit, List.pairwise_append] at hs
    obtain ⟨hsA, hsB, hsAB⟩ := hs
    have hbelow : ∀ a ∈ order.takeWhile (l.isBefore key), ∀ x ∈ l'.info a, x.1 < key := by
      intro a ha x hx
      rw [hinfo', if_neg (hneA (hmemA ha))] at hx
      exact (isBefore_iff hx).mp (List.mem_takeWhile_imp ha)
    have habove : ∀ b ∈ order.dropWhile (l.isBefore key), ∀ y ∈ l'.info b, key < y.1 := by
      intro b hb y hy
      rw [hinfo', if_neg (hneA (hmemB hb))] at hy
      have hnb : ¬ y.1 < key := by
        rw [← isBefore_iff hy, h.not_before hb]
        simp
      have hna : ¬ y.1 = key := by
        rw [← isAt_iff hy, hnew b (hmemB hb)]
        simp
      exact lt_of_le_of_ne (not_lt.mp hnb) (Ne.symm hna)
    have hself : ∀ x ∈ l'.info l.nodes.length, x.1 = key := by
      intro x hx
      rw [hinfo', if_pos rfl] at hx
      cases hx
      rfl
    rw [List.pairwise_append, List.pairwise_cons]
    refine ⟨hsA.imp_of_mem fun ha hb hab => hkeep (hmemA ha) (hmemA hb) hab, ⟨?_, ?_⟩, ?_⟩
    · intro b hb x hx y hy
      rw [hself x hx]
      exact habove b hb y hy
    · exact hsB.imp_of_mem fun ha hb hab => hkeep (hmemB ha) (hmemB hb) hab
    · intro a ha b hb x hx y hy
      rcases List.mem_cons.mp hb with rfl | hb
      · rw [hself y hy]
        exact hbelow a ha x hx
      · exact hkeep (hmemA ha) (hmemB hb) (hsAB a ha b hb) x hx y hy
  · intro id hid
    rw [hheight, hlevel']
    split
    · exact ⟨hpos, le_max_right _ _⟩
    · rename_i hidne
      have hold' := h.heights id (by omega)
      exact ⟨hold'.1, hold'.2.trans (le_max_left _ _)⟩
  · intro i hi
    have hfilter : ∀ ids : List Nat, (∀ id ∈ ids, id ∈ order) →
        (ids.filter fun id => decide (i < l'.height id)) =
          ids.filter fun id => decide (i < l.height id) := by
      intro ids hin
      apply List.filter_congr
      intro id hid
      rw [hheight, if_neg (hneA (hin id hid))]
    have hpath := h.paths i hi
    rw [Inv.filter_split l order key] at hpath
    have hnodup : (order.filter fun id => decide (i < l.height id)).Nodup :=
      (h.perm.nodup_iff.mpr List.nodup_range).filter _
    rw [Inv.filter_split l order key] at hnodup
    have hnotIn : l.nodes.length ∉
        (order.takeWhile (l.isBefore key)).filter (fun id => decide (i < l.height id)) ++
          (order.dropWhile (l.isBefore key)).filter fun id => decide (i < l.height id) := by
      rw [← Inv.filter_split l order key]
      exact fun hm => hnotMem (List.mem_of_mem_filter hm)
    rw [List.filter_append, List.filter_cons, hfilter _ fun id hm => hmemA hm,
      hfilter _ fun id hm => hmemB hm, hheight, if_pos rfl]
    by_cases hlt : i < newLevel
    · rw [if_pos (by simpa using hlt)]
      refine hpath.splice hnodup (fun x _ => by simp) hnotIn (by simp) ?_ ?_ ?_
      · rw [hnext, if_pos hlt]
        exact if_pos rfl
      · rw [hnext, if_pos hlt, if_neg (Ne.symm (hne i hlt)), if_pos rfl, next_grown]
        rfl
      · intro q hq hqid
        have hq' : q ≠ l.predecessor order key i := hq
        rw [hnext, if_pos hlt, if_neg hq', if_neg hqid, next_grown]
    · rw [if_neg (by simpa using hlt)]
      have hsame : ∀ q, l'.next q i = l.next q i := by
        intro q
        rw [hnext, if_neg hlt, next_grown]
      exact hpath.congr (hsame _) fun id _ => hsame _
  · have hsize' : l'.size = l.size + 1 := hsize
    rw [hsize', hlen', h.size]

/-! ## Overwriting -/

omit [LinearOrder κ] in
theorem info_overwrite (l : SkipList κ α) (id : Nat) (value : α) (x : Nat) :
    (l.overwrite id value).info x =
      if x = id then (l.info x).map fun n => (n.1, value, n.2.2) else l.info x := by
  simp only [info, overwrite, List.getElem?_modify]
  by_cases h : x = id
  · subst h
    cases l.nodes[x]? <;> simp
  · cases l.nodes[x]? <;> simp [h, Ne.symm h]

omit [LinearOrder κ] in
theorem next_overwrite (l : SkipList κ α) (id : Nat) (value : α) (p : Place) (i : Nat) :
    (l.overwrite id value).next p i = l.next p i := by
  cases p with
  | head => rfl
  | node x =>
    simp only [next, overwrite, List.getElem?_modify]
    cases l.nodes[x]? with
    | none => rfl
    | some n =>
      by_cases h : id = x
      · simp [h]
      · simp [h]

omit [LinearOrder κ] in
theorem height_overwrite (l : SkipList κ α) (id : Nat) (value : α) (x : Nat) :
    (l.overwrite id value).height x = l.height x := by
  rw [height, info_overwrite, height]
  split
  · rw [Option.map_map]
    rfl
  · rfl

theorem Inv.overwrite (h : Inv maxLevel l order) (id : Nat) (value : α) :
    Inv maxLevel (l.overwrite id value) order := by
  have hlen : (l.overwrite id value).nodes.length = l.nodes.length := by
    simp [SkipList.overwrite]
  have hkey : ∀ {a x}, x ∈ (l.overwrite id value).info a → ∃ y ∈ l.info a, y.1 = x.1 := by
    intro a x hx
    rw [info_overwrite] at hx
    split at hx
    · obtain ⟨y, hy, rfl⟩ := Option.map_eq_some_iff.mp hx
      exact ⟨y, hy, rfl⟩
    · exact ⟨x, hx, rfl⟩
  refine ⟨h.head, h.level_pos, h.level_le, ?_, ?_, ?_, ?_, ?_⟩
  · rw [hlen]
    exact h.perm
  · refine h.sorted.imp ?_
    intro a b hab x hx y hy
    obtain ⟨x', hx', hxe⟩ := hkey hx
    obtain ⟨y', hy', hye⟩ := hkey hy
    rw [← hxe, ← hye]
    exact hab x' hx' y' hy'
  · intro x hx
    rw [height_overwrite]
    exact h.heights x (hlen ▸ hx)
  · intro i hi
    have hsame : (order.filter fun x => decide (i < (l.overwrite id value).height x)) =
        order.filter fun x => decide (i < l.height x) :=
      List.filter_congr fun x _ => by rw [height_overwrite]
    rw [hsame]
    exact (h.paths i hi).congr (next_overwrite l id value _ i) fun x _ =>
      next_overwrite l id value _ i
  · rw [hlen]
    exact h.size

/-! ## The contents -/

omit [LinearOrder κ] in
theorem contents_append (l : SkipList κ α) (xs ys : List Nat) :
    l.contents (xs ++ ys) = l.contents xs ++ l.contents ys := List.filterMap_append

omit [LinearOrder κ] in
theorem mem_contents {x : κ × α} :
    x ∈ l.contents ids ↔ ∃ id ∈ ids, ∃ n, l.info id = some n ∧ (n.1, n.2.1) = x := by
  simp only [contents, List.mem_filterMap, Option.map_eq_some_iff]

omit [LinearOrder κ] in
theorem contents_congr {l' : SkipList κ α} (h : ∀ id ∈ ids, l'.info id = l.info id) :
    l'.contents ids = l.contents ids :=
  List.filterMap_congr fun id hid => by rw [h id hid]

omit [LinearOrder κ] in
theorem contents_cons (h : l.info id = some n) (ids : List Nat) :
    l.contents (id :: ids) = (n.1, n.2.1) :: l.contents ids := by
  simp [contents, h]

theorem Inv.contents_sorted (h : Inv maxLevel l order) :
    (l.contents order).Pairwise fun x y => x.1 < y.1 := by
  rw [contents, List.pairwise_filterMap]
  refine h.sorted.imp ?_
  intro a b hab x hx y hy
  obtain ⟨n, hn, rfl⟩ := Option.map_eq_some_iff.mp hx
  obtain ⟨m, hm, rfl⟩ := Option.map_eq_some_iff.mp hy
  exact hab n hn m hm

theorem Inv.length_contents (h : Inv maxLevel l order) : (l.contents order).length = l.size := by
  have hall : ∀ ids : List Nat, (∀ id ∈ ids, id < l.nodes.length) →
      (l.contents ids).length = ids.length := by
    intro ids
    induction ids with
    | nil => exact fun _ => rfl
    | cons id ids ih =>
      intro hin
      obtain ⟨n, hn⟩ := exists_info (hin id List.mem_cons_self)
      rw [contents_cons hn, List.length_cons, List.length_cons,
        ih fun x hx => hin x (List.mem_cons_of_mem id hx)]
  rw [hall order fun id hid => h.mem_order.mp hid, h.length_le, h.size]

theorem Inv.contents_before : ∀ x ∈ l.contents (order.takeWhile (l.isBefore key)), x.1 < key := by
  intro x hx
  obtain ⟨id, hid, n, hn, rfl⟩ := mem_contents.mp hx
  exact (isBefore_iff hn).mp (List.mem_takeWhile_imp hid)

theorem Inv.contents_from (h : Inv maxLevel l order) (key : κ) :
    ∀ x ∈ l.contents (order.dropWhile (l.isBefore key)), ¬ x.1 < key := by
  intro x hx
  obtain ⟨id, hid, n, hn, rfl⟩ := mem_contents.mp hx
  rw [← isBefore_iff hn, h.not_before hid]
  simp

theorem Inv.find_eq (h : Inv maxLevel l order) (key : κ) :
    ((l.findGreaterOrEqual key).2.bind fun id => (l.info id).map fun n => (n.1, n.2.1)) =
      (l.contents order).find? fun x => ¬ x.1 < key := by
  rw [h.findGreaterOrEqual_eq]
  have hbefore : (l.contents (order.takeWhile (l.isBefore key))).find? (fun x => ¬ x.1 < key) =
      none := by
    rw [List.find?_eq_none]
    intro x hx
    simpa using Inv.contents_before x hx
  conv_rhs => rw [← List.takeWhile_append_dropWhile (p := l.isBefore key) (l := order)]
  rw [contents_append, List.find?_append, hbefore, Option.none_or]
  have hfrom := h.contents_from key
  have hsub := List.dropWhile_sublist (l.isBefore key) (l := order)
  cases hB : order.dropWhile (l.isBefore key) with
  | nil => rfl
  | cons id B =>
    rw [hB] at hfrom hsub
    obtain ⟨n, hn⟩ := exists_info (h.mem_order.mp (hsub.subset List.mem_cons_self))
    rw [contents_cons hn] at hfrom ⊢
    have hle := hfrom _ List.mem_cons_self
    rw [List.find?_cons_of_pos (by simpa using hle)]
    simp [hn]

theorem filter_around {A B : List (κ × α)} (mid : List (κ × α)) (hA : ∀ x ∈ A, x.1 < key)
    (hmid : ∀ x ∈ mid, x.1 = key) (hB : ∀ x ∈ B, key < x.1) :
    (A ++ (mid ++ B)).filter (fun x => x.1 < key) = A ∧
      (A ++ (mid ++ B)).filter (fun x => key < x.1) = B := by
  have hmem : ∀ {p : κ × α → Bool} {xs : List (κ × α)}, (∀ x ∈ xs, p x = true) →
      xs.filter p = xs := fun h => List.filter_eq_self.mpr h
  have hnot : ∀ {p : κ × α → Bool} {xs : List (κ × α)}, (∀ x ∈ xs, ¬ p x = true) →
      xs.filter p = [] := fun h => List.filter_eq_nil_iff.mpr h
  constructor
  · rw [List.filter_append, List.filter_append, hmem fun x hx => by simpa using hA x hx,
      hnot fun x hx => by simp [hmid x hx], hnot fun x hx => by simpa using le_of_lt (hB x hx)]
    simp
  · rw [List.filter_append, List.filter_append, hnot fun x hx => by simpa using le_of_lt (hA x hx),
      hnot fun x hx => by simp [hmid x hx], hmem fun x hx => by simpa using hB x hx]
    simp

section

variable (h : Inv maxLevel l order)

include h

/-- An insertion keeps the invariant and puts the pair where its key belongs, in place
of an older one with that key. -/
theorem Inv.insert (key : κ) (value : α) (hpos : 1 ≤ newLevel) (hle : newLevel ≤ maxLevel) :
    ∃ order', Inv maxLevel (l.insert key value newLevel) order' ∧
      (l.insert key value newLevel).contents order' =
        ((l.contents order).filter fun x => x.1 < key) ++
          (key, value) :: (l.contents order).filter fun x => key < x.1 := by
  have hsplit : l.contents order = l.contents (order.takeWhile (l.isBefore key)) ++
      l.contents (order.dropWhile (l.isBefore key)) := by
    rw [← contents_append, List.takeWhile_append_dropWhile]
  have hA : ∀ x ∈ l.contents (order.takeWhile (l.isBefore key)), x.1 < key :=
    Inv.contents_before
  have hfrom := h.contents_from key
  have hsub := List.dropWhile_sublist (l.isBefore key) (l := order)
  have hsorted := h.contents_sorted
  -- no node has the key: a new one is linked
  have hlink : (∀ id ∈ order, l.isAt key id = false) →
      ∃ order', Inv maxLevel
          (l.link ((List.range l.level).map (l.predecessor order key)) key value newLevel) order' ∧
        (l.link ((List.range l.level).map (l.predecessor order key)) key value
          newLevel).contents order' = ((l.contents order).filter fun x => x.1 < key) ++
            (key, value) :: (l.contents order).filter fun x => key < x.1 := by
    intro hnew
    obtain ⟨hinv, hinfo⟩ := h.link value hpos hle hnew
    refine ⟨_, hinv, ?_⟩
    have hold : ∀ ids : List Nat, (∀ id ∈ ids, id ∈ order) →
        (l.link ((List.range l.level).map (l.predecessor order key)) key value
          newLevel).contents ids = l.contents ids := by
      intro ids hin
      refine contents_congr fun id hid => ?_
      rw [hinfo, if_neg (Nat.ne_of_lt (h.mem_order.mp (hin id hid)))]
    have hB : ∀ x ∈ l.contents (order.dropWhile (l.isBefore key)), key < x.1 := by
      intro x hx
      have hge := not_lt.mp (hfrom x hx)
      obtain ⟨id, hid, n, hn, rfl⟩ := mem_contents.mp hx
      have hne : ¬ n.1 = key := by
        rw [← isAt_iff hn, hnew id (hsub.subset hid)]
        simp
      exact lt_of_le_of_ne hge (Ne.symm hne)
    have hself : (l.link ((List.range l.level).map (l.predecessor order key)) key value
        newLevel).info l.nodes.length = some (key, value, newLevel) := by
      rw [hinfo, if_pos rfl]
    obtain ⟨hlow, hhigh⟩ := filter_around [] hA (by simp) hB
    rw [contents_append, contents_cons hself,
      hold _ fun id hid => (List.takeWhile_sublist _).subset hid,
      hold _ fun id hid => hsub.subset hid, hsplit]
    rw [List.nil_append] at hlow hhigh
    rw [hlow, hhigh]
  rw [SkipList.insert, h.findGreaterOrEqual_eq]
  cases hB : order.dropWhile (l.isBefore key) with
  | nil =>
    simp only [List.head?_nil]
    refine hlink fun id hid => ?_
    have hid' : id ∈ order.takeWhile (l.isBefore key) := by
      have := List.takeWhile_append_dropWhile (p := l.isBefore key) (l := order)
      rw [hB, List.append_nil] at this
      rw [this]
      exact hid
    obtain ⟨n, hn⟩ := exists_info (h.mem_order.mp hid)
    have hlt := (isBefore_iff hn).mp (List.mem_takeWhile_imp hid')
    rw [Bool.eq_false_iff, ne_eq, isAt_iff hn]
    exact ne_of_lt hlt
  | cons id B =>
    simp only [List.head?_cons]
    rw [hB] at hfrom hsub hsplit
    have hid : id ∈ order := hsub.subset List.mem_cons_self
    obtain ⟨n, hn⟩ := exists_info (h.mem_order.mp hid)
    rw [contents_cons hn] at hfrom hsplit
    rw [hsplit, List.pairwise_append, List.pairwise_cons] at hsorted
    have hafter : ∀ x ∈ l.contents B, n.1 < x.1 := fun x hx => hsorted.2.1.1 x hx
    by_cases hat : l.isAt key id = true
    · rw [if_pos hat]
      have hkey : n.1 = key := (isAt_iff hn).mp hat
      refine ⟨order, h.overwrite id value, ?_⟩
      have hsame : ∀ ids : List Nat, id ∉ ids →
          (l.overwrite id value).contents ids = l.contents ids := by
        intro ids hnot
        refine contents_congr fun x hx => ?_
        rw [info_overwrite, if_neg]
        rintro rfl
        exact hnot hx
      have hself : (l.overwrite id value).info id = some (n.1, value, n.2.2) := by
        rw [info_overwrite, if_pos rfl, hn]
        rfl
      have horder : order = order.takeWhile (l.isBefore key) ++ id :: B := by
        rw [← hB, List.takeWhile_append_dropWhile]
      have hnodup : (order.takeWhile (l.isBefore key) ++ id :: B).Nodup := by
        rw [← horder]
        exact h.perm.nodup_iff.mpr List.nodup_range
      rw [List.nodup_middle, List.nodup_cons, List.mem_append, not_or] at hnodup
      obtain ⟨hlow, hhigh⟩ := filter_around [(n.1, n.2.1)] hA
        (by simpa using hkey) fun x hx => hkey ▸ hafter x hx
      rw [List.singleton_append] at hlow hhigh
      conv_lhs => rw [horder]
      rw [contents_append, contents_cons hself, hsame _ hnodup.1.1, hsame _ hnodup.1.2, hsplit,
        hlow, hhigh, hkey]
    · rw [if_neg hat]
      refine hlink fun x hx => ?_
      obtain ⟨m, hm⟩ := exists_info (h.mem_order.mp hx)
      have hmem : (m.1, m.2.1) ∈ l.contents order := mem_contents.mpr ⟨x, hx, m, hm, rfl⟩
      have hne : n.1 ≠ key := fun he => hat ((isAt_iff hn).mpr he)
      have hlt : key < n.1 := lt_of_le_of_ne (not_lt.mp (hfrom _ List.mem_cons_self)) (Ne.symm hne)
      rw [Bool.eq_false_iff, ne_eq, isAt_iff hm]
      rw [hsplit, List.mem_append, List.mem_cons] at hmem
      rcases hmem with hmem | hmem | hmem
      · exact ne_of_lt (hA _ hmem)
      · rw [(Prod.mk.inj hmem).1]
        exact hne
      · exact ne_of_gt (hlt.trans (hafter _ hmem))

/-! ## The levels -/

theorem Inv.follow_eq {i fuel : Nat} (hi : i < maxLevel) (hfuel : l.nodes.length ≤ fuel) :
    l.follow i fuel (l.next .head i) = order.filter fun id => i < l.height id := by
  refine follow_path (h.paths i hi) ?_
  rw [← h.length_le] at hfuel
  exact List.filter_sublist.length_le.trans hfuel

theorem Inv.levelIds_eq {i : Nat} (hi : i < maxLevel) :
    l.levelIds i = order.filter fun id => i < l.height id := h.follow_eq hi (Nat.le_refl _)

theorem Inv.levelIds_zero : l.levelIds 0 = order := by
  rw [h.levelIds_eq (by have := h.level_pos; have := h.level_le; omega)]
  exact h.filter_all (List.Sublist.refl _)

theorem Inv.levelIds_sublist {i : Nat} (hi : i + 1 < maxLevel) :
    (l.levelIds (i + 1)).Sublist (l.levelIds i) := by
  rw [h.levelIds_eq hi, h.levelIds_eq (by omega)]
  refine List.monotone_filter_right order fun id hid => ?_
  simp only [decide_eq_true_eq] at hid ⊢
  omega

theorem Inv.level_sorted {i : Nat} (hi : i < maxLevel) :
    (l.contents (l.levelIds i)).Pairwise fun x y => x.1 < y.1 := by
  rw [h.levelIds_eq hi]
  exact h.contents_sorted.sublist (List.Sublist.filterMap _ List.filter_sublist)

end

end Invariant

end SkipList

end KvMem.SkipLists
