import Mathlib

/-! # Readers that may fail

A reader takes a value off the front of its input or reports an error. Readers are
written in the `Except` monad over the pair of the value and the rest.
-/

namespace KvMem.Parsing

variable {τ ε α β : Type}

def require (condition : Bool) (e : ε) : Except ε Unit := if condition then .ok () else .error e

def orFail (x : Except ε α) (e : ε) : Except ε α :=
  match x with
  | .ok a => .ok a
  | .error _ => .error e

/-- Read `count` items one after the other; the reader is told the index of its item. -/
def times (read : Nat → List τ → Except ε (α × List τ)) :
    Nat → Nat → List τ → Except ε (List α × List τ)
  | 0, _, input => .ok ([], input)
  | count + 1, index, input => do
      let (item, rest) ← read index input
      let (items, rest) ← times read count (index + 1) rest
      return (item :: items, rest)

def checkAll (check : Nat → α → Except ε Unit) : Nat → List α → Except ε Unit
  | _, [] => .ok ()
  | index, item :: items => do
      check index item
      checkAll check (index + 1) items

def emitAll (emit : α → Except ε (List τ)) : List α → Except ε (List τ)
  | [] => .ok []
  | item :: items => do
      let first ← emit item
      let rest ← emitAll emit items
      return first ++ rest

/-! ## What a successful reader has done -/

variable {f : α → Except ε β} {x : Except ε α} {condition : Bool} {e : ε} {u : Unit} {P : ε → Prop}
  {a : α} {items : List α} {emit : α → Except ε (List τ)} {check : Nat → α → Except ε Unit}

theorem bind_ok {b : β} : (x >>= f) = .ok b ↔ ∃ a, x = .ok a ∧ f a = .ok b := by
  cases x with
  | error e =>
    constructor
    · intro h
      cases h
    · rintro ⟨a, ha, _⟩
      cases ha
  | ok a =>
    constructor
    · intro h
      exact ⟨a, rfl, h⟩
    · rintro ⟨a', ha, h⟩
      cases ha
      exact h

theorem ok_bind (a : α) (f : α → Except ε β) : ((.ok a : Except ε α) >>= f) = f a := rfl

theorem require_of_true (h : condition = true) (e : ε) : require condition e = .ok () := by
  rw [require, if_pos h]

theorem require_ok (h : require condition e = .ok u) : condition = true := by
  unfold require at h
  split at h
  · assumption
  · cases h

def Fails (P : ε → Prop) (x : Except ε α) : Prop := ∀ e, x = .error e → P e

theorem fails_ok (a : α) : Fails P (.ok a : Except ε α) := fun e h => by cases h

theorem fails_error (h : P e) : Fails P (.error e : Except ε α) :=
  fun e' h' => by
    cases h'
    exact h

theorem fails_require (condition : Bool) (h : P e) : Fails P (require condition e) := by
  unfold require
  split
  · exact fails_ok ()
  · exact fails_error h

theorem Fails.bind (hx : Fails P x) (hf : ∀ a, Fails P (f a)) : Fails P (x >>= f) := by
  cases x with
  | error e => exact fails_error (hx e rfl)
  | ok a => exact hf a

theorem orFail_ok (h : orFail x e = .ok a) : x = .ok a := by
  unfold orFail at h
  split at h
  · cases h
    rfl
  · cases h

theorem times_ok {read : Nat → List τ → Except ε (α × List τ)} {P : Nat → α → Prop}
    (hread : ∀ i input a rest, read i input = .ok (a, rest) → P i a) (count index : Nat)
    (input : List τ) {rest : List τ} (h : times read count index input = .ok (items, rest)) :
    items.length = count ∧ ∀ j a, items[j]? = some a → P (index + j) a := by
  induction count generalizing index input items with
  | zero =>
    cases h
    exact ⟨rfl, by simp⟩
  | succ count ih =>
    rw [times, bind_ok] at h
    obtain ⟨⟨item, rest₁⟩, h₁, h⟩ := h
    rw [bind_ok] at h
    obtain ⟨⟨more, rest₂⟩, h₂, h⟩ := h
    cases h
    obtain ⟨hlen, hget⟩ := ih (index + 1) rest₁ h₂
    refine ⟨by simp [hlen], ?_⟩
    intro j a hj
    cases j with
    | zero =>
      have ha : item = a := by simpa using hj
      subst ha
      exact hread index input item rest₁ h₁
    | succ j =>
      have hrest := hget j a (by simpa using hj)
      rwa [Nat.add_assoc, Nat.add_comm 1 j] at hrest

def emitFrom (emit : Nat → α → List τ) : Nat → List α → List τ
  | _, [] => []
  | index, item :: items => emit index item ++ emitFrom emit (index + 1) items

theorem emitFrom_range (emit : Nat → α → List τ) (item : Nat → α) (index count : Nat) :
    emitFrom emit index ((List.range' index count).map item) =
      (List.range' index count).flatMap fun i => emit i (item i) := by
  induction count generalizing index with
  | zero => rfl
  | succ count ih =>
    rw [List.range'_succ, List.map_cons, emitFrom, ih, List.flatMap_cons]

theorem length_emitFrom_ge {emit : Nat → α → List τ} {size : Nat} (items : List α) (index : Nat)
    (h : ∀ i, ∀ a ∈ items, size ≤ (emit i a).length) :
    items.length * size ≤ (emitFrom emit index items).length := by
  induction items generalizing index with
  | nil => simp [emitFrom]
  | cons a items ih =>
    have hfirst := h index a List.mem_cons_self
    have hrest := ih (index + 1) fun i b hb => h i b (List.mem_cons_of_mem _ hb)
    rw [emitFrom, List.length_append, List.length_cons, Nat.succ_mul]
    omega

theorem emitAll_ok {bytes : α → List τ} (items : List α) (h : ∀ a ∈ items, emit a = .ok (bytes a)) :
    emitAll emit items = .ok (items.flatMap bytes) := by
  induction items with
  | nil => rfl
  | cons a items ih =>
    rw [emitAll, h a List.mem_cons_self, ok_bind,
      ih fun b hb => h b (List.mem_cons_of_mem _ hb), ok_bind, List.flatMap_cons]
    rfl

theorem emitAll_each {out : List τ} (h : emitAll emit items = .ok out) :
    ∀ a ∈ items, ∃ bytes, emit a = .ok bytes := by
  induction items generalizing out with
  | nil => simp
  | cons a items ih =>
    rw [emitAll, bind_ok] at h
    obtain ⟨first, hfirst, h⟩ := h
    obtain ⟨rest, hrest, _⟩ := bind_ok.mp h
    intro b hb
    rcases List.mem_cons.mp hb with rfl | hb
    · exact ⟨first, hfirst⟩
    · exact ih hrest b hb

theorem emitFrom_const (emit : α → List τ) (index : Nat) (items : List α) :
    emitFrom (fun _ => emit) index items = items.flatMap emit := by
  induction items generalizing index with
  | nil => rfl
  | cons a items ih => rw [emitFrom, ih, List.flatMap_cons]

/-- Items that read back one by one read back together. -/
theorem times_emitFrom {read : Nat → List τ → Except ε (α × List τ)} (emit : Nat → α → List τ)
    (items : List α) (index : Nat)
    (hread : ∀ j a, items[j]? = some a → ∀ rest,
      read (index + j) (emit (index + j) a ++ rest) = .ok (a, rest)) (rest : List τ) :
    times read items.length index (emitFrom emit index items ++ rest) = .ok (items, rest) := by
  induction items generalizing index with
  | nil => rfl
  | cons a items ih =>
    have hitems := ih (index + 1) fun j b hb more => by
      have h := hread (j + 1) b (by simpa using hb) more
      rwa [show index + (j + 1) = index + 1 + j by omega] at h
    have hfirst := hread 0 a rfl (emitFrom emit (index + 1) items ++ rest)
    rw [Nat.add_zero] at hfirst
    rw [List.length_cons, times, emitFrom, List.append_assoc, hfirst, ok_bind]
    dsimp only
    rw [hitems, ok_bind]
    rfl

theorem times_append {read : Nat → List τ → Except ε (α × List τ)} (emit : α → List τ)
    (items : List α) (hread : ∀ a ∈ items, ∀ i rest, read i (emit a ++ rest) = .ok (a, rest))
    (index : Nat) (rest : List τ) :
    times read items.length index (items.flatMap emit ++ rest) = .ok (items, rest) := by
  rw [← emitFrom_const emit index items]
  exact times_emitFrom _ items index (fun j a ha => hread a (List.mem_of_getElem? ha) _) rest

theorem checkAll_of_ok (items : List α) (index : Nat)
    (h : ∀ j a, items[j]? = some a → check (index + j) a = .ok ()) :
    checkAll check index items = .ok () := by
  induction items generalizing index with
  | nil => rfl
  | cons a items ih =>
    have hfirst := h 0 a rfl
    rw [Nat.add_zero] at hfirst
    rw [checkAll, hfirst, ok_bind]
    refine ih (index + 1) fun j b hb => ?_
    have hnext := h (j + 1) b (by simpa using hb)
    rwa [show index + (j + 1) = index + 1 + j by omega] at hnext

theorem checkAll_ok (items : List α) (index : Nat) (h : checkAll check index items = .ok u)
    (j : Nat) (hj : items[j]? = some a) : check (index + j) a = .ok () := by
  induction items generalizing index j with
  | nil => cases hj
  | cons item items ih =>
    rw [checkAll, bind_ok] at h
    obtain ⟨_, hitem, hitems⟩ := h
    cases j with
    | zero =>
      have ha : item = a := by simpa using hj
      subst ha
      exact hitem
    | succ j =>
      have hrest := ih (index + 1) hitems j (by simpa using hj)
      rwa [Nat.add_assoc, Nat.add_comm 1 j] at hrest

end KvMem.Parsing
