import KvMem.Foundation.Parsing

/-! # Readers with checked accesses

A reader of untrusted bytes computes positions and sizes from what it reads. Here every
access of a buffer, every difference of two sizes and every loop without a count is
checked: an access outside of the buffer, a difference below zero and a loop that runs
out of turns are faults. A fault is neither a value nor an error the reader reports.

The readers of `Parsing` consume their input and cannot fault. A reader that works on
positions is shown to have no fault by following one of them.
-/

namespace KvMem.CheckedAccess

inductive Fault where
  | outOfBounds
  | underflow
  | endless
  deriving DecidableEq, Repr

/-- What a reader ends in. -/
inductive Access (ε α : Type) where
  | value (a : α)
  | refused (e : ε)
  | fault (f : Fault)
  deriving DecidableEq, Repr

variable {τ ε α β : Type}

namespace Access

def bind (x : Access ε α) (f : α → Access ε β) : Access ε β :=
  match x with
  | value a => f a
  | refused e => refused e
  | fault f => fault f

instance : Monad (Access ε) where
  pure := value
  bind := bind

theorem value_bind (a : α) (f : α → Access ε β) : ((value a : Access ε α) >>= f) = f a := rfl

/-- No access was out of bounds, no size fell below zero, and no loop went on. -/
def Safe (x : Access ε α) : Prop := ∀ f, x ≠ fault f

def ofExcept : Except ε α → Access ε α
  | .ok a => value a
  | .error e => refused e

theorem ofExcept_safe (x : Except ε α) : (ofExcept x).Safe := by
  cases x with
  | ok a => exact fun f h => by cases h
  | error e => exact fun f h => by cases h

theorem bind_eq_ofExcept {x : Access ε α} {y : Except ε α} (h : x = ofExcept y)
    {f : α → Access ε β} {g : α → Except ε β} (hk : ∀ a, y = .ok a → f a = ofExcept (g a)) :
    (x >>= f) = ofExcept (y >>= g) := by
  subst h
  cases y with
  | ok a => exact hk a rfl
  | error e => rfl

end Access

open Access

/-! ## Accesses -/

def require (condition : Bool) (e : ε) : Access ε Unit :=
  if condition then .value () else .refused e

def orFail (x : Access ε α) (e : ε) : Access ε α :=
  match x with
  | .refused _ => .refused e
  | x => x

def sub (a b : Nat) : Access ε Nat := if b ≤ a then .value (a - b) else .fault .underflow

def item (buffer : List τ) (i : Nat) : Access ε τ :=
  match buffer[i]? with
  | some a => .value a
  | none => .fault .outOfBounds

def slice (buffer : List τ) (offset size : Nat) : Access ε (List τ) :=
  if offset + size ≤ buffer.length then .value ((buffer.drop offset).take size)
  else .fault .outOfBounds

theorem sub_bind {a b : Nat} (h : b ≤ a) (f : Nat → Access ε β) : (sub a b >>= f) = f (a - b) := by
  rw [sub, if_pos h]
  rfl

variable {buffer : List τ} {c : Bool} {e : ε} {x : Access ε α} {y : Except ε α}

theorem item_bind {i : Nat} {a : τ} (h : buffer[i]? = some a) (f : τ → Access ε β) :
    (item buffer i >>= f) = f a := by
  rw [item, h]
  rfl

theorem slice_bind {offset size : Nat} (h : offset + size ≤ buffer.length)
    (f : List τ → Access ε β) :
    (slice buffer offset size >>= f) = f ((buffer.drop offset).take size) := by
  rw [slice, if_pos h]
  rfl

theorem require_bind (h : c = true → x = ofExcept y) :
    (require c e >>= fun _ => x) = ofExcept (Parsing.require c e >>= fun _ => y) := by
  cases c with
  | true => exact h rfl
  | false => rfl

theorem require_true_bind (h : c = true) (e : ε) (x : Access ε α) :
    (require c e >>= fun _ => x) = x := by
  rw [require, if_pos h]
  rfl

theorem require_and_bind {c d : Prop} [Decidable c] [Decidable d]
    (h : c → x = ofExcept (Parsing.require (decide d) e >>= fun _ => y)) :
    (require (decide c) e >>= fun _ => x) =
      ofExcept (Parsing.require (decide (c ∧ d)) e >>= fun _ => y) := by
  by_cases hc : c
  · have hcd : decide (c ∧ d) = decide d := decide_eq_decide.mpr (and_iff_right hc)
    rw [hcd, ← h hc, decide_eq_true hc]
    rfl
  · rw [decide_eq_false hc, decide_eq_false fun hcd : c ∧ d => hc hcd.1]
    rfl

def checkAll (check : Nat → α → Access ε Unit) : Nat → List α → Access ε Unit
  | _, [] => .value ()
  | index, item :: items => do
      check index item
      checkAll check (index + 1) items

theorem checkAll_eq {check : Nat → α → Access ε Unit} {check' : Nat → α → Except ε Unit}
    (items : List α) (h : ∀ a ∈ items, ∀ i, check i a = ofExcept (check' i a)) (index : Nat) :
    checkAll check index items = ofExcept (Parsing.checkAll check' index items) := by
  induction items generalizing index with
  | nil => rfl
  | cons a items ih =>
    rw [checkAll, Parsing.checkAll]
    refine bind_eq_ofExcept (h a List.mem_cons_self index) fun _ _ => ?_
    exact ih (fun b hb => h b (List.mem_cons_of_mem a hb)) (index + 1)

/-! ## Readers on positions -/

/-- `y`, which was at `offset` of the buffer, does what `x` does with the rest of it. -/
def Follows (buffer : List τ) (offset : Nat) (x : Except ε (α × List τ))
    (y : Access ε (α × Nat)) : Prop :=
  (∃ e, x = .error e ∧ y = .refused e) ∨
    ∃ a offset', offset ≤ offset' ∧ offset' ≤ buffer.length ∧ x = .ok (a, buffer.drop offset') ∧
      y = .value (a, offset')

def times (read : Nat → Nat → Access ε (α × Nat)) : Nat → Nat → Nat → Access ε (List α × Nat)
  | 0, _, offset => .value ([], offset)
  | count + 1, index, offset => do
      let (item, offset) ← read index offset
      let (items, offset) ← times read count (index + 1) offset
      return (item :: items, offset)

namespace Follows

variable {buffer : List τ} {offset : Nat} {x : Except ε (α × List τ)} {y : Access ε (α × Nat)}

theorem value (a : α) {offset' : Nat} (hle : offset ≤ offset') (hlen : offset' ≤ buffer.length) :
    Follows buffer offset (.ok (a, buffer.drop offset') : Except ε (α × List τ))
      (.value (a, offset')) :=
  Or.inr ⟨a, offset', hle, hlen, rfl, rfl⟩

theorem refused (e : ε) :
    Follows buffer offset (.error e : Except ε (α × List τ)) (.refused e) := Or.inl ⟨e, rfl, rfl⟩

theorem bind (h : Follows buffer offset x y) {f : α × List τ → Except ε (β × List τ)}
    {g : α × Nat → Access ε (β × Nat)}
    (hk : ∀ a offset', offset ≤ offset' → offset' ≤ buffer.length →
      Follows buffer offset' (f (a, buffer.drop offset')) (g (a, offset'))) :
    Follows buffer offset (x >>= f) (y >>= g) := by
  rcases h with ⟨e, rfl, rfl⟩ | ⟨a, offset', hle, hlen, rfl, rfl⟩
  · exact refused e
  · rcases hk a offset' hle hlen with ⟨e, hf, hg⟩ | ⟨b, last, hle', hlen', hf, hg⟩
    · exact Or.inl ⟨e, hf, hg⟩
    · exact Or.inr ⟨b, last, hle.trans hle', hlen', hf, hg⟩

theorem require {c : Bool} {e : ε} (h : c = true → Follows buffer offset x y) :
    Follows buffer offset (Parsing.require c e >>= fun _ => x)
      (CheckedAccess.require c e >>= fun _ => y) := by
  cases c with
  | true => exact h rfl
  | false => exact refused e

theorem require_and {c d : Prop} [Decidable c] [Decidable d] {e : ε}
    (h : c → Follows buffer offset (Parsing.require (decide d) e >>= fun _ => x) y) :
    Follows buffer offset (Parsing.require (decide (c ∧ d)) e >>= fun _ => x)
      (CheckedAccess.require (decide c) e >>= fun _ => y) := by
  by_cases hc : c
  · have hcd : decide (c ∧ d) = decide d := decide_eq_decide.mpr (and_iff_right hc)
    rw [hcd, decide_eq_true hc]
    exact h hc
  · rw [decide_eq_false hc, decide_eq_false fun hcd : c ∧ d => hc hcd.1]
    exact refused e

theorem orFail (h : Follows buffer offset x y) (e : ε) :
    Follows buffer offset (Parsing.orFail x e) (CheckedAccess.orFail y e) := by
  rcases h with ⟨e', rfl, rfl⟩ | ⟨a, offset', hle, hlen, rfl, rfl⟩
  · exact refused e
  · exact value a hle hlen

theorem times {read : Nat → List τ → Except ε (α × List τ)}
    {readAt : Nat → Nat → Access ε (α × Nat)}
    (h : ∀ index offset, offset ≤ buffer.length →
      Follows buffer offset (read index (buffer.drop offset)) (readAt index offset))
    (count index : Nat) (hlen : offset ≤ buffer.length) :
    Follows buffer offset (Parsing.times read count index (buffer.drop offset))
      (CheckedAccess.times readAt count index offset) := by
  induction count generalizing index offset with
  | zero => exact value [] (Nat.le_refl _) hlen
  | succ count ih =>
    refine bind (h index offset hlen) fun a offset₁ _ hlen₁ => ?_
    refine bind (ih (index + 1) hlen₁) fun items offset₂ _ hlen₂ => ?_
    exact value (a :: items) (Nat.le_refl _) hlen₂

end Follows

end KvMem.CheckedAccess
