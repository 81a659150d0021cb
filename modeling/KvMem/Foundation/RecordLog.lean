import Mathlib

/-! # Append-only record logs

A log is the concatenation of record encodings. A reader takes one record off
the front, or reports the end, a torn tail or damage. For any format whose
reader inverts the encoder and calls every proper prefix of a record torn, a log
cut anywhere is read back as the records that are complete before the cut.
-/

namespace KvMem.RecordLog

variable {α ρ σ ε : Type}

/-- What a reader finds at the front of the remaining input. -/
inductive Front (α ρ ε : Type) where
  | eof
  | torn
  | bad (e : ε)
  | record (r : ρ) (rest : List α)

/-- Read records one after the other, feeding each to `step`. The second
component is the unread torn tail. -/
def scan (next : List α → Front α ρ ε) (step : σ → ρ → Except ε σ) :
    Nat → List α → σ → Except ε (σ × List α)
  | 0, xs, s => .ok (s, xs)
  | fuel + 1, xs, s =>
    match next xs with
    | .eof => .ok (s, [])
    | .torn => .ok (s, xs)
    | .bad e => .error e
    | .record r rest =>
      match step s r with
      | .error e => .error e
      | .ok s' => scan next step fuel rest s'

def replay (step : σ → ρ → Except ε σ) : List ρ → σ → Except ε σ
  | [], s => .ok s
  | r :: rs, s =>
    match step s r with
    | .error e => .error e
    | .ok s' => replay step rs s'

theorem replay_append (step : σ → ρ → Except ε σ) (rs ts : List ρ) (s : σ) :
    replay step (rs ++ ts) s =
      (match replay step rs s with
       | .error e => .error e
       | .ok s' => replay step ts s') := by
  induction rs generalizing s with
  | nil => rfl
  | cons r rs ih =>
    simp only [List.cons_append, replay]
    cases step s r with
    | error e => rfl
    | ok s' => exact ih s'

def encodeAll (enc : ρ → List α) (rs : List ρ) : List α := rs.flatMap enc

@[simp] theorem encodeAll_nil (enc : ρ → List α) : encodeAll enc [] = [] := rfl

@[simp] theorem encodeAll_cons (enc : ρ → List α) (r : ρ) (rs : List ρ) :
    encodeAll enc (r :: rs) = enc r ++ encodeAll enc rs := rfl

@[simp] theorem encodeAll_append (enc : ρ → List α) (rs ts : List ρ) :
    encodeAll enc (rs ++ ts) = encodeAll enc rs ++ encodeAll enc ts := by
  simp [encodeAll]

/-- An encoder and a reader that fit together on the records `valid` describes. -/
structure Format (enc : ρ → List α) (next : List α → Front α ρ ε) (valid : ρ → Prop) : Prop where
  eof : next [] = .eof
  nonempty : ∀ r, valid r → enc r ≠ []
  record : ∀ r rest, valid r → next (enc r ++ rest) = .record r rest
  torn : ∀ r xs, valid r → xs <+: enc r → xs ≠ [] → xs ≠ enc r → next xs = .torn

/-- A tail is what a cut inside one more record leaves. -/
def Tail (enc : ρ → List α) (valid : ρ → Prop) (xs : List α) : Prop :=
  xs = [] ∨ ∃ r, valid r ∧ xs <+: enc r ∧ xs ≠ enc r

theorem Tail.nil (enc : ρ → List α) (valid : ρ → Prop) : Tail enc valid [] := Or.inl rfl

section Reading

variable {enc : ρ → List α} {next : List α → Front α ρ ε} {valid : ρ → Prop}

theorem Format.next_tail (hf : Format enc next valid) {xs : List α} (ht : Tail enc valid xs)
    (hne : xs ≠ []) : next xs = .torn := by
  rcases ht with rfl | ⟨r, hr, hp, hx⟩
  · exact absurd rfl hne
  · exact hf.torn r xs hr hp hne hx

theorem Format.length_le (hf : Format enc next valid) (rs : List ρ) (hv : ∀ r ∈ rs, valid r) :
    rs.length ≤ (encodeAll enc rs).length := by
  induction rs with
  | nil => simp
  | cons r rs ih =>
    have hne := hf.nonempty r (hv r List.mem_cons_self)
    have hpos := List.length_pos_of_ne_nil hne
    have hrest := ih (fun r' hr' => hv r' (List.mem_cons_of_mem r hr'))
    simp only [encodeAll_cons, List.length_append, List.length_cons]
    omega

/-- Reading a log with a torn tail replays exactly its complete records. -/
theorem Format.scan_log (hf : Format enc next valid) (step : σ → ρ → Except ε σ)
    (rs : List ρ) (tail : List α) (s : σ) (fuel : Nat) (hv : ∀ r ∈ rs, valid r)
    (ht : Tail enc valid tail) (hfuel : rs.length < fuel) :
    scan next step fuel (encodeAll enc rs ++ tail) s =
      (match replay step rs s with
       | .error e => .error e
       | .ok s' => .ok (s', tail)) := by
  induction rs generalizing s fuel with
  | nil =>
    obtain ⟨fuel, rfl⟩ := Nat.exists_eq_succ_of_ne_zero (Nat.ne_of_gt hfuel)
    simp only [encodeAll_nil, List.nil_append, scan, replay]
    by_cases hne : tail = []
    · subst hne
      simp [hf.eof]
    · simp [hf.next_tail ht hne]
  | cons r rs ih =>
    obtain ⟨fuel, rfl⟩ := Nat.exists_eq_succ_of_ne_zero (Nat.ne_of_gt (Nat.zero_lt_of_lt hfuel))
    simp only [encodeAll_cons, List.append_assoc, scan, replay,
      hf.record r _ (hv r List.mem_cons_self)]
    cases step s r with
    | error e => rfl
    | ok s' =>
      have hlen : rs.length < fuel := by
        simp only [List.length_cons] at hfuel
        omega
      exact ih s' fuel (fun r' hr' => hv r' (List.mem_cons_of_mem r hr')) hlen

end Reading

/-! ## Reading until the first answer that is not a record -/

inductive Ending (α ε : Type) where
  | eof
  | torn (tail : List α)
  | bad (e : ε)
  | more (rest : List α)
  deriving DecidableEq

def readAll (next : List α → Front α ρ ε) : Nat → List α → List ρ × Ending α ε
  | 0, xs => ([], .more xs)
  | fuel + 1, xs =>
    match next xs with
    | .eof => ([], .eof)
    | .torn => ([], .torn xs)
    | .bad e => ([], .bad e)
    | .record r rest => (r :: (readAll next fuel rest).1, (readAll next fuel rest).2)

section ReadAll

variable {enc : ρ → List α} {next : List α → Front α ρ ε} {valid : ρ → Prop}

theorem Format.readAll_append (hf : Format enc next valid) (rs : List ρ) (xs : List α)
    (fuel : Nat) (hv : ∀ r ∈ rs, valid r) :
    readAll next (rs.length + fuel) (encodeAll enc rs ++ xs) =
      (rs ++ (readAll next fuel xs).1, (readAll next fuel xs).2) := by
  induction rs with
  | nil => simp
  | cons r rs ih =>
    have hrest := ih (fun r' hr' => hv r' (List.mem_cons_of_mem r hr'))
    have hfuel : (r :: rs).length + fuel = (rs.length + fuel) + 1 := by
      simp only [List.length_cons]
      omega
    rw [hfuel, encodeAll_cons, List.append_assoc, readAll, hf.record r _ (hv r List.mem_cons_self)]
    simp only [hrest, List.cons_append]

theorem Format.readAll_log (hf : Format enc next valid) (rs : List ρ) (tail : List α) (fuel : Nat)
    (hv : ∀ r ∈ rs, valid r) (ht : Tail enc valid tail) (hfuel : rs.length < fuel) :
    readAll next fuel (encodeAll enc rs ++ tail) =
      (rs, if tail = [] then .eof else .torn tail) := by
  obtain ⟨k, rfl⟩ := Nat.exists_eq_add_of_lt hfuel
  rw [Nat.add_assoc, hf.readAll_append rs tail (k + 1) hv, readAll]
  by_cases hne : tail = []
  · subst hne
    simp [hf.eof]
  · simp [hf.next_tail ht hne, hne]

end ReadAll

/-! ## Cutting a log -/

/-- A log cut at position `c` is the records that end at or before `c`, and a tail. -/
theorem cut_split (enc : ρ → List α) (valid : ρ → Prop) (rs : List ρ) (c : Nat)
    (hv : ∀ r ∈ rs, valid r) :
    ∃ i, i ≤ rs.length ∧
      (∀ j, j < rs.length → (j < i ↔ (encodeAll enc (rs.take (j + 1))).length ≤ c)) ∧
      ∃ tail, (encodeAll enc rs).take c = encodeAll enc (rs.take i) ++ tail ∧
        Tail enc valid tail := by
  induction rs generalizing c with
  | nil => exact ⟨0, Nat.le_refl _, by simp, [], by simp, Tail.nil enc valid⟩
  | cons r rs ih =>
    by_cases hlen : (enc r).length ≤ c
    · obtain ⟨i, hi, hends, tail, he, ht⟩ :=
        ih (c - (enc r).length) (fun r' hr' => hv r' (List.mem_cons_of_mem r hr'))
      refine ⟨i + 1, by simpa using hi, ?_, tail, ?_, ht⟩
      · intro j hj
        cases j with
        | zero => simpa using hlen
        | succ j =>
          have h := hends j (by simpa using hj)
          simp only [List.take_succ_cons, encodeAll_cons, List.length_append]
          omega
      · simp only [encodeAll_cons, List.take_succ_cons, List.append_assoc]
        rw [List.take_append, List.take_of_length_le hlen, he]
    · -- the cut falls inside the first record
      refine ⟨0, by simp, ?_, (enc r).take c, ?_, ?_⟩
      · intro j _
        simp only [List.take_succ_cons, encodeAll_cons, List.length_append]
        omega
      · rw [encodeAll_cons, List.take_append_of_le_length (by omega)]
        simp
      · refine Or.inr ⟨r, hv r List.mem_cons_self, List.take_prefix _ _, ?_⟩
        intro he
        have := congrArg List.length he
        rw [List.length_take] at this
        omega

end KvMem.RecordLog
