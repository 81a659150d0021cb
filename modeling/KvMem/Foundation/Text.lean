import KvMem.Foundation.FixedWidth

/-! # Text on a byte stream

The parts of formatted stream input and output that line-oriented file formats
use: decimal numbers, blank-separated tokens, quoted strings and lines. Readers
take the remaining input and return what they extracted with the rest, or `none`
where the stream would go into its failed state.
-/

namespace KvMem.Text

def isSpace (b : Byte) : Bool := b = 32 || (9 ≤ b && b ≤ 13)

def isDigit (b : Byte) : Bool := 48 ≤ b && b ≤ 57

/-! ## Decimal numbers -/

def digit (d : Nat) : Byte := Fin.ofNat 256 (48 + d)

def digitValue (b : Byte) : Nat := b.val - 48

def decimalLoop : Nat → Nat → Bytes → Bytes
  | 0, _, acc => acc
  | fuel + 1, n, acc =>
    if n / 10 = 0 then digit (n % 10) :: acc
    else decimalLoop fuel (n / 10) (digit (n % 10) :: acc)

def decimal (n : Nat) : Bytes := decimalLoop (n + 1) n []

def decimalValue (xs : Bytes) : Nat := xs.foldl (fun v b => v * 10 + digitValue b) 0

variable {d max n : Nat} {b : Byte} {line : Bytes}

theorem digit_val (h : d < 10) : (digit d).val = 48 + d := by
  simp only [digit, Fin.ofNat]
  omega

theorem isDigit_iff (b : Byte) : isDigit b = true ↔ 48 ≤ b.val ∧ b.val ≤ 57 := by
  simp [isDigit, Fin.le_def]

theorem isDigit_digit (h : d < 10) : isDigit (digit d) = true := by
  rw [isDigit_iff, digit_val h]
  omega

theorem digitValue_digit (h : d < 10) : digitValue (digit d) = d := by
  rw [digitValue, digit_val h]
  omega

theorem isSpace_of_isDigit (h : isDigit b = true) : isSpace b = false := by
  rw [isDigit_iff] at h
  have h32 : b ≠ 32 := by
    intro he
    rw [he] at h
    exact absurd h.1 (by decide)
  have h13 : ¬ b ≤ 13 := by
    rw [Fin.le_def]
    show ¬ b.val ≤ 13
    omega
  simp [isSpace, h32, h13]

theorem decimalLoop_eq (fuel n : Nat) (acc : Bytes) :
    decimalLoop fuel n acc = decimalLoop fuel n [] ++ acc := by
  induction fuel generalizing n acc with
  | zero => rfl
  | succ fuel ih =>
    simp only [decimalLoop]
    split
    · rfl
    · rw [ih, ih (n / 10) [digit (n % 10)]]
      simp

theorem decimalValue_append (xs : Bytes) (b : Byte) :
    decimalValue (xs ++ [b]) = decimalValue xs * 10 + digitValue b := by
  simp [decimalValue]

theorem decimalLoop_spec (fuel n : Nat) (h : n < fuel) :
    decimalValue (decimalLoop fuel n []) = n ∧ decimalLoop fuel n [] ≠ [] ∧
      ∀ b ∈ decimalLoop fuel n [], isDigit b = true := by
  induction fuel generalizing n with
  | zero => omega
  | succ fuel ih =>
    have hmod : n % 10 < 10 := Nat.mod_lt n (by decide)
    simp only [decimalLoop]
    split
    · rename_i hz
      refine ⟨?_, by simp, ?_⟩
      · simp only [decimalValue, List.foldl_cons, List.foldl_nil, digitValue_digit hmod]
        omega
      · intro b hb
        rw [List.mem_singleton.mp hb]
        exact isDigit_digit hmod
    · rename_i hz
      obtain ⟨hv, hne, hd⟩ := ih (n / 10) (by omega)
      rw [decimalLoop_eq]
      refine ⟨?_, by simp, ?_⟩
      · rw [decimalValue_append, hv, digitValue_digit hmod]
        omega
      · intro b hb
        rcases List.mem_append.mp hb with hb | hb
        · exact hd b hb
        · rw [List.mem_singleton.mp hb]
          exact isDigit_digit hmod

theorem decimalValue_decimal (n : Nat) : decimalValue (decimal n) = n :=
  (decimalLoop_spec (n + 1) n (Nat.lt_succ_self n)).1

theorem decimal_ne_nil (n : Nat) : decimal n ≠ [] :=
  (decimalLoop_spec (n + 1) n (Nat.lt_succ_self n)).2.1

theorem decimal_digits (n : Nat) : ∀ b ∈ decimal n, isDigit b = true :=
  (decimalLoop_spec (n + 1) n (Nat.lt_succ_self n)).2.2

/-! ## Tokens -/

def skipSpace (xs : Bytes) : Bytes := xs.dropWhile isSpace

def readToken (xs : Bytes) : Option (Bytes × Bytes) :=
  let ys := skipSpace xs
  let token := ys.takeWhile fun b => !isSpace b
  if token = [] then none else some (token, ys.dropWhile fun b => !isSpace b)

def fromChars (max : Nat) (token : Bytes) : Option Nat :=
  if token ≠ [] ∧ token.all isDigit ∧ decimalValue token ≤ max then some (decimalValue token)
  else none

def readUnsigned (max : Nat) (xs : Bytes) : Option (Nat × Bytes) :=
  match readToken xs with
  | none => none
  | some (token, rest) => (fromChars max token).map fun v => (v, rest)

/-- The digits of a number with an optional sign, as numeric extraction takes them. -/
def signedDigits (xs : Bytes) : Option (Bool × Nat × Bytes) :=
  let ys := skipSpace xs
  let negative := ys.head? = some 45
  let zs := if ys.head? = some 43 ∨ negative then ys.tail else ys
  let ds := zs.takeWhile isDigit
  if ds = [] then none else some (negative, decimalValue ds, zs.dropWhile isDigit)

/-- Numeric extraction of an unsigned type with largest value `max`; a minus sign
is taken modulo the width of the type. -/
def extractUnsigned (max : Nat) (xs : Bytes) : Option (Nat × Bytes) :=
  match signedDigits xs with
  | none => none
  | some (negative, v, rest) =>
    if v > max then none
    else if negative then some ((max + 1 - v) % (max + 1), rest)
    else some (v, rest)

def extractInt (max : Nat) (xs : Bytes) : Option (Int × Bytes) :=
  match signedDigits xs with
  | none => none
  | some (negative, v, rest) =>
    if negative then if v > max + 1 then none else some (-(v : Int), rest)
    else if v > max then none else some ((v : Int), rest)

/-- What may stand behind a token: nothing, or a blank. -/
def Delimited (rest : Bytes) : Prop := ∀ b, rest.head? = some b → isSpace b = true

theorem delimited_nil : Delimited [] := by
  intro b h
  cases h

theorem delimited_cons (rest : Bytes) (h : isSpace b = true) : Delimited (b :: rest) := by
  intro b' hb
  simp only [List.head?_cons, Option.some.injEq] at hb
  exact hb ▸ h

theorem takeWhile_append_stop (p : Byte → Bool) (xs rest : Bytes) (hx : ∀ b ∈ xs, p b = true)
    (hr : ∀ b, rest.head? = some b → p b = false) :
    (xs ++ rest).takeWhile p = xs ∧ (xs ++ rest).dropWhile p = rest := by
  induction xs with
  | nil =>
    cases rest with
    | nil => exact ⟨rfl, rfl⟩
    | cons b rest =>
      have hb := hr b rfl
      simp [hb]
  | cons x xs ih =>
    have hxp := hx x List.mem_cons_self
    obtain ⟨h₁, h₂⟩ := ih fun b hb => hx b (List.mem_cons_of_mem x hb)
    simp [hxp, h₁, h₂]

theorem skipSpace_cons_of_not (xs : Bytes) (h : isSpace b = false) :
    skipSpace (b :: xs) = b :: xs := by
  simp [skipSpace, h]

theorem skipSpace_blank (xs : Bytes) : skipSpace (32 :: xs) = skipSpace xs := by
  simp [skipSpace, isSpace]

theorem readToken_blank (xs : Bytes) : readToken (32 :: xs) = readToken xs := by
  simp only [readToken, skipSpace_blank]

theorem readToken_append {token rest : Bytes} (hne : token ≠ [])
    (ht : ∀ b ∈ token, isSpace b = false) (hr : Delimited rest) :
    readToken (token ++ rest) = some (token, rest) := by
  obtain ⟨t, ts, rfl⟩ := List.exists_cons_of_ne_nil hne
  have hskip : skipSpace (t :: ts ++ rest) = t :: ts ++ rest :=
    skipSpace_cons_of_not _ (ht t List.mem_cons_self)
  obtain ⟨h₁, h₂⟩ := takeWhile_append_stop (fun b => !isSpace b) (t :: ts) rest
    (fun b hb => by simp [ht b hb]) (fun b hb => by simp [hr b hb])
  rw [readToken, hskip, h₁, h₂]
  simp

theorem fromChars_decimal (h : n ≤ max) : fromChars max (decimal n) = some n := by
  have hall : (decimal n).all isDigit = true := List.all_eq_true.mpr (decimal_digits n)
  simp [fromChars, decimal_ne_nil, hall, decimalValue_decimal, h]

theorem readUnsigned_decimal {rest : Bytes} (h : n ≤ max) (hr : Delimited rest) :
    readUnsigned max (decimal n ++ rest) = some (n, rest) := by
  have hsp : ∀ b ∈ decimal n, isSpace b = false :=
    fun b hb => isSpace_of_isDigit (decimal_digits n b hb)
  rw [readUnsigned, readToken_append (decimal_ne_nil n) hsp hr]
  simp [fromChars_decimal h]

theorem readUnsigned_blank (max : Nat) (xs : Bytes) :
    readUnsigned max (32 :: xs) = readUnsigned max xs := by
  simp only [readUnsigned, readToken_blank]

theorem signedDigits_blank (xs : Bytes) : signedDigits (32 :: xs) = signedDigits xs := by
  simp only [signedDigits, skipSpace_blank]

theorem isDigit_of_isSpace (h : isSpace b = true) : isDigit b = false := by
  cases hd : isDigit b with
  | false => rfl
  | true =>
    rw [isSpace_of_isDigit hd] at h
    cases h

theorem signedDigits_decimal (n : Nat) {rest : Bytes} (hr : Delimited rest) :
    signedDigits (decimal n ++ rest) = some (false, n, rest) := by
  obtain ⟨d, ds, hd⟩ := List.exists_cons_of_ne_nil (decimal_ne_nil n)
  have hdig : isDigit d = true := decimal_digits n d (hd ▸ List.mem_cons_self)
  have hrange := (isDigit_iff d).mp hdig
  have hskip : skipSpace (decimal n ++ rest) = decimal n ++ rest := by
    rw [hd]
    exact skipSpace_cons_of_not _ (isSpace_of_isDigit hdig)
  have hminus : (decimal n ++ rest).head? ≠ some 45 := by
    rw [hd]
    intro he
    simp only [List.cons_append, List.head?_cons, Option.some.injEq] at he
    rw [he] at hrange
    exact absurd hrange.1 (by decide)
  have hplus : (decimal n ++ rest).head? ≠ some 43 := by
    rw [hd]
    intro he
    simp only [List.cons_append, List.head?_cons, Option.some.injEq] at he
    rw [he] at hrange
    exact absurd hrange.1 (by decide)
  obtain ⟨h₁, h₂⟩ := takeWhile_append_stop isDigit (decimal n) rest
    (decimal_digits n) (fun b hb => isDigit_of_isSpace (hr b hb))
  simp only [signedDigits, hskip, hminus, hplus, or_self, if_false, h₁, h₂, decimal_ne_nil,
    decimalValue_decimal, decide_false]

theorem extractUnsigned_decimal {rest : Bytes} (h : n ≤ max) (hr : Delimited rest) :
    extractUnsigned max (32 :: (decimal n ++ rest)) = some (n, rest) := by
  have hle : ¬ n > max := by omega
  simp [extractUnsigned, signedDigits_blank, signedDigits_decimal n hr, hle]

theorem extractInt_decimal {rest : Bytes} (h : n ≤ max) (hr : Delimited rest) :
    extractInt max (32 :: (decimal n ++ rest)) = some ((n : Int), rest) := by
  have hle : ¬ n > max := by omega
  simp [extractInt, signedDigits_blank, signedDigits_decimal n hr, hle]

/-! ## Quoted strings -/

def quoted (xs : Bytes) : Bytes :=
  34 :: (xs.flatMap (fun b => if b = 34 ∨ b = 92 then [92, b] else [b]) ++ [34])

/-- The characters up to the closing quote; the flag tells that a backslash came last. -/
def readQuotedLoop : Bool → Bytes → Bytes → Option (Bytes × Bytes)
  | _, [], _ => none
  | true, b :: bs, acc => readQuotedLoop false bs (b :: acc)
  | false, b :: bs, acc =>
    if b = 92 then readQuotedLoop true bs acc
    else if b = 34 then some (acc.reverse, bs)
    else readQuotedLoop false bs (b :: acc)

/-- Extract a quoted string; without an opening quote a plain token is taken. -/
def readQuoted (xs : Bytes) : Option (Bytes × Bytes) :=
  match skipSpace xs with
  | [] => none
  | b :: bs => if b = 34 then readQuotedLoop false bs [] else readToken (b :: bs)

theorem readQuotedLoop_escaped (xs rest acc : Bytes) :
    readQuotedLoop false
        (xs.flatMap (fun b => if b = 34 ∨ b = 92 then [92, b] else [b]) ++ 34 :: rest) acc =
      some (acc.reverse ++ xs, rest) := by
  induction xs generalizing acc with
  | nil => simp [readQuotedLoop]
  | cons x xs ih =>
    by_cases hx : x = 34 ∨ x = 92
    · simp [hx, readQuotedLoop, ih]
    · simp only [not_or] at hx
      simp [hx.1, hx.2, readQuotedLoop, ih]

theorem readQuoted_quoted (xs rest : Bytes) :
    readQuoted (32 :: (quoted xs ++ rest)) = some (xs, rest) := by
  have hskip : skipSpace (32 :: (quoted xs ++ rest)) = quoted xs ++ rest := by
    rw [skipSpace_blank]
    exact skipSpace_cons_of_not _ (by decide)
  rw [readQuoted, hskip]
  simp only [quoted, List.cons_append, if_true, List.append_assoc, List.nil_append]
  rw [readQuotedLoop_escaped]
  rfl

/-! ## Lines -/

/-- The lines of a text; a last line without a line feed counts when it is not empty. -/
def lines : Bytes → List Bytes
  | [] => []
  | b :: bs =>
    if b = 10 then [] :: lines bs
    else
      match lines bs with
      | [] => [[b]]
      | l :: ls => (b :: l) :: ls

theorem lines_line (rest : Bytes) (h : 10 ∉ line) :
    lines (line ++ 10 :: rest) = line :: lines rest := by
  induction line with
  | nil => simp [lines]
  | cons b line ih =>
    have hb : b ≠ 10 := fun he => h (he ▸ List.mem_cons_self)
    have hrest : 10 ∉ line := fun hm => h (List.mem_cons_of_mem b hm)
    simp [lines, hb, ih hrest]

def splitLine (xs : Bytes) : Bytes × Option Bytes :=
  match xs.dropWhile (fun b => b ≠ 10) with
  | [] => (xs, none)
  | _ :: rest => (xs.takeWhile (fun b => b ≠ 10), some rest)

theorem splitLine_line (rest : Bytes) (h : 10 ∉ line) :
    splitLine (line ++ 10 :: rest) = (line, some rest) := by
  obtain ⟨h₁, h₂⟩ := takeWhile_append_stop (fun b => decide (b ≠ 10)) line (10 :: rest)
    (fun b hb => by
      simp only [ne_eq, decide_not, Bool.not_eq_eq_eq_not, Bool.not_true, decide_eq_false_iff_not]
      exact fun he => h (he ▸ hb))
    (fun b hb => by simp at hb; simp [← hb])
  rw [splitLine, h₁, h₂]

theorem splitLine_none {xs : Bytes} (h : 10 ∉ xs) : splitLine xs = (xs, none) := by
  have hd : xs.dropWhile (fun b => decide (b ≠ 10)) = [] := by
    rw [List.dropWhile_eq_nil_iff]
    intro b hb
    simp only [ne_eq, decide_not, Bool.not_eq_eq_eq_not, Bool.not_true, decide_eq_false_iff_not]
    exact fun he => h (he ▸ hb)
  rw [splitLine, hd]

end KvMem.Text
