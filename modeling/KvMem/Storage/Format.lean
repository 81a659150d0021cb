import KvMem.Foundation.Text
import KvMem.Storage.Types

/-! # Internal keys and file names

An internal key is the user key, a NUL and the inverted sequence in big-endian
order, so that byte order is key ascending and sequence descending. File names
carry a number of at least six digits.
-/

namespace KvMem

open FixedWidth

def encodeInternalKey (userKey : Bytes) (sequence : Nat) : Bytes :=
  userKey ++ 0 :: beBytes 8 (maxUInt64 - sequence)

variable {a b digits back name : Bytes} {s t v n : Nat} {f : FileName}

theorem encodeInternalKey_lt_of_key (hb : 0 ∉ b) (h : a < b) (s t : Nat) :
    encodeInternalKey a s < encodeInternalKey b t := by
  induction a generalizing b with
  | nil =>
    cases b with
    | nil => exact absurd h (lt_irrefl _)
    | cons y ys =>
      have hy : (0 : Byte) < y := by
        rw [Fin.pos_iff_ne_zero]
        exact fun he => hb (he ▸ List.mem_cons_self)
      simp only [encodeInternalKey, List.nil_append, List.cons_append,
        List.cons_lt_cons_iff]
      exact Or.inl hy
  | cons x xs ih =>
    cases b with
    | nil => exact absurd h (List.not_lt_nil _)
    | cons y ys =>
      have hys : 0 ∉ ys := fun hm => hb (List.mem_cons_of_mem y hm)
      simp only [List.cons_lt_cons_iff] at h
      simp only [encodeInternalKey, List.cons_append, List.cons_lt_cons_iff]
      rcases h with hxy | ⟨rfl, hlt⟩
      · exact Or.inl hxy
      · exact Or.inr ⟨rfl, ih hys hlt⟩

theorem encodeInternalKey_lt_of_sequence (a : Bytes) (hs : s ≤ maxUInt64) (h : t < s) :
    encodeInternalKey a s < encodeInternalKey a t := by
  have hlt : beBytes 8 (maxUInt64 - s) < beBytes 8 (maxUInt64 - t) := by
    have hbound : maxUInt64 - t < 256 ^ 8 := by
      have : maxUInt64 = 256 ^ 8 - 1 := by decide
      omega
    exact beBytes_lt hbound (by omega)
  apply List.append_left_lt
  rw [List.cons_lt_cons_iff]
  exact Or.inr ⟨rfl, hlt⟩

theorem encodeInternalKey_lt_iff (ha : 0 ∉ a) (hb : 0 ∉ b) (hs : s ≤ maxUInt64)
    (ht : t ≤ maxUInt64) :
    encodeInternalKey a s < encodeInternalKey b t ↔ a < b ∨ (a = b ∧ t < s) := by
  constructor
  · intro h
    rcases lt_trichotomy a b with hab | rfl | hba
    · exact Or.inl hab
    · right
      refine ⟨rfl, ?_⟩
      by_contra hle
      rcases Nat.lt_or_eq_of_le (Nat.le_of_not_lt hle) with hlt | rfl
      · exact lt_asymm h (encodeInternalKey_lt_of_sequence a ht hlt)
      · exact lt_irrefl _ h
    · exact absurd h (lt_asymm (encodeInternalKey_lt_of_key ha hba t s))
  · rintro (hab | ⟨rfl, hts⟩)
    · exact encodeInternalKey_lt_of_key hb hab s t
    · exact encodeInternalKey_lt_of_sequence a hs hts

/-- A key from `target` on, at a sequence that is still visible, is not before
the internal key a seek looks for. -/
theorem encodeInternalKey_le_of_seek {target k : Bytes} {r : Nat} (hk : 0 ∉ k) (hle : target ≤ k)
    (hr : r ≤ maxUInt64) (hs : s ≤ r) : encodeInternalKey target r ≤ encodeInternalKey k s := by
  rcases lt_or_eq_of_le hle with hlt | rfl
  · exact le_of_lt (encodeInternalKey_lt_of_key hk hlt r s)
  · rcases Nat.lt_or_eq_of_le hs with hlt | rfl
    · exact le_of_lt (encodeInternalKey_lt_of_sequence target hr hlt)
    · exact le_refl _

/-- User key and sequence: the last eight bytes are the inverted sequence, and the byte
before them is NUL. -/
def decodeInternalKey (internalKey : Bytes) : Option (Bytes × Nat) :=
  if internalKey.length < 9 ∨ internalKey[internalKey.length - 9]? ≠ some 0 then none
  else
    some (internalKey.take (internalKey.length - 9),
      maxUInt64 - beValue (internalKey.drop (internalKey.length - 8)))

theorem decodeInternalKey_encode (key : Bytes) {sequence : Nat} (h : sequence ≤ maxUInt64) :
    decodeInternalKey (encodeInternalKey key sequence) = some (key, sequence) := by
  have hlen : (encodeInternalKey key sequence).length = key.length + 9 := by
    simp [encodeInternalKey]
  have hnul : (encodeInternalKey key sequence)[key.length]? = some 0 := by
    simp [encodeInternalKey]
  have hkey : (encodeInternalKey key sequence).take key.length = key := by
    simp [encodeInternalKey]
  have hseq : (encodeInternalKey key sequence).drop (key.length + 1) =
      beBytes 8 (maxUInt64 - sequence) := by
    rw [encodeInternalKey, List.append_cons]
    exact List.drop_left' (by simp)
  have hbound : maxUInt64 - sequence < 256 ^ 8 := by
    have : maxUInt64 = 256 ^ 8 - 1 := by decide
    omega
  have hsub : key.length + 9 - 9 = key.length := by omega
  have hsub' : key.length + 9 - 8 = key.length + 1 := by omega
  have hback : maxUInt64 - (maxUInt64 - sequence) = sequence := by omega
  unfold decodeInternalKey
  rw [hlen, hsub, hsub', hnul, hkey, hseq, beValue_beBytes hbound, hback, if_neg]
  rintro (hlt | hne)
  · omega
  · exact hne rfl

/-- Byte order of internal keys is key ascending and sequence descending. What a seek
looks for may hold NUL bytes, the keys it is compared with may not. -/
theorem internalKeys_ordered :
    (∀ (a b : Bytes) (s t : Nat), 0 ∉ a → 0 ∉ b → s ≤ maxUInt64 → t ≤ maxUInt64 →
      (encodeInternalKey a s < encodeInternalKey b t ↔ a < b ∨ (a = b ∧ t < s))) ∧
    (∀ (key : Bytes) (s : Nat), s ≤ maxUInt64 →
      decodeInternalKey (encodeInternalKey key s) = some (key, s)) ∧
    (∀ (target k : Bytes) (s t : Nat), 0 ∉ k → target < k →
      encodeInternalKey target t < encodeInternalKey k s) := by
  refine ⟨?_, ?_, ?_⟩
  · intro a b s t ha hb hs ht
    exact encodeInternalKey_lt_iff ha hb hs ht
  · intro key s hs
    exact decodeInternalKey_encode key hs
  · intro target k s t hk hlt
    exact encodeInternalKey_lt_of_key hk hlt t s

theorem internalKeys_ordered_extended :
    encodeInternalKey (ascii "a") 0 < encodeInternalKey (ascii "ab") maxUInt64 ∧
    encodeInternalKey (ascii "a") 7 < encodeInternalKey (ascii "a") 6 ∧
    encodeInternalKey (97 :: 0 :: ascii "z") 0 < encodeInternalKey (ascii "ab") 9 :=
  ⟨(internalKeys_ordered.1 (ascii "a") (ascii "ab") 0 maxUInt64 (by decide) (by decide) (by decide)
      (by decide)).mpr (Or.inl (by decide)),
    (internalKeys_ordered.1 (ascii "a") (ascii "a") 7 6 (by decide) (by decide) (by decide)
      (by decide)).mpr (Or.inr ⟨rfl, by decide⟩),
    internalKeys_ordered.2.2 (97 :: 0 :: ascii "z") (ascii "ab") 9 0 (by decide) (by decide)⟩

/-! ## File names -/

def paddedDecimal (number : Nat) : Bytes :=
  List.replicate (6 - (Text.decimal number).length) 48 ++ Text.decimal number

def numberedName (front : Bytes) (number : Nat) (back : Bytes) : Bytes :=
  front ++ (paddedDecimal number ++ back)

/-- The digit loop with its overflow check. -/
def parseDigits (digits : Bytes) : Option Nat :=
  digits.foldl (fun parsed digit =>
    match parsed with
    | none => none
    | some p =>
      if p > (maxUInt64 - Text.digitValue digit) / 10 then none
      else some (p * 10 + Text.digitValue digit)) (some 0)

def parseNumberedName (front back name : Bytes) : Option Nat :=
  if name.length < front.length + 6 + back.length ∨ name.take front.length ≠ front ∨
      name.drop (name.length - back.length) ≠ back then none
  else
    let digits := (name.drop front.length).take (name.length - front.length - back.length)
    if ¬ digits.all Text.isDigit then none
    else
      match parseDigits digits with
      | none => none
      | some parsed => if parsed = 0 then none else some parsed

def sstableFileName (number : Nat) : Bytes := numberedName (ascii "sst_") number (ascii ".data")

def walFileName (number : Nat) : Bytes := numberedName (ascii "wal_") number (ascii ".log")

def FileName.bytes : FileName → Bytes
  | .current => ascii "CURRENT"
  | .currentTmp => ascii "CURRENT.tmp"
  | .manifest => ascii "MANIFEST"
  | .wal n => walFileName n
  | .sst n => sstableFileName n
  | .sstTmp n => sstableFileName n ++ ascii ".tmp"
  | .other name => name

def parseSSTableFileName (name : Bytes) : Option Nat :=
  parseNumberedName (ascii "sst_") (ascii ".data") name

def parseWALFileName (name : Bytes) : Option Nat :=
  parseNumberedName (ascii "wal_") (ascii ".log") name

def FileName.ofBytes (name : Bytes) : FileName :=
  if name = ascii "MANIFEST" then .manifest
  else if name = ascii "CURRENT" then .current
  else if name = ascii "CURRENT.tmp" then .currentTmp
  else
    match parseSSTableFileName name with
    | some n => if sstableFileName n = name then .sst n else .other name
    | none =>
      match parseWALFileName name with
      | some n => if walFileName n = name then .wal n else .other name
      | none =>
        match parseSSTableFileName (name.take (name.length - 4)) with
        | some n => if sstableFileName n ++ ascii ".tmp" = name then .sstTmp n else .other name
        | none => .other name

theorem paddedDecimal_digits (n : Nat) : ∀ b ∈ paddedDecimal n, Text.isDigit b = true := by
  intro b hb
  rcases List.mem_append.mp hb with hb | hb
  · rw [List.eq_of_mem_replicate hb]
    decide
  · exact Text.decimal_digits n b hb

theorem paddedDecimal_length (n : Nat) : 6 ≤ (paddedDecimal n).length := by
  simp only [paddedDecimal, List.length_append, List.length_replicate]
  omega

theorem decimalValue_replicate_zero (k : Nat) (xs : Bytes) :
    Text.decimalValue (List.replicate k 48 ++ xs) = Text.decimalValue xs := by
  induction k with
  | zero => rfl
  | succ k ih =>
    rw [List.replicate_succ, List.cons_append]
    exact ih

theorem paddedDecimal_value (n : Nat) : Text.decimalValue (paddedDecimal n) = n := by
  rw [paddedDecimal, decimalValue_replicate_zero, Text.decimalValue_decimal]

theorem parseDigits_eq (hd : ∀ b ∈ digits, Text.isDigit b = true)
    (hv : Text.decimalValue digits ≤ maxUInt64) :
    parseDigits digits = some (Text.decimalValue digits) := by
  induction digits using List.reverseRecOn with
  | nil => rfl
  | append_singleton ds d ih =>
    rw [Text.decimalValue_append] at hv
    have hds := ih (fun b hb => hd b (List.mem_append_left _ hb)) (by omega)
    have hle : ¬ Text.decimalValue ds > (maxUInt64 - Text.digitValue d) / 10 := by
      rw [Nat.not_lt, Nat.le_div_iff_mul_le (by decide)]
      omega
    unfold parseDigits at hds ⊢
    rw [List.foldl_append, hds]
    simp only [List.foldl_cons, List.foldl_nil, if_neg hle, Text.decimalValue_append]

theorem parseNumberedName_digits (front back : Bytes) (h6 : 6 ≤ digits.length)
    (hd : ∀ b ∈ digits, Text.isDigit b = true) (hpos : 1 ≤ Text.decimalValue digits)
    (hle : Text.decimalValue digits ≤ maxUInt64) :
    parseNumberedName front back (front ++ (digits ++ back)) = some (Text.decimalValue digits) := by
  have hlen : (front ++ (digits ++ back)).length =
      front.length + (digits.length + back.length) := by
    simp
  have h1 : ¬ (front ++ (digits ++ back)).length < front.length + 6 + back.length := by omega
  have h2 : (front ++ (digits ++ back)).take front.length = front := List.take_left' rfl
  have h3 : (front ++ (digits ++ back)).drop ((front ++ (digits ++ back)).length - back.length) =
      back := by
    have he : (front ++ (digits ++ back)).length - back.length = (front ++ digits).length := by
      rw [hlen, List.length_append]
      omega
    rw [he, ← List.append_assoc]
    exact List.drop_left' rfl
  have h4 : ((front ++ (digits ++ back)).drop front.length).take
      ((front ++ (digits ++ back)).length - front.length - back.length) = digits := by
    have hdrop : (front ++ (digits ++ back)).drop front.length = digits ++ back :=
      List.drop_left' rfl
    rw [hdrop]
    exact List.take_left' (by rw [hlen]; omega)
  have h5 : digits.all Text.isDigit = true := List.all_eq_true.mpr hd
  have h0 : Text.decimalValue digits ≠ 0 := by omega
  simp only [parseNumberedName, h1, h2, h3, h4, h5, parseDigits_eq hd hle, h0, ne_eq,
    not_true_eq_false, or_self, if_false]

theorem parseDigits_append {ds : Bytes} {d : Byte} (hd : Text.isDigit d = true)
    (h : parseDigits (ds ++ [d]) = some v) :
    ∃ p, parseDigits ds = some p ∧ v = p * 10 + Text.digitValue d ∧
      p * 10 + Text.digitValue d ≤ maxUInt64 := by
  unfold parseDigits at h ⊢
  rw [List.foldl_append] at h
  simp only [List.foldl_cons, List.foldl_nil] at h
  cases hp : List.foldl _ (some 0) ds with
  | none =>
    rw [hp] at h
    cases h
  | some p =>
    rw [hp] at h
    simp only at h
    split at h
    · cases h
    · rename_i hle
      have hdigit : Text.digitValue d ≤ 9 := by
        have hd' := (Text.isDigit_iff d).mp hd
        unfold Text.digitValue
        omega
      rw [Nat.not_lt, Nat.le_div_iff_mul_le (by decide)] at hle
      have hlarge : 9 ≤ maxUInt64 := by decide
      exact ⟨p, rfl, (Option.some.inj h).symm, by omega⟩

theorem parseDigits_some (hd : ∀ b ∈ digits, Text.isDigit b = true)
    (h : parseDigits digits = some v) : v = Text.decimalValue digits ∧ v ≤ maxUInt64 := by
  induction digits using List.reverseRecOn generalizing v with
  | nil =>
    cases h
    exact ⟨rfl, by decide⟩
  | append_singleton ds d ih =>
    obtain ⟨p, hp, hv, hle⟩ := parseDigits_append (hd d (by simp)) h
    have hds := ih (fun b hb => hd b (List.mem_append_left _ hb)) hp
    rw [Text.decimalValue_append, ← hds.1]
    exact ⟨hv, by omega⟩

/-- The parser accepts a front text, six digits or more with a value from 1 to the
largest 64-bit number, and a back text. -/
theorem parseNumberedName_eq_some_iff (front back name : Bytes) (n : Nat) :
    parseNumberedName front back name = some n ↔
      ∃ digits, name = front ++ (digits ++ back) ∧ 6 ≤ digits.length ∧
        (∀ b ∈ digits, Text.isDigit b = true) ∧ Text.decimalValue digits = n ∧
        1 ≤ n ∧ n ≤ maxUInt64 := by
  constructor
  · intro h
    unfold parseNumberedName at h
    split at h
    · cases h
    · rename_i hshape
      simp only [not_or, Nat.not_lt, ne_eq, not_not] at hshape
      obtain ⟨hlen, hfront, hback⟩ := hshape
      generalize hdigits : (name.drop front.length).take
        (name.length - front.length - back.length) = digits at h
      have hsplit : name = front ++ (digits ++ back) := by
        have hrest : name.drop front.length = digits ++ back := by
          have hat : name.length - back.length =
              front.length + (name.length - front.length - back.length) := by omega
          rw [hat, ← List.drop_drop] at hback
          have htd := List.take_append_drop (name.length - front.length - back.length)
            (name.drop front.length)
          rw [hback, hdigits] at htd
          exact htd.symm
        calc name = name.take front.length ++ name.drop front.length :=
              (List.take_append_drop _ _).symm
          _ = front ++ (digits ++ back) := by rw [hfront, hrest]
      have hsix : 6 ≤ digits.length := by
        have htotal := congrArg List.length hsplit
        simp only [List.length_append] at htotal
        omega
      dsimp only at h
      split at h
      · cases h
      · rename_i hall
        have hd : ∀ b ∈ digits, Text.isDigit b = true := by simpa using hall
        cases hp : parseDigits digits with
        | none =>
          rw [hp] at h
          cases h
        | some v =>
          rw [hp] at h
          simp only at h
          split at h
          · cases h
          · rename_i hzero
            cases h
            obtain ⟨hval, hle⟩ := parseDigits_some hd hp
            exact ⟨digits, hsplit, hsix, hd, hval.symm, by omega, hle⟩
  · rintro ⟨digits, rfl, hsix, hd, rfl, hpos, hle⟩
    exact parseNumberedName_digits front back hsix hd hpos hle

theorem parseNumberedName_numberedName (front back : Bytes) (h0 : n ≠ 0) (hn : n ≤ maxUInt64) :
    parseNumberedName front back (numberedName front n back) = some n := by
  have hvalue := paddedDecimal_value n
  have hparse := parseNumberedName_digits front back (paddedDecimal_length n)
    (paddedDecimal_digits n) (by omega) (by omega)
  rwa [hvalue] at hparse

theorem parseNumberedName_of_front {front : Bytes} (h : name.take front.length ≠ front) :
    parseNumberedName front back name = none := by
  simp [parseNumberedName, h]

theorem parseNumberedName_of_back {front : Bytes}
    (h : name.drop (name.length - back.length) ≠ back) :
    parseNumberedName front back name = none := by
  simp [parseNumberedName, h]

theorem parseNumberedName_tmp {front : Bytes} (name : Bytes) (hne : back ≠ [])
    (hlast : back.getLast? ≠ some 112) :
    parseNumberedName front back (name ++ ascii ".tmp") = none := by
  refine parseNumberedName_of_back ?_
  intro he
  have hends := congrArg List.getLast? he
  rw [List.getLast?_drop] at hends
  have htmp : (name ++ ascii ".tmp").getLast? = some 112 := by
    rw [List.getLast?_append]
    rfl
  rw [htmp] at hends
  split at hends
  · exact hne (List.getLast?_eq_none_iff.mp hends.symm)
  · exact hlast hends.symm

/-- The number under which a directory scan sees a table. -/
def FileName.sstNumber? (f : FileName) : Option Nat := parseSSTableFileName f.bytes

def FileName.walNumber? (f : FileName) : Option Nat := parseWALFileName f.bytes

theorem sstNumber?_sst (h0 : n ≠ 0) (hn : n ≤ maxUInt64) : (FileName.sst n).sstNumber? = some n :=
  parseNumberedName_numberedName _ _ h0 hn

theorem walNumber?_wal (h0 : n ≠ 0) (hn : n ≤ maxUInt64) : (FileName.wal n).walNumber? = some n :=
  parseNumberedName_numberedName _ _ h0 hn

/-- The parsers invert the naming, accept nothing but such names, hold only 64-bit numbers
on the way, and never take a temporary file for one of them. -/
theorem fileNames_parse_exactly :
    (∀ n, 1 ≤ n → n ≤ maxUInt64 →
      parseWALFileName (walFileName n) = some n ∧
      parseSSTableFileName (sstableFileName n) = some n) ∧
    (∀ name n, parseWALFileName name = some n ↔
      ∃ digits, name = ascii "wal_" ++ (digits ++ ascii ".log") ∧ 6 ≤ digits.length ∧
        (∀ b ∈ digits, Text.isDigit b = true) ∧ Text.decimalValue digits = n ∧
        1 ≤ n ∧ n ≤ maxUInt64) ∧
    (∀ name n, parseSSTableFileName name = some n ↔
      ∃ digits, name = ascii "sst_" ++ (digits ++ ascii ".data") ∧ 6 ≤ digits.length ∧
        (∀ b ∈ digits, Text.isDigit b = true) ∧ Text.decimalValue digits = n ∧
        1 ≤ n ∧ n ≤ maxUInt64) ∧
    (∀ ds d v, Text.isDigit d = true → parseDigits (ds ++ [d]) = some v →
      ∃ p, parseDigits ds = some p ∧ v = p * 10 + Text.digitValue d ∧
        p * 10 + Text.digitValue d ≤ maxUInt64) ∧
    ∀ name, parseWALFileName (name ++ ascii ".tmp") = none ∧
      parseSSTableFileName (name ++ ascii ".tmp") = none := by
  refine ⟨?_, ?_, ?_, ?_, ?_⟩
  · intro n hpos hn
    have h0 : n ≠ 0 := by omega
    exact ⟨parseNumberedName_numberedName _ _ h0 hn, parseNumberedName_numberedName _ _ h0 hn⟩
  · exact parseNumberedName_eq_some_iff (ascii "wal_") (ascii ".log")
  · exact parseNumberedName_eq_some_iff (ascii "sst_") (ascii ".data")
  · intro ds d v hd h
    exact parseDigits_append hd h
  · intro name
    exact ⟨parseNumberedName_tmp name (by decide) (by decide),
      parseNumberedName_tmp name (by decide) (by decide)⟩

theorem fileNames_parse_exactly_largest :
    parseWALFileName (walFileName maxUInt64) = some maxUInt64 ∧
    parseSSTableFileName (ascii "sst_0000012.data") = some 12 ∧
    parseWALFileName (ascii "wal_18446744073709551616.log") = none := by
  refine ⟨(fileNames_parse_exactly.1 maxUInt64 (by decide) (by decide)).1, ?_, by decide⟩
  exact (fileNames_parse_exactly.2.2.1 (ascii "sst_0000012.data") 12).mpr
    ⟨ascii "0000012", by decide, by decide, by decide +kernel, by decide, by decide, by decide⟩

theorem numberedName_take_front (front back : Bytes) (n : Nat) :
    (numberedName front n back).take front.length = front :=
  List.take_left' rfl

theorem sstNumber?_eq_none (h1 : ∀ n, f ≠ .sst n) (h2 : ∀ x, f ≠ .other x) :
    f.sstNumber? = none := by
  cases f with
  | current => decide
  | currentTmp => decide
  | manifest => decide
  | wal n =>
    have h := numberedName_take_front (ascii "wal_") (ascii ".log") n
    refine parseNumberedName_of_front ?_
    intro he
    exact absurd (he.symm.trans h) (by decide)
  | sst n => exact absurd rfl (h1 n)
  | sstTmp n => exact parseNumberedName_tmp (sstableFileName n) (by decide) (by decide)
  | other x => exact absurd rfl (h2 x)

theorem walNumber?_eq_none (h1 : ∀ n, f ≠ .wal n) (h2 : ∀ x, f ≠ .other x) :
    f.walNumber? = none := by
  have hsst : ∀ n, (sstableFileName n).take 4 = ascii "sst_" :=
    fun n => numberedName_take_front (ascii "sst_") (ascii ".data") n
  cases f with
  | current => decide
  | currentTmp => decide
  | manifest => decide
  | wal n => exact absurd rfl (h1 n)
  | sst n =>
    refine parseNumberedName_of_front ?_
    intro he
    exact absurd (he.symm.trans (hsst n)) (by decide)
  | sstTmp n =>
    refine parseNumberedName_of_front ?_
    intro he
    have h := numberedName_take_front (ascii "sst_") (ascii ".data" ++ ascii ".tmp") n
    have hb : (FileName.sstTmp n).bytes = numberedName (ascii "sst_") n
        (ascii ".data" ++ ascii ".tmp") := by
      simp [FileName.bytes, sstableFileName, numberedName]
    rw [hb] at he
    exact absurd (he.symm.trans h) (by decide)
  | other x => exact absurd rfl (h2 x)

theorem ofBytes_sstableFileName (h0 : n ≠ 0) (hn : n ≤ maxUInt64) :
    FileName.ofBytes (sstableFileName n) = .sst n := by
  have hfront : (sstableFileName n).take 4 = ascii "sst_" :=
    numberedName_take_front (ascii "sst_") (ascii ".data") n
  have hne : ∀ text : Bytes, text.take 4 ≠ ascii "sst_" → sstableFileName n ≠ text := by
    intro text ht he
    rw [he] at hfront
    exact ht hfront
  have hparse : parseSSTableFileName (sstableFileName n) = some n :=
    parseNumberedName_numberedName _ _ h0 hn
  simp only [FileName.ofBytes, hne (ascii "MANIFEST") (by decide),
    hne (ascii "CURRENT") (by decide), hne (ascii "CURRENT.tmp") (by decide), if_false, hparse,
    if_true]

end KvMem
