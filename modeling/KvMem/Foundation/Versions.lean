import Mathlib

/-! # Multi-version sets

A store of versions is a set of entries, each with a key, a sequence and a value
or a deletion mark. A read at `r` shows the value of the newest version of a key
not after `r`. The two facts below carry most arguments about such stores: a
part that is closed upwards in the history answers for the whole, and versions
may be collected as long as the newest one is kept for every read still possible.
-/

namespace KvMem.Versions

class Versioned (ε : Type) (κ ν : outParam Type) where
  key : ε → κ
  seq : ε → Nat
  live : ε → Option ν

open Versioned

variable {ε κ ν : Type} [Versioned ε κ ν] {V W R H I O : Set ε} {k : κ} {r : Nat} {x y : ε}

/-- `x` is the newest version of `k` not after `r`. -/
structure Newest (V : Set ε) (k : κ) (r : Nat) (x : ε) : Prop where
  mem : x ∈ V
  key_eq : key x = k
  seq_le : seq x ≤ r
  newest : ∀ y ∈ V, key y = k → seq y ≤ r → seq y ≤ seq x

def NoVersion (V : Set ε) (k : κ) (r : Nat) : Prop := ∀ x ∈ V, key x = k → r < seq x

def Sees (V : Set ε) (k : κ) (r : Nat) (v : ν) : Prop := ∃ x, Newest V k r x ∧ live x = some v

def SameView (V W : Set ε) (k : κ) (r : Nat) : Prop := ∀ v, Sees V k r v ↔ Sees W k r v

def Functional (H : Set ε) : Prop := ∀ x ∈ H, ∀ y ∈ H, key x = key y → seq x = seq y → x = y

/-- With a version, every newer version of its key in `H` is there too. -/
def UpClosed (R H : Set ε) : Prop := ∀ x ∈ R, ∀ y ∈ H, key y = key x → seq x ≤ seq y → y ∈ R

theorem Functional.mono (h : Functional H) (hV : V ⊆ H) : Functional V :=
  fun x hx y hy => h x (hV hx) y (hV hy)

theorem Newest.unique (hf : Functional V) (hx : Newest V k r x) (hy : Newest V k r y) : x = y := by
  have hxy := hx.newest y hy.mem hy.key_eq hy.seq_le
  have hyx := hy.newest x hx.mem hx.key_eq hx.seq_le
  exact hf x hx.mem y hy.mem (hx.key_eq.trans hy.key_eq.symm) (by omega)

theorem SameView.refl (V : Set ε) (k : κ) (r : Nat) : SameView V V k r := fun _ => Iff.rfl

theorem SameView.symm (h : SameView V W k r) : SameView W V k r := fun v => (h v).symm

theorem SameView.trans {U : Set ε} (h₁ : SameView V W k r) (h₂ : SameView W U k r) :
    SameView V U k r := fun v => (h₁ v).trans (h₂ v)

theorem newest_congr (h : ∀ x, seq x ≤ r → (x ∈ V ↔ x ∈ W)) :
    Newest V k r x ↔ Newest W k r x := by
  constructor
  · intro hx
    refine ⟨(h x hx.seq_le).mp hx.mem, hx.key_eq, hx.seq_le, ?_⟩
    intro y hy hk hr
    exact hx.newest y ((h y hr).mpr hy) hk hr
  · intro hx
    refine ⟨(h x hx.seq_le).mpr hx.mem, hx.key_eq, hx.seq_le, ?_⟩
    intro y hy hk hr
    exact hx.newest y ((h y hr).mp hy) hk hr

theorem sameView_of_congr (h : ∀ x, seq x ≤ r → (x ∈ V ↔ x ∈ W)) : SameView V W k r := by
  intro v
  constructor
  · rintro ⟨x, hx, hv⟩
    exact ⟨x, (newest_congr h).mp hx, hv⟩
  · rintro ⟨x, hx, hv⟩
    exact ⟨x, (newest_congr h).mpr hx, hv⟩

/-! ## Closed parts answer for the whole -/

theorem UpClosed.newest (hup : UpClosed R H) (hRV : R ⊆ V) (hVH : V ⊆ H) (hx : Newest R k r x) :
    Newest V k r x := by
  refine ⟨hRV hx.mem, hx.key_eq, hx.seq_le, ?_⟩
  intro y hy hk hr
  by_contra hlt
  have hyR : y ∈ R := hup x hx.mem y (hVH hy) (hk.trans hx.key_eq.symm) (by omega)
  exact hlt (hx.newest y hyR hk hr)

/-! ## Collecting old versions -/

/-- The condition under which the collected part `I` may be replaced by `O`
beside `R`, for reads from `m` on. A dropped newest version must be a deletion
that hides nothing older. -/
structure Retains (R I O : Set ε) (m : Nat) : Prop where
  subset : O ⊆ I
  keeps : ∀ k r x, m ≤ r → Newest I k r x →
    x ∈ O ∨ (live x = none ∧ (∀ y ∈ O, key y ≠ k) ∧
      ∀ y ∈ R, key y = k → seq y < seq x → x ∈ R)

theorem newest_union_left (hx : Newest (R ∪ I) k r x) (hR : x ∈ R) (hO : O ⊆ I) :
    Newest (R ∪ O) k r x :=
  ⟨Or.inl hR, hx.key_eq, hx.seq_le,
    fun y hy => hx.newest y (hy.imp id fun h => hO h)⟩

theorem newest_union_right (hx : Newest (R ∪ I) k r x) (hI : x ∈ I) : Newest I k r x :=
  ⟨hI, hx.key_eq, hx.seq_le, fun y hy => hx.newest y (Or.inr hy)⟩

variable {m : Nat} {o : Option ε} {xs : List ε}

/-- The newest version is still there, or was a deletion and no version is left. -/
theorem Retains.newest (h : Retains R I O m) (hf : Functional (R ∪ I)) (hm : m ≤ r)
    (hx : Newest (R ∪ I) k r x) :
    Newest (R ∪ O) k r x ∨ (live x = none ∧ NoVersion (R ∪ O) k r) := by
  by_cases hR : x ∈ R
  · exact Or.inl (newest_union_left hx hR h.subset)
  · have hI : x ∈ I := hx.mem.resolve_left hR
    rcases h.keeps k r x hm (newest_union_right hx hI) with hO | ⟨hdel, hnone, hold⟩
    · refine Or.inl ⟨Or.inr hO, hx.key_eq, hx.seq_le, ?_⟩
      exact fun y hy => hx.newest y (hy.imp id fun hy' => h.subset hy')
    · refine Or.inr ⟨hdel, ?_⟩
      intro y hy hk
      rcases hy with hy | hy
      · -- an older version beside the collected part would have kept the deletion there
        by_contra hle
        have hsy := hx.newest y (Or.inl hy) hk (by omega)
        rcases Nat.lt_or_eq_of_le hsy with hlt | heq
        · exact hR (hold y hy hk hlt)
        · have hxy : y = x := hf y (Or.inl hy) x (Or.inr hI) (hk.trans hx.key_eq.symm) heq
          exact hR (hxy ▸ hy)
      · exact absurd hk (hnone y hy)

theorem Retains.sameView (h : Retains R I O m) (hf : Functional (R ∪ I))
    (hfin : ∀ k r, (∃ x, Newest (R ∪ I) k r x) ∨ NoVersion (R ∪ I) k r) (hm : m ≤ r) :
    SameView (R ∪ I) (R ∪ O) k r := by
  intro v
  constructor
  · rintro ⟨x, hx, hv⟩
    rcases h.newest hf hm hx with hx' | ⟨hdel, _⟩
    · exact ⟨x, hx', hv⟩
    · rw [hdel] at hv
      cases hv
  · rintro ⟨x, hx, hv⟩
    have hmem : x ∈ R ∪ I := hx.mem.imp id fun hO => h.subset hO
    rcases hfin k r with ⟨y, hy⟩ | hnone
    · rcases h.newest hf hm hy with hy' | ⟨_, hnone⟩
      · have hf' : Functional (R ∪ O) := hf.mono (Set.union_subset_union_right R h.subset)
        exact ⟨y, hy, (hy'.unique hf' hx) ▸ hv⟩
      · have := hnone x hx.mem hx.key_eq
        have := hx.seq_le
        omega
    · have := hnone x hmem hx.key_eq
      have := hx.seq_le
      omega

/-! ## Parts that show the whole -/

/-- `V` shows what `H` shows, to every read from `m` on. -/
structure Shows (V H : Set ε) (m : Nat) : Prop where
  subset : V ⊆ H
  same : ∀ k r, m ≤ r → SameView V H k r

theorem shows_self (H : Set ε) (m : Nat) : Shows H H m := ⟨subset_rfl, fun k r _ => SameView.refl H k r⟩

theorem UpClosed.noVersion (hup : UpClosed R H) (hVH : V ⊆ H) (hx : Newest (V ∪ R) k r x)
    (hxR : x ∉ R) : NoVersion R k r := by
  intro y hy hk
  by_contra hle
  have hyx := hx.newest y (Or.inr hy) hk (by omega)
  have hxV : x ∈ V := hx.mem.resolve_right hxR
  exact hxR (hup y hy x (hVH hxV) (hx.key_eq.trans hk.symm) hyx)

theorem newest_union_noVersion (hx : Newest V k r x) (hno : NoVersion R k r) :
    Newest (V ∪ R) k r x := by
  refine ⟨Or.inl hx.mem, hx.key_eq, hx.seq_le, ?_⟩
  rintro y (hy | hy) hk hr
  · exact hx.newest y hy hk hr
  · have := hno y hy hk
    omega

theorem Newest.of_union (hx : Newest (V ∪ R) k r x) (hxV : x ∈ V) : Newest V k r x :=
  ⟨hxV, hx.key_eq, hx.seq_le, fun y hy => hx.newest y (Or.inl hy)⟩

/-- A view stays the same when a closed part is added on both sides. -/
theorem SameView.widen (h : SameView V W k r) (hVW : V ⊆ W) (hWH : W ⊆ H) (hup : UpClosed R H) :
    SameView (V ∪ R) (W ∪ R) k r := by
  intro v
  constructor
  · rintro ⟨x, hx, hv⟩
    by_cases hxR : x ∈ R
    · refine ⟨x, ⟨Or.inr hxR, hx.key_eq, hx.seq_le, ?_⟩, hv⟩
      rintro y (hy | hy) hk hr
      · by_contra hlt
        have hyR : y ∈ R := hup x hxR y (hWH hy) (hk.trans hx.key_eq.symm) (by omega)
        exact hlt (hx.newest y (Or.inr hyR) hk hr)
      · exact hx.newest y (Or.inr hy) hk hr
    · have hno := hup.noVersion (hVW.trans hWH) hx hxR
      have hxV : x ∈ V := hx.mem.resolve_right hxR
      obtain ⟨y, hy, hvy⟩ := (h v).mp ⟨x, hx.of_union hxV, hv⟩
      exact ⟨y, newest_union_noVersion hy hno, hvy⟩
  · rintro ⟨x, hx, hv⟩
    by_cases hxR : x ∈ R
    · exact ⟨x, ⟨Or.inr hxR, hx.key_eq, hx.seq_le,
        fun y hy => hx.newest y (hy.imp (fun hyV => hVW hyV) id)⟩, hv⟩
    · have hno := hup.noVersion hWH hx hxR
      have hxW : x ∈ W := hx.mem.resolve_right hxR
      obtain ⟨y, hy, hvy⟩ := (h v).mpr ⟨x, hx.of_union hxW, hv⟩
      exact ⟨y, newest_union_noVersion hy hno, hvy⟩

theorem Shows.widen (h : Shows V H m) (hR : R ⊆ H) (hup : UpClosed R H) : Shows (V ∪ R) H m := by
  refine ⟨Set.union_subset h.subset hR, ?_⟩
  intro k r hr
  have hsame := (h.same k r hr).widen h.subset subset_rfl hup
  rwa [Set.union_eq_self_of_subset_right hR] at hsame

theorem Shows.extend {N : Set ε} (h : Shows V H m) (hN : ∀ x ∈ H, ∀ y ∈ N, seq x < seq y) :
    Shows (V ∪ N) (H ∪ N) m := by
  refine ⟨Set.union_subset_union_left N h.subset, ?_⟩
  intro k r hr
  have hup : UpClosed N (H ∪ N) := by
    rintro x hx y (hy | hy) _ hs
    · have := hN y hy x hx
      omega
    · exact hy
  exact (h.same k r hr).widen h.subset Set.subset_union_left hup

theorem Shows.collect {m' : Nat} (h : Shows (R ∪ I) H m) (hret : Retains R I O m')
    (hf : Functional (R ∪ I)) (hfin : ∀ k r, (∃ x, Newest (R ∪ I) k r x) ∨ NoVersion (R ∪ I) k r) :
    Shows (R ∪ O) H (max m m') := by
  refine ⟨(Set.union_subset_union_right R hret.subset).trans h.subset, ?_⟩
  intro k r hr
  have hm : m ≤ r := (le_max_left m m').trans hr
  have hm' : m' ≤ r := (le_max_right m m').trans hr
  exact (hret.sameView hf hfin hm').symm.trans (h.same k r hm)

theorem sameView_of_noVersion (hV : NoVersion V k r) (hW : NoVersion W k r) : SameView V W k r := by
  have hnone : ∀ {U : Set ε} {v : ν}, NoVersion U k r → ¬ Sees U k r v := by
    rintro U v hU ⟨x, hx, _⟩
    have := hU x hx.mem hx.key_eq
    have := hx.seq_le
    omega
  intro v
  exact ⟨fun hs => absurd hs (hnone hV), fun hs => absurd hs (hnone hW)⟩

/-! ## The answer of a search -/

/-- `o` is the newest version of `k` not after `r`, if there is one. -/
def Finds (V : Set ε) (k : κ) (r : Nat) (o : Option ε) : Prop :=
  (∃ x, o = some x ∧ Newest V k r x) ∨ (o = none ∧ NoVersion V k r)

theorem Finds.unique {o' : Option ε} (hf : Functional V) (h : Finds V k r o) (h' : Finds V k r o') :
    o = o' := by
  rcases h with ⟨x, rfl, hx⟩ | ⟨rfl, hno⟩ <;> rcases h' with ⟨y, rfl, hy⟩ | ⟨rfl, hno'⟩
  · rw [hx.unique hf hy]
  · exact absurd hx.seq_le (Nat.not_le_of_lt (hno' x hx.mem hx.key_eq))
  · exact absurd hy.seq_le (Nat.not_le_of_lt (hno y hy.mem hy.key_eq))
  · rfl

theorem finds_congr (h : ∀ x, seq x ≤ r → (x ∈ V ↔ x ∈ W)) (hV : Finds V k r o) :
    Finds W k r o := by
  rcases hV with ⟨x, rfl, hx⟩ | ⟨rfl, hno⟩
  · exact Or.inl ⟨x, rfl, (newest_congr h).mp hx⟩
  · refine Or.inr ⟨rfl, fun y hy hk => ?_⟩
    by_contra hle
    exact absurd (hno y ((h y (Nat.le_of_not_lt hle)).mpr hy) hk) hle

theorem Newest.union_older (hx : Newest V k r x)
    (hold : ∀ y ∈ W, key y = k → seq y ≤ r → seq y ≤ seq x) : Newest (V ∪ W) k r x := by
  refine ⟨Or.inl hx.mem, hx.key_eq, hx.seq_le, ?_⟩
  rintro y (hy | hy) hk hr
  · exact hx.newest y hy hk hr
  · exact hold y hy hk hr

theorem NoVersion.union (hV : NoVersion V k r) (hW : NoVersion W k r) : NoVersion (V ∪ W) k r := by
  rintro y (hy | hy) hk
  · exact hV y hy hk
  · exact hW y hy hk

theorem Finds.union_noVersion (hV : NoVersion V k r) (h : Finds W k r o) : Finds (V ∪ W) k r o := by
  rcases h with ⟨x, rfl, hx⟩ | ⟨rfl, hno⟩
  · refine Or.inl ⟨x, rfl, ?_⟩
    rw [Set.union_comm]
    exact newest_union_noVersion hx hV
  · exact Or.inr ⟨rfl, hV.union hno⟩

/-! ## Finite sets as lists -/

variable [DecidableEq κ]

def newest? : List ε → κ → Nat → Option ε
  | [], _, _ => none
  | x :: xs, k, r =>
    match newest? xs k r with
    | none => if key x = k ∧ seq x ≤ r then some x else none
    | some y => if key x = k ∧ seq x ≤ r ∧ seq y < seq x then some x else some y

def visible (xs : List ε) (k : κ) (r : Nat) : Option ν := (newest? xs k r).bind live

def setOf (xs : List ε) : Set ε := {x | x ∈ xs}

omit [DecidableEq κ] [Versioned ε κ ν] in
@[simp] theorem mem_setOf : x ∈ setOf xs ↔ x ∈ xs := Iff.rfl

omit [DecidableEq κ] [Versioned ε κ ν] in
theorem setOf_append (xs ys : List ε) : setOf (xs ++ ys) = setOf xs ∪ setOf ys := by
  ext z
  simp

theorem newest?_spec (xs : List ε) (k : κ) (r : Nat) :
    (∃ x, newest? xs k r = some x ∧ Newest (setOf xs) k r x) ∨
      (newest? xs k r = none ∧ NoVersion (setOf xs) k r) := by
  induction xs with
  | nil => exact Or.inr ⟨rfl, fun x hx => by cases hx⟩
  | cons z zs ih =>
    rcases ih with ⟨y, hy, hn⟩ | ⟨hnone, hno⟩
    · left
      by_cases hz : key z = k ∧ seq z ≤ r ∧ seq y < seq z
      · refine ⟨z, by simp [newest?, hy, hz], List.mem_cons_self, hz.1, hz.2.1, ?_⟩
        intro w hw hk hr
        rcases List.mem_cons.mp hw with rfl | hw
        · exact Nat.le_refl _
        · have := hn.newest w hw hk hr
          omega
      · refine ⟨y, by simp [newest?, hy, hz], List.mem_cons_of_mem z hn.mem, hn.key_eq,
          hn.seq_le, ?_⟩
        intro w hw hk hr
        rcases List.mem_cons.mp hw with rfl | hw
        · by_contra hlt
          exact hz ⟨hk, hr, by omega⟩
        · exact hn.newest w hw hk hr
    · by_cases hz : key z = k ∧ seq z ≤ r
      · left
        refine ⟨z, by simp [newest?, hnone, hz], List.mem_cons_self, hz.1, hz.2, ?_⟩
        intro w hw hk hr
        rcases List.mem_cons.mp hw with rfl | hw
        · exact Nat.le_refl _
        · have := hno w hw hk
          omega
      · right
        refine ⟨by simp [newest?, hnone, hz], ?_⟩
        intro w hw hk
        rcases List.mem_cons.mp hw with rfl | hw
        · by_contra hle
          exact hz ⟨hk, by omega⟩
        · exact hno w hw hk

theorem newest?_eq_some (hf : Functional (setOf xs)) (hx : Newest (setOf xs) k r x) :
    newest? xs k r = some x := by
  rcases newest?_spec xs k r with ⟨y, hy, hn⟩ | ⟨_, hno⟩
  · rw [hy, hn.unique hf hx]
  · have := hno x hx.mem hx.key_eq
    have := hx.seq_le
    omega

theorem newest?_eq_none (h : NoVersion (setOf xs) k r) : newest? xs k r = none := by
  rcases newest?_spec xs k r with ⟨x, _, hn⟩ | ⟨hnone, _⟩
  · have := h x hn.mem hn.key_eq
    have := hn.seq_le
    omega
  · exact hnone

theorem visible_eq_some (hf : Functional (setOf xs)) {v : ν} :
    visible xs k r = some v ↔ Sees (setOf xs) k r v := by
  rcases newest?_spec xs k r with ⟨x, hx, hn⟩ | ⟨hnone, hno⟩
  · simp only [visible, hx, Option.bind_some]
    constructor
    · exact fun hv => ⟨x, hn, hv⟩
    · rintro ⟨y, hy, hv⟩
      rwa [hn.unique hf hy]
  · simp only [visible, hnone, Option.bind_none]
    constructor
    · intro h
      cases h
    · rintro ⟨y, hy, _⟩
      have := hno y hy.mem hy.key_eq
      have := hy.seq_le
      omega

theorem visible_congr {ys : List ε} (hx : Functional (setOf xs)) (hy : Functional (setOf ys))
    (h : SameView (setOf xs) (setOf ys) k r) : visible xs k r = visible ys k r := by
  apply Option.ext
  intro v
  rw [visible_eq_some hx, visible_eq_some hy]
  exact h v

theorem visible_beyond {r' : Nat} (h : ∀ x ∈ xs, seq x ≤ r) (hr : r ≤ r') :
    visible xs k r' = visible xs k r := by
  have hnewest : newest? xs k r' = newest? xs k r := by
    induction xs with
    | nil => rfl
    | cons x xs ih =>
      have hx := h x List.mem_cons_self
      have hx' := hx.trans hr
      simp only [newest?, ih fun y hy => h y (List.mem_cons_of_mem x hy), hx, hx', true_and,
        and_true]
  rw [visible, hnewest, visible]

theorem exists_newest_or (xs : List ε) (k : κ) (r : Nat) :
    (∃ x, Newest (setOf xs) k r x) ∨ NoVersion (setOf xs) k r := by
  rcases newest?_spec xs k r with ⟨x, _, hn⟩ | ⟨_, hno⟩
  · exact Or.inl ⟨x, hn⟩
  · exact Or.inr hno

end KvMem.Versions
