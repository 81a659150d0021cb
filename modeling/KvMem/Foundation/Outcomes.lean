import KvMem.Foundation.FileProgram

/-! # What a reader may find

A file can be read while the process runs and, if the machine may crash, after a
restart. With `c` telling whether crashes happen, the outcomes of a slot are its
present content and, under `c`, whatever survives. Facts about outcomes only get
stronger when another thread syncs the directory or a crash has come.
-/

namespace KvMem.CrashStore

variable {ν α : Type} {c : Prop} {s : Slot α} {xs ys zs : List α} {o : Option (List α)}

namespace Slot

def Outcome (c : Prop) (s : Slot α) (o : Option (List α)) : Prop :=
  o = s.data.map Data.cur ∨ (c ∧ s.Survives o)

def Always (c : Prop) (s : Slot α) (xs : List α) : Prop := ∀ o, s.Outcome c o → o = some xs

/-- The file holds `xs` and a part of what `ys` has behind it. -/
def Within (c : Prop) (s : Slot α) (xs ys : List α) : Prop :=
  ∀ o, s.Outcome c o → ∃ zs, o = some zs ∧ xs <+: zs ∧ zs <+: ys

/-- There is no file, or an empty one. -/
def Unwritten (c : Prop) (s : Slot α) : Prop := ∀ o, s.Outcome c o → o = none ∨ o = some []

/-- The file holds `xs`, synced under a synced name. -/
def Exactly (c : Prop) (s : Slot α) (xs : List α) : Prop :=
  s.data.map Data.cur = some xs ∧ (c → s.Durable xs)

def Gone (c : Prop) (s : Slot α) : Prop := s.data = none ∧ (c → ∀ o, ¬ s.undone o)

/-- Nothing about the slot is open any more. -/
def Firm (c : Prop) (s : Slot α) : Prop := s.Gone c ∨ ∃ xs, s.Exactly c xs

theorem outcome_cur (c : Prop) (s : Slot α) : s.Outcome c (s.data.map Data.cur) := Or.inl rfl

theorem Always.cur (h : s.Always c xs) : s.data.map Data.cur = some xs := h _ (outcome_cur c s)

theorem Always.within (h : s.Always c xs) : s.Within c xs xs :=
  fun o ho => ⟨xs, h o ho, List.prefix_rfl, List.prefix_rfl⟩

theorem Within.cur (h : s.Within c xs ys) :
    ∃ zs, s.data.map Data.cur = some zs ∧ xs <+: zs ∧ zs <+: ys := h _ (outcome_cur c s)

theorem Within.always (h : s.Within c xs xs) : s.Always c xs := by
  intro o ho
  obtain ⟨zs, rfl, hx, hy⟩ := h o ho
  rw [hy.eq_of_length_le hx.length_le]

theorem Within.mono {xs' ys' : List α} (h : s.Within c xs ys) (hx : xs' <+: xs) (hy : ys <+: ys') :
    s.Within c xs' ys' := by
  intro o ho
  obtain ⟨zs, hz, hxz, hzy⟩ := h o ho
  exact ⟨zs, hz, hx.trans hxz, hzy.trans hy⟩

theorem Exactly.always (h : s.Exactly c xs) : s.Always c xs := by
  rintro o (rfl | ⟨hc, ho⟩)
  · exact h.1
  · exact (h.2 hc).survives ho

theorem Durable.exactly (h : s.Durable xs) : s.Exactly c xs := by
  refine ⟨?_, fun _ => h⟩
  rw [h.1]
  rfl

theorem Always.data (h : s.Always c xs) : ∃ d, s.data = some d ∧ d.cur = xs := by
  obtain ⟨d, hd, hx⟩ := Option.map_eq_some_iff.mp h.cur
  exact ⟨d, hd, hx⟩

theorem Always.synced (h : s.Always c xs) (hc : c) {d : Data α} (hd : s.data = some d) :
    d.synced = xs := by
  have hsurv : ∀ ys, d.Survives ys → ys = xs := fun ys hy =>
    Option.some.inj (h _ (Or.inr ⟨hc, Or.inr (Or.inr ⟨d, ys, hd, rfl, hy⟩)⟩))
  have hcur := hsurv _ d.survives_cur
  by_cases h1 : d.synced <+: d.cur
  · exact hsurv _ (Or.inl ⟨List.prefix_rfl, h1⟩)
  · by_cases h2 : d.cur <+: d.synced
    · exact hsurv _ (Or.inr (Or.inl ⟨h2, List.prefix_rfl⟩))
    · have hnil := hsurv [] (Or.inr (Or.inr ⟨h1, h2⟩))
      rw [hcur, ← hnil] at h2
      exact absurd (List.nil_prefix) h2

theorem Gone.outcome (h : s.Gone c) (ho : s.Outcome c o) : o = none := by
  rcases ho with rfl | ⟨hc, ho⟩
  · rw [h.1]
    rfl
  · rcases ho with ho | ⟨_, ho⟩ | ⟨d, xs, hd, _⟩
    · exact (h.2 hc o ho).elim
    · exact ho
    · rw [h.1] at hd
      cases hd

theorem Firm.exactly (h : s.Firm c) (hx : s.data.map Data.cur = some xs) : s.Exactly c xs := by
  rcases h with h | ⟨ys, h⟩
  · rw [h.1] at hx
    cases hx
  · have heq : ys = xs := Option.some.inj (h.1.symm.trans hx)
    exact heq ▸ h

end Slot

open Slot

/-! ## Interference and crashes -/

variable {fs fs' : FS ν α} {n : ν}

theorem Keeps.outcome {keep : ν → Prop} (h : Keeps keep fs fs') (hn : keep n)
    (ho : (fs'.slot n).Outcome c o) : (fs.slot n).Outcome c o := by
  rcases ho with rfl | ⟨hc, ho⟩
  · exact Or.inl (by rw [h.data hn])
  · exact Or.inr ⟨hc, h.survives hn ho⟩

theorem Keeps.exactly {keep : ν → Prop} (h : Keeps keep fs fs') (hn : keep n)
    (hs : (fs.slot n).Exactly c xs) : (fs'.slot n).Exactly c xs :=
  ⟨by rw [h.data hn]; exact hs.1, fun hc => h.durable hn (hs.2 hc)⟩

theorem Keeps.gone {keep : ν → Prop} (h : Keeps keep fs fs') (hn : keep n)
    (hs : (fs.slot n).Gone c) : (fs'.slot n).Gone c := by
  rcases h n hn with e | e <;> rw [e]
  · exact hs
  · exact ⟨hs.1, fun _ _ ho => ho.elim⟩

theorem survives_settled_slot {o' : Option (List α)} (h : (Slot.settled o').Survives o) : o = o' := by
  rcases h with h | ⟨hn, rfl⟩ | ⟨d, xs, hd, rfl, hx⟩
  · exact h.elim
  · cases o' with
    | none => rfl
    | some ys => cases hn
  · cases o' with
    | none => cases hd
    | some ys =>
      cases hd
      rw [Data.survives_settled hx]

theorem Crash.outcome (h : Crash fs fs') (hc : c) (ho : (fs'.slot n).Outcome c o) :
    (fs.slot n).Outcome c o := by
  obtain ⟨o', ho', he⟩ := h n
  have hsame : o = o' := by
    rw [he] at ho
    rcases ho with rfl | ⟨_, ho⟩
    · cases o' <;> rfl
    · exact survives_settled_slot ho
  exact Or.inr ⟨hc, hsame ▸ ho'⟩

theorem Crash.firm (h : Crash fs fs') (n : ν) : (fs'.slot n).Firm c := by
  obtain ⟨o', _, he⟩ := h n
  rw [he]
  cases o' with
  | none => exact Or.inl ⟨rfl, fun _ _ ho => ho.elim⟩
  | some xs => exact Or.inr ⟨xs, rfl, fun _ => ⟨rfl, fun _ ho => ho.elim⟩⟩

theorem Crash.exactly (h : Crash fs fs') (hx : (fs'.slot n).data.map Data.cur = some xs) :
    (fs'.slot n).Exactly c xs :=
  (h.firm n).exactly hx

/-! ## Steps -/

section Steps

variable [DecidableEq ν] {fs : FS ν α} {n : ν}

/-- A file on its way: it reads `zs`, `xs` of it is safe, and its name may be as new
as `b` says. -/
def Tentative (c b : Prop) (s : Slot α) (xs zs : List α) : Prop :=
  ∃ d, s.data = some d ∧ d.cur = zs ∧
    (c → xs <+: d.synced ∧ d.synced <+: d.cur ∧ ∀ o, s.undone o → b ∧ o = none)

/-- What a file on its way may turn out to be. -/
def Grows (c b : Prop) (s : Slot α) (xs ys : List α) : Prop :=
  ∀ o, s.Outcome c o → (b ∧ o = none) ∨ ∃ zs, o = some zs ∧ xs <+: zs ∧ zs <+: ys

omit [DecidableEq ν] in
variable {b : Prop}

theorem Tentative.grows (h : Tentative c b s xs zs) (hxz : xs <+: zs) : Grows c b s xs zs := by
  obtain ⟨d, hd, rfl, hsync⟩ := h
  rintro o (rfl | ⟨hc, ho⟩)
  · exact Or.inr ⟨d.cur, by rw [hd]; rfl, hxz, List.prefix_rfl⟩
  · obtain ⟨h1, h2, h3⟩ := hsync hc
    rcases ho with ho | ⟨hn, _⟩ | ⟨d', zs, hd', rfl, hz⟩
    · exact Or.inl (h3 o ho)
    · rw [hd] at hn
      cases hn
    · rw [hd] at hd'
      cases hd'
      obtain ⟨h4, h5⟩ := Data.survives_of_prefix h2 hz
      exact Or.inr ⟨zs, rfl, h1.trans h4, h5⟩

theorem Grows.mono {xs' ys' : List α} (h : Grows c b s xs ys) (hx : xs' <+: xs) (hy : ys <+: ys') :
    Grows c b s xs' ys' := by
  intro o ho
  refine (h o ho).imp_right ?_
  rintro ⟨zs, hz, hxz, hzy⟩
  exact ⟨zs, hz, hx.trans hxz, hzy.trans hy⟩

theorem Grows.within (h : Grows c b s xs ys) (hb : ¬ b) : s.Within c xs ys :=
  fun o ho => (h o ho).resolve_left fun h' => hb h'.1

theorem Slot.Exactly.tentative (h : s.Exactly c xs) (b : Prop) : Tentative c b s xs xs := by
  obtain ⟨d, hd, hcur⟩ := h.always.data
  refine ⟨d, hd, hcur, fun hc => ?_⟩
  have hdur := h.2 hc
  have hdata : d = ⟨xs, xs⟩ := Option.some.inj (hd.symm.trans hdur.1)
  subst hdata
  exact ⟨List.prefix_rfl, List.prefix_rfl, fun o ho => (hdur.2 o ho).elim⟩

theorem Tentative.exactly (h : Tentative c False s xs xs) : s.Exactly c xs := by
  obtain ⟨d, hd, rfl, hsync⟩ := h
  refine ⟨by rw [hd]; rfl, fun hc => ?_⟩
  obtain ⟨h1, h2, h3⟩ := hsync hc
  have heq : d.synced = d.cur := h2.eq_of_length_le h1.length_le
  refine ⟨?_, fun o ho => (h3 o ho).1⟩
  rw [hd]
  cases d
  simp only at heq
  rw [heq]

theorem Tentative.dirSynced {b' : Prop} (h : Tentative c b s xs zs) :
    Tentative c b' s.dirSynced xs zs := by
  obtain ⟨d, hd, hcur, hsync⟩ := h
  exact ⟨d, hd, hcur, fun hc => ⟨(hsync hc).1, (hsync hc).2.1, fun o ho => ho.elim⟩⟩

theorem append_tentative (h : Tentative c b (fs.slot n) xs zs) (ys : List α) :
    Tentative c b (((Op.append n ys).exec fs).slot n) xs (zs ++ ys) := by
  obtain ⟨d, hd, rfl, hsync⟩ := h
  have hslot : ((Op.append n ys).exec fs).slot n =
      ⟨some ⟨d.synced, d.cur ++ ys⟩, (fs.slot n).undone⟩ := by
    simp [Op.exec, hd]
  rw [hslot]
  refine ⟨_, rfl, rfl, fun hc => ?_⟩
  obtain ⟨h1, h2, h3⟩ := hsync hc
  exact ⟨h1, h2.trans (List.prefix_append _ _), h3⟩

theorem sync_tentative (h : Tentative c b (fs.slot n) xs zs) :
    Tentative c b (((Op.sync n).exec fs).slot n) zs zs := by
  obtain ⟨d, hd, rfl, hsync⟩ := h
  have hslot : ((Op.sync n).exec fs).slot n = ⟨some ⟨d.cur, d.cur⟩, (fs.slot n).undone⟩ := by
    simp [Op.exec, hd]
  rw [hslot]
  exact ⟨_, rfl, rfl, fun hc => ⟨List.prefix_rfl, List.prefix_rfl, (hsync hc).2.2⟩⟩

/-- A file that has been cut to `xs`; a crash may bring back what stood behind it. -/
structure Slot.Cut (c : Prop) (s : Slot α) (xs ys : List α) : Prop where
  within : s.Within c xs ys
  data : ∃ d, s.data = some d ∧ d.cur = xs
  name : c → ∀ o, ¬ s.undone o

omit [DecidableEq ν] in
theorem Slot.Cut.dirSynced (h : s.Cut c xs ys) : s.dirSynced.Cut c xs ys where
  within := by
    rintro o (rfl | ⟨hc, ho⟩)
    · exact h.within _ (outcome_cur c s)
    · exact h.within o (Or.inr ⟨hc, survives_of_dirSynced ho⟩)
  data := h.data
  name := fun _ _ ho => ho

theorem truncate_cut (h : (fs.slot n).Exactly c (xs ++ ys)) :
    (((Op.truncate n xs.length).exec fs).slot n).Cut c xs (xs ++ ys) := by
  obtain ⟨d, hd, hcur⟩ := h.always.data
  have htake : d.cur.take xs.length = xs := by rw [hcur, List.take_left' rfl]
  have hslot : ((Op.truncate n xs.length).exec fs).slot n =
      ⟨some ⟨d.synced, xs⟩, (fs.slot n).undone⟩ := by
    simp [Op.exec, hd, htake]
  rw [hslot]
  refine ⟨?_, ⟨⟨d.synced, xs⟩, rfl, rfl⟩, fun hc o ho => (h.2 hc).2 o ho⟩
  rintro o (rfl | ⟨hc, ho⟩)
  · exact ⟨xs, rfl, List.prefix_rfl, List.prefix_append _ _⟩
  · rcases ho with ho | ⟨hn, _⟩ | ⟨d', zs, hd', rfl, hz⟩
    · exact ((h.2 hc).2 o ho).elim
    · cases hn
    · cases hd'
      have hsync := h.always.synced hc hd
      rw [hsync] at hz
      rcases hz with ⟨h1, h2⟩ | ⟨h1, h2⟩ | ⟨_, h2⟩
      · exact ⟨zs, rfl, (List.prefix_append _ _).trans h1, h2.trans (List.prefix_append _ _)⟩
      · exact ⟨zs, rfl, h1, h2⟩
      · exact absurd (List.prefix_append _ _) h2

theorem sync_cut (h : (fs.slot n).Cut c xs ys) :
    (((Op.sync n).exec fs).slot n).Exactly c xs := by
  obtain ⟨d, hd, rfl⟩ := h.data
  have hslot : ((Op.sync n).exec fs).slot n = ⟨some ⟨d.cur, d.cur⟩, (fs.slot n).undone⟩ := by
    simp [Op.exec, hd]
  rw [hslot]
  exact ⟨rfl, fun hc => ⟨rfl, fun o ho => h.name hc o ho⟩⟩

theorem create_tentative_of_exactly (h : (fs.slot n).Exactly c xs) (b : Prop) :
    Tentative c b (((Op.create n).exec fs).slot n) xs xs := by
  obtain ⟨d, hd, _⟩ := h.always.data
  have hsame : (Op.create n).exec fs = fs := by simp [Op.exec, hd]
  rw [hsame]
  exact h.tentative b

theorem create_tentative_of_none (hd : (fs.slot n).data = none)
    (hu : c → ∀ o, (fs.slot n).undone o → o = none) :
    Tentative c True (((Op.create n).exec fs).slot n) [] [] := by
  have hslot : ((Op.create n).exec fs).slot n = ⟨some ⟨[], []⟩, (fs.slot n).Survives⟩ := by
    simp [Op.exec, hd]
  rw [hslot]
  refine ⟨⟨[], []⟩, rfl, rfl, fun hc => ⟨List.prefix_rfl, List.prefix_rfl, fun o ho => ⟨trivial, ?_⟩⟩⟩
  rcases ho with ho | ⟨_, ho⟩ | ⟨d', zs, hd', _⟩
  · exact hu hc o ho
  · exact ho
  · rw [hd] at hd'
    cases hd'

end Steps

end KvMem.CrashStore
