import Mathlib

/-! # A directory of files that may crash

One flat directory. Every name has a slot: the file it is bound to now, with the
part an `fsync` has made durable, and the outcomes that come back when the
directory changes since the last directory sync are lost. A crash settles every
slot independently on one of its surviving outcomes, so a rename may be half
undone: this allows more outcomes than an ordered directory journal would.
-/

namespace KvMem.CrashStore

variable {ν α : Type}

/-- The content of one file: its durable part and what a reader sees. -/
structure Data (α : Type) where
  synced : List α
  cur : List α

/-- A file keeps what was synced and an arbitrary prefix of what was appended
since; an unsynced truncation may or may not have happened. A file that was
truncated and rewritten without a sync may hold anything. -/
def Data.Survives (d : Data α) (xs : List α) : Prop :=
  (d.synced <+: xs ∧ xs <+: d.cur) ∨ (d.cur <+: xs ∧ xs <+: d.synced) ∨
    (¬ d.synced <+: d.cur ∧ ¬ d.cur <+: d.synced)

theorem Data.survives_cur (d : Data α) : d.Survives d.cur := by
  by_cases h : d.synced <+: d.cur
  · exact Or.inl ⟨h, List.prefix_rfl⟩
  · by_cases h' : d.cur <+: d.synced
    · exact Or.inr (Or.inl ⟨List.prefix_rfl, h'⟩)
    · exact Or.inr (Or.inr ⟨h, h'⟩)

theorem Data.survives_synced (d : Data α) : d.Survives d.synced := by
  by_cases h : d.synced <+: d.cur
  · exact Or.inl ⟨List.prefix_rfl, h⟩
  · by_cases h' : d.cur <+: d.synced
    · exact Or.inr (Or.inl ⟨h', List.prefix_rfl⟩)
    · exact Or.inr (Or.inr ⟨h, h'⟩)

variable {xs : List α} {d : Data α} {b : Option (List α) → Prop} {o : Option (List α)} {n : ν}

theorem Data.survives_settled {ys : List α} (h : Data.Survives ⟨xs, xs⟩ ys) : ys = xs := by
  rcases h with ⟨h₁, h₂⟩ | ⟨h₁, h₂⟩ | ⟨h, _⟩
  · exact h₂.eq_of_length_le h₁.length_le
  · exact h₂.eq_of_length_le h₁.length_le
  · exact absurd List.prefix_rfl h

theorem Data.survives_of_prefix (hd : d.synced <+: d.cur) (h : d.Survives xs) :
    d.synced <+: xs ∧ xs <+: d.cur := by
  rcases h with h | ⟨h₁, h₂⟩ | ⟨h, _⟩
  · exact h
  · have hlen := h₁.length_le.trans h₂.length_le
    have he : d.synced = d.cur := hd.eq_of_length_le hlen
    rw [he] at h₂ ⊢
    exact ⟨h₁, h₂⟩
  · exact absurd hd h

/-- One name of the directory. `undone` holds the outcomes of the bindings that
an unsynced directory change has replaced. -/
structure Slot (α : Type) where
  data : Option (Data α)
  undone : Option (List α) → Prop

def Slot.Survives (s : Slot α) (o : Option (List α)) : Prop :=
  s.undone o ∨ (s.data = none ∧ o = none) ∨ ∃ d xs, s.data = some d ∧ o = some xs ∧ d.Survives xs

def Slot.dirSynced (s : Slot α) : Slot α := ⟨s.data, fun _ => False⟩

/-- A slot on which every crash has already been decided. -/
def Slot.settled (o : Option (List α)) : Slot α :=
  ⟨o.map fun xs => ⟨xs, xs⟩, fun _ => False⟩

/-- The exact binding of a slot, with a bound on what a lost change may bring back. -/
def Slot.Is (s : Slot α) (d : Option (Data α)) (back : Option (List α) → Prop) : Prop :=
  s.data = d ∧ ∀ o, s.undone o → back o

/-- The slot holds `xs`, now and after any crash. -/
def Slot.Durable (s : Slot α) (xs : List α) : Prop :=
  s.Is (some ⟨xs, xs⟩) (fun _ => False)

def Slot.Absent (s : Slot α) : Prop := s.Is none (fun _ => False)

variable {s : Slot α}

theorem Slot.Is.dirSynced {d : Option (Data α)} {b' : Option (List α) → Prop} (h : s.Is d b) :
    s.dirSynced.Is d b' :=
  ⟨h.1, fun _ ho => ho.elim⟩

@[simp] theorem Slot.dirSynced_dirSynced (s : Slot α) : s.dirSynced.dirSynced = s.dirSynced := rfl

theorem Slot.survives_data (h : s.data = some d) : s.Survives (some d.cur) :=
  Or.inr (Or.inr ⟨d, d.cur, h, rfl, d.survives_cur⟩)

theorem Slot.Is.survives_some (h : s.Is (some d) b) (ho : s.Survives o) :
    b o ∨ ∃ xs, o = some xs ∧ d.Survives xs := by
  rcases ho with ho | ⟨hn, _⟩ | ⟨d', xs, hd, rfl, hx⟩
  · exact Or.inl (h.2 o ho)
  · rw [h.1] at hn
    cases hn
  · rw [h.1] at hd
    cases hd
    exact Or.inr ⟨xs, rfl, hx⟩

theorem Slot.Durable.survives (h : s.Durable xs) (ho : s.Survives o) : o = some xs := by
  rcases h.survives_some ho with hf | ⟨ys, rfl, hy⟩
  · exact hf.elim
  · rw [Data.survives_settled hy]

theorem Slot.survives_of_dirSynced (h : s.dirSynced.Survives o) : s.Survives o :=
  h.elim False.elim Or.inr

/-- The directory. `names` lists at least every name that is bound or can come
back, so that it can be enumerated. -/
structure FS (ν α : Type) where
  names : List ν
  slot : ν → Slot α
  named : ∀ n xs, (slot n).Survives (some xs) → n ∈ names

variable [DecidableEq ν]

def FS.set (fs : FS ν α) (n : ν) (s : Slot α) : FS ν α where
  names := n :: fs.names
  slot := Function.update fs.slot n s
  named := by
    intro m xs h
    by_cases hm : m = n
    · exact hm ▸ List.mem_cons_self
    · rw [Function.update_of_ne hm] at h
      exact List.mem_cons_of_mem n (fs.named m xs h)

@[simp] theorem FS.set_slot_self (fs : FS ν α) (n : ν) (s : Slot α) : (fs.set n s).slot n = s := by
  simp [FS.set]

theorem FS.set_slot_ne (fs : FS ν α) {m : ν} (s : Slot α) (h : m ≠ n) :
    (fs.set n s).slot m = fs.slot m := by
  simp [FS.set, h]

def FS.empty : FS ν α where
  names := []
  slot := fun _ => ⟨none, fun _ => False⟩
  named := by
    intro n xs h
    rcases h with h | ⟨_, h⟩ | ⟨d, _, h, _⟩
    · exact h.elim
    · cases h
    · cases h

def FS.read (fs : FS ν α) (n : ν) : Option (List α) := (fs.slot n).data.map Data.cur

def FS.exists (fs : FS ν α) (n : ν) : Bool := (fs.slot n).data.isSome

def FS.list (fs : FS ν α) : List ν := (fs.names.filter fs.exists).dedup

variable {fs fs' : FS ν α}

theorem FS.mem_list : n ∈ fs.list ↔ fs.exists n = true := by
  simp only [FS.list, List.mem_dedup, List.mem_filter, and_iff_right_iff_imp]
  intro h
  obtain ⟨d, hd⟩ := Option.isSome_iff_exists.mp h
  exact fs.named n d.cur (Slot.survives_data hd)

theorem FS.list_nodup (fs : FS ν α) : fs.list.Nodup := List.nodup_dedup _

omit [DecidableEq ν] in
theorem FS.exists_eq_read (fs : FS ν α) (n : ν) : fs.exists n = (fs.read n).isSome := by
  simp [FS.exists, FS.read]

omit [DecidableEq ν] in
theorem FS.read_of_is {d : Option (Data α)} (h : (fs.slot n).Is d b) :
    fs.read n = d.map Data.cur := by
  simp [FS.read, h.1]

/-! ## Elementary file steps -/

inductive Op (ν α : Type) where
  | probe (n : ν)
  /-- Open for append, creating the file when it is missing. -/
  | create (n : ν)
  /-- Open for writing from scratch. -/
  | reset (n : ν)
  | append (n : ν) (xs : List α)
  | truncate (n : ν) (size : Nat)
  | sync (n : ν)
  | rename (a b : ν)
  | remove (n : ν)
  | syncDir

def Op.Touches : Op ν α → ν → Prop
  | .create n, m | .reset n, m | .append n _, m | .truncate n _, m | .sync n, m
  | .remove n, m => m = n
  | .rename a b, m => m = a ∨ m = b
  | .probe _, _ | .syncDir, _ => False

def Op.exec : Op ν α → FS ν α → FS ν α
  | .probe _, fs => fs
  | .create n, fs =>
    match (fs.slot n).data with
    | some _ => fs
    | none => fs.set n ⟨some ⟨[], []⟩, (fs.slot n).Survives⟩
  | .reset n, fs =>
    match (fs.slot n).data with
    | some d => fs.set n ⟨some ⟨d.synced, []⟩, (fs.slot n).undone⟩
    | none => fs.set n ⟨some ⟨[], []⟩, (fs.slot n).Survives⟩
  | .append n xs, fs =>
    match (fs.slot n).data with
    | some d => fs.set n ⟨some ⟨d.synced, d.cur ++ xs⟩, (fs.slot n).undone⟩
    | none => fs
  | .truncate n size, fs =>
    match (fs.slot n).data with
    | some d => fs.set n ⟨some ⟨d.synced, d.cur.take size⟩, (fs.slot n).undone⟩
    | none => fs
  | .sync n, fs =>
    match (fs.slot n).data with
    | some d => fs.set n ⟨some ⟨d.cur, d.cur⟩, (fs.slot n).undone⟩
    | none => fs
  | .rename a b, fs =>
    match (fs.slot a).data with
    | some d =>
      (fs.set a ⟨none, (fs.slot a).Survives⟩).set b ⟨some d, (fs.slot b).Survives⟩
    | none => fs
  | .remove n, fs =>
    match (fs.slot n).data with
    | some _ => fs.set n ⟨none, (fs.slot n).Survives⟩
    | none => fs
  | .syncDir, fs =>
    { fs with
      slot := fun n => (fs.slot n).dirSynced
      named := by
        intro n xs h
        refine fs.named n xs ?_
        rcases h with h | h | h
        · exact h.elim
        · exact Or.inr (Or.inl h)
        · exact Or.inr (Or.inr h) }

/-- A failed call has done nothing, all of its work or, when it appends, an
arbitrary prefix of it. -/
def Op.Fails (o : Op ν α) (fs fs' : FS ν α) : Prop :=
  fs' = fs ∨ fs' = o.exec fs ∨
    ∃ n xs ys, o = .append n xs ∧ ys <+: xs ∧ fs' = (Op.append n ys).exec fs

def Crash (fs fs' : FS ν α) : Prop :=
  ∀ n, ∃ o, (fs.slot n).Survives o ∧ fs'.slot n = Slot.settled o

/-- The crash in which every file keeps its name and what was synced, and no more. -/
def FS.unsyncedLost (fs : FS ν α) : FS ν α where
  names := fs.names
  slot n := Slot.settled ((fs.slot n).data.map Data.synced)
  named := by
    intro n xs h
    cases hd : (fs.slot n).data with
    | none =>
      rw [hd] at h
      rcases h with h | ⟨_, h⟩ | ⟨d, ys, h, _⟩
      · exact h.elim
      · cases h
      · cases h
    | some d => exact fs.named n d.cur (Slot.survives_data hd)

omit [DecidableEq ν] in
theorem FS.unsyncedLost_crash (fs : FS ν α) : Crash fs fs.unsyncedLost := by
  intro n
  refine ⟨_, ?_, rfl⟩
  cases hd : (fs.slot n).data with
  | none => exact Or.inr (Or.inl ⟨hd, rfl⟩)
  | some d => exact Or.inr (Or.inr ⟨d, d.synced, hd, rfl, d.survives_synced⟩)

/-! ## Frame conditions -/

/-- The slots named by `keep` are as before, up to a directory sync. -/
def Keeps (keep : ν → Prop) (fs fs' : FS ν α) : Prop :=
  ∀ n, keep n → fs'.slot n = fs.slot n ∨ fs'.slot n = (fs.slot n).dirSynced

omit [DecidableEq ν] in
theorem Keeps.refl (keep : ν → Prop) (fs : FS ν α) : Keeps keep fs fs := fun _ _ => Or.inl rfl

omit [DecidableEq ν] in
theorem Keeps.trans {keep : ν → Prop} {fs₁ fs₂ fs₃ : FS ν α} (h₁ : Keeps keep fs₁ fs₂)
    (h₂ : Keeps keep fs₂ fs₃) : Keeps keep fs₁ fs₃ := by
  intro n hn
  rcases h₁ n hn with e₁ | e₁ <;> rcases h₂ n hn with e₂ | e₂ <;> rw [e₂, e₁] <;> simp

omit [DecidableEq ν] in
theorem Keeps.mono {keep keep' : ν → Prop} (h : Keeps keep fs fs') (hk : ∀ n, keep' n → keep n) :
    Keeps keep' fs fs' := fun n hn => h n (hk n hn)

omit [DecidableEq ν] in
theorem Keeps.is {keep : ν → Prop} {d : Option (Data α)} (h : Keeps keep fs fs') (hn : keep n)
    (hs : (fs.slot n).Is d b) : (fs'.slot n).Is d b := by
  rcases h n hn with e | e <;> rw [e]
  · exact hs
  · exact hs.dirSynced

omit [DecidableEq ν] in
theorem Keeps.survives {keep : ν → Prop} (h : Keeps keep fs fs') (hn : keep n)
    (ho : (fs'.slot n).Survives o) : (fs.slot n).Survives o := by
  rcases h n hn with e | e <;> rw [e] at ho
  · exact ho
  · exact Slot.survives_of_dirSynced ho

omit [DecidableEq ν] in
theorem Keeps.data {keep : ν → Prop} (h : Keeps keep fs fs') (hn : keep n) :
    (fs'.slot n).data = (fs.slot n).data := by
  rcases h n hn with e | e <;> rw [e]
  rfl

omit [DecidableEq ν] in
theorem Keeps.read {keep : ν → Prop} (h : Keeps keep fs fs') (hn : keep n) :
    fs'.read n = fs.read n := by
  simp only [FS.read, h.data hn]

omit [DecidableEq ν] in
theorem Keeps.exists {keep : ν → Prop} (h : Keeps keep fs fs') (hn : keep n) :
    fs'.exists n = fs.exists n := by
  simp only [FS.exists, h.data hn]

omit [DecidableEq ν] in
theorem Keeps.durable {keep : ν → Prop} (h : Keeps keep fs fs') (hn : keep n)
    (hs : (fs.slot n).Durable xs) : (fs'.slot n).Durable xs := h.is hn hs

theorem Op.exec_frame (o : Op ν α) (fs : FS ν α) (n : ν) (h : ¬ o.Touches n) :
    (o.exec fs).slot n = fs.slot n ∨ (o.exec fs).slot n = (fs.slot n).dirSynced := by
  cases o with
  | probe m => exact Or.inl rfl
  | syncDir => exact Or.inr rfl
  | rename a b =>
    left
    simp only [Op.Touches, not_or] at h
    simp only [Op.exec]
    split
    · rw [FS.set_slot_ne _ _ h.2, FS.set_slot_ne _ _ h.1]
    · rfl
  | create m | reset m | append m xs | truncate m k | sync m | remove m =>
    left
    simp only [Op.Touches] at h
    simp only [Op.exec]
    split <;> first | rfl | exact FS.set_slot_ne _ _ h

theorem Op.exec_keeps (o : Op ν α) (fs : FS ν α) {keep : ν → Prop}
    (h : ∀ n, keep n → ¬ o.Touches n) : Keeps keep fs (o.exec fs) :=
  fun n hn => o.exec_frame fs n (h n hn)

theorem Op.Fails.keeps {o : Op ν α} (hf : o.Fails fs fs') {keep : ν → Prop}
    (h : ∀ n, keep n → ¬ o.Touches n) : Keeps keep fs fs' := by
  rcases hf with rfl | rfl | ⟨n, xs, ys, rfl, _, rfl⟩
  · exact Keeps.refl keep fs'
  · exact o.exec_keeps fs h
  · exact Op.exec_keeps (.append n ys) fs (fun m hm => h m hm)

theorem Op.exec_data (o : Op ν α) (fs : FS ν α) (h : ¬ o.Touches n) :
    ((o.exec fs).slot n).data = (fs.slot n).data := by
  rcases o.exec_frame fs n h with e | e <;> rw [e]
  rfl

theorem Op.exec_exists (o : Op ν α) (fs : FS ν α) (h : ¬ o.Touches n) :
    (o.exec fs).exists n = fs.exists n := by
  simp only [FS.exists, o.exec_data fs h]

theorem Op.exec_read (o : Op ν α) (fs : FS ν α) (h : ¬ o.Touches n) :
    (o.exec fs).read n = fs.read n := by
  simp only [FS.read, o.exec_data fs h]

/-! ## What each step makes of a slot -/

section Slots

variable {fs : FS ν α} {n : ν} {b : Option (List α) → Prop}

theorem Op.reset_data (fs : FS ν α) (n : ν) :
    ∃ ys, (((Op.reset n).exec fs).slot n).data = some ⟨ys, []⟩ := by
  simp only [Op.exec]
  split
  · exact ⟨_, by rw [FS.set_slot_self]⟩
  · exact ⟨[], by rw [FS.set_slot_self]⟩

theorem Op.append_data {d : Data α} (xs : List α) (h : (fs.slot n).data = some d) :
    (((Op.append n xs).exec fs).slot n).data = some ⟨d.synced, d.cur ++ xs⟩ := by
  simp [Op.exec, h]

theorem Op.sync_data {d : Data α} (h : (fs.slot n).data = some d) :
    (((Op.sync n).exec fs).slot n).data = some ⟨d.cur, d.cur⟩ := by
  simp [Op.exec, h]

theorem Op.rename_data {a : ν} {d : Data α} (h : (fs.slot a).data = some d) :
    (((Op.rename a n).exec fs).slot n).data = some d := by
  simp [Op.exec, h]

theorem Op.truncate_is {d : Data α} (k : Nat) (h : (fs.slot n).Is (some d) b) :
    (((Op.truncate n k).exec fs).slot n).Is (some ⟨d.synced, d.cur.take k⟩) b := by
  simp only [Op.exec, h.1]
  exact ⟨by simp, fun o ho => h.2 o (by simpa using ho)⟩

theorem Op.syncDir_is {d : Option (Data α)} {b' : Option (List α) → Prop}
    (h : (fs.slot n).Is d b) : (((Op.syncDir : Op ν α).exec fs).slot n).Is d b' :=
  h.dirSynced

end Slots

end KvMem.CrashStore
