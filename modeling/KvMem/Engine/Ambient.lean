import KvMem.Engine.System

/-! # What every thread maintains about the files

Whatever fails and whenever the machine crashes: only names the engine writes are
bound, a table file holds a complete table, and `CURRENT` names the edit log. An
operation is allowed when it keeps this up; the programs of all threads perform
allowed operations only, each on names of its own.
-/

namespace KvMem

open CrashStore

/-- The names the engine writes. The last file number is never handed out. -/
def FileName.Proper : FileName → Prop
  | .current | .currentTmp | .manifest => True
  | .wal n | .sst n | .sstTmp n => 1 ≤ n ∧ n < maxUInt64
  | .other _ => False

structure TableOk (t : TableFile) : Prop where
  laid : t.Laid
  keys : ∀ e ∈ t.entries, KeyOk e.key

structure Ambient (dir : Dir) : Prop where
  proper : ∀ n xs, (dir.slot n).Survives (some xs) → n.Proper
  tables : ∀ n xs, (dir.slot (.sst n)).Survives (some xs) → ∃ t, xs = [.table t] ∧ TableOk t
  current : ∀ xs, (dir.slot .current).Survives (some xs) →
    xs = toCells (Manifest.currentBytes .manifest)

def FileName.Plain (n : FileName) : Prop := n.Proper ∧ (∀ i, n ≠ .sst i) ∧ n ≠ .current

/-- What may be renamed to a name. -/
def Fits : FileName → List Cell → Prop
  | .sst n, xs => (1 ≤ n ∧ n < maxUInt64) ∧ ∃ t, xs = [.table t] ∧ TableOk t
  | .current, xs => xs = toCells (Manifest.currentBytes .manifest)
  | _, _ => False

/-- The operations that keep the directory in order. -/
def Allowed (o : Op FileName Cell) (dir : Dir) : Prop :=
  match o with
  | .create n | .reset n | .append n _ | .truncate n _ => n.Plain
  | .rename a b => ∃ xs, (dir.slot a).data = some ⟨xs, xs⟩ ∧ Fits b xs
  | .probe _ | .sync _ | .remove _ | .syncDir => True

variable {n m : FileName} {xs : List Cell} {dir dir' : Dir} {o : Op FileName Cell}

theorem Fits.proper (h : Fits n xs) : n.Proper := by
  cases n with
  | sst i => exact h.1
  | current => trivial
  | currentTmp | manifest | wal i | sstTmp i | other x => exact h.elim

/-- The directory is in order when each surviving content is an old one, sits under
an unrestricted name or fits its name. -/
theorem Ambient.of_survives (h : Ambient dir)
    (hs : ∀ n xs, (dir'.slot n).Survives (some xs) →
      (dir.slot n).Survives (some xs) ∨ n.Plain ∨ Fits n xs) : Ambient dir' := by
  constructor
  · intro n xs hx
    rcases hs n xs hx with hx | hx | hx
    · exact h.proper n xs hx
    · exact hx.1
    · exact hx.proper
  · intro n xs hx
    rcases hs _ xs hx with hx | hx | hx
    · exact h.tables n xs hx
    · exact absurd rfl (hx.2.1 n)
    · exact hx.2
  · intro xs hx
    rcases hs _ xs hx with hx | hx | hx
    · exact h.current xs hx
    · exact absurd rfl hx.2.2
    · exact hx

theorem survives_of_frame {x : Option (List Cell)} (hx : ((o.exec dir).slot m).Survives x)
    (hm : ¬ o.Touches m) : (dir.slot m).Survives x := by
  rcases o.exec_frame dir m hm with e | e <;> rw [e] at hx
  · exact hx
  · exact Slot.survives_of_dirSynced hx

theorem survives_of_sync (h : (((Op.sync n).exec dir).slot m).Survives (some xs)) :
    (dir.slot m).Survives (some xs) := by
  by_cases hm : m = n
  · subst hm
    simp only [Op.exec] at h
    split at h
    · rename_i d hd
      rw [FS.set_slot_self] at h
      rcases h with h | ⟨_, h⟩ | ⟨d', ys, hd', hy, hs⟩
      · exact Or.inl h
      · cases h
      · cases hd'
        cases hy
        rw [Data.survives_settled hs]
        exact Slot.survives_data hd
    · exact h
  · exact survives_of_frame h hm

theorem survives_of_remove (h : (((Op.remove n).exec dir).slot m).Survives (some xs)) :
    (dir.slot m).Survives (some xs) := by
  by_cases hm : m = n
  · subst hm
    simp only [Op.exec] at h
    split at h
    · rw [FS.set_slot_self] at h
      rcases h with h | ⟨_, h⟩ | ⟨d', ys, hd', _⟩
      · exact h
      · cases h
      · cases hd'
    · exact h
  · exact survives_of_frame h hm

theorem survives_of_rename {a b : FileName} {ys : List Cell}
    (ha : (dir.slot a).data = some ⟨ys, ys⟩)
    (h : (((Op.rename a b).exec dir).slot m).Survives (some xs)) :
    (dir.slot m).Survives (some xs) ∨ (m = b ∧ xs = ys) := by
  simp only [Op.exec, ha] at h
  by_cases hb : m = b
  · subst hb
    rw [FS.set_slot_self] at h
    rcases h with h | ⟨hn, _⟩ | ⟨d, zs, hd, hz, hs⟩
    · exact Or.inl h
    · cases hn
    · cases hd
      cases hz
      exact Or.inr ⟨rfl, Data.survives_settled hs⟩
  · rw [FS.set_slot_ne _ _ hb] at h
    by_cases hm : m = a
    · subst hm
      rw [FS.set_slot_self] at h
      rcases h with h | ⟨_, h⟩ | ⟨d, zs, hd, _⟩
      · exact Or.inl h
      · cases h
      · cases hd
    · rw [FS.set_slot_ne _ _ hm] at h
      exact Or.inl h

/-- An allowed operation that succeeds keeps the directory in order. -/
theorem Ambient.exec (h : Ambient dir) (ho : Allowed o dir) : Ambient (o.exec dir) := by
  apply h.of_survives
  intro m xs hx
  cases o with
  | probe n => exact Or.inl hx
  | syncDir => exact Or.inl (Slot.survives_of_dirSynced hx)
  | sync n => exact Or.inl (survives_of_sync hx)
  | remove n => exact Or.inl (survives_of_remove hx)
  | rename a b =>
    obtain ⟨ys, ha, hf⟩ := ho
    rcases survives_of_rename ha hx with hx | ⟨rfl, rfl⟩
    · exact Or.inl hx
    · exact Or.inr (Or.inr hf)
  | create n | reset n | append n ys | truncate n k =>
    by_cases hm : m = n
    · exact Or.inr (Or.inl (hm ▸ ho))
    · exact Or.inl (survives_of_frame hx hm)

theorem Ambient.fails (h : Ambient dir) (ho : Allowed o dir) (hf : o.Fails dir dir') :
    Ambient dir' := by
  rcases hf with rfl | rfl | ⟨n, xs, ys, rfl, _, rfl⟩
  · exact h
  · exact h.exec ho
  · exact Ambient.exec (o := .append n ys) h ho

theorem Ambient.crash (h : Ambient dir) (hc : Crash dir dir') : Ambient dir' := by
  apply h.of_survives
  intro n xs hx
  left
  obtain ⟨o, ho, he⟩ := hc n
  rw [he] at hx
  cases o with
  | none =>
    rcases hx with hx | ⟨_, hx⟩ | ⟨d, zs, hd, _⟩
    · exact hx.elim
    · cases hx
    · cases hd
  | some ys =>
    rcases hx with hx | ⟨_, hx⟩ | ⟨d, zs, hd, hz, hs⟩
    · exact hx.elim
    · cases hx
    · cases hd
      cases hz
      rw [Data.survives_settled hs]
      exact ho

theorem ambient_empty : Ambient (FS.empty : Dir) := by
  have hnone : ∀ n xs, ¬ (((FS.empty : Dir).slot n).Survives (some xs)) := by
    rintro n xs (h | ⟨_, h⟩ | ⟨d, _, h, _⟩)
    · exact h
    · cases h
    · cases h
  exact ⟨fun n xs h => absurd h (hnone n xs), fun n xs h => absurd h (hnone _ xs),
    fun xs h => absurd h (hnone _ xs)⟩

theorem Ambient.proper_of_exists (h : Ambient dir) (hn : dir.exists n = true) : n.Proper := by
  obtain ⟨d, hd⟩ := Option.isSome_iff_exists.mp hn
  exact h.proper n d.cur (Slot.survives_data hd)

theorem Ambient.mem_sstNumbers (h : Ambient dir) {n : Nat} :
    n ∈ sstNumbers dir ↔ dir.exists (.sst n) = true := by
  simp only [sstNumbers, List.mem_filterMap, FS.mem_list]
  constructor
  · rintro ⟨f, hf, hn⟩
    have hp := h.proper_of_exists hf
    cases f with
    | sst i =>
      rw [sstNumber?_sst (by have := hp.1; omega) (Nat.le_of_lt hp.2)] at hn
      cases hn
      exact hf
    | other x => exact hp.elim
    | current | currentTmp | manifest | wal i | sstTmp i =>
      rw [sstNumber?_eq_none (by intro i; simp) (by intro x; simp)] at hn
      cases hn
  · intro hn
    have hp := h.proper_of_exists hn
    exact ⟨.sst n, hn, sstNumber?_sst (by have := hp.1; omega) (Nat.le_of_lt hp.2)⟩

theorem Ambient.mem_walNumbers (h : Ambient dir) {n : Nat} :
    n ∈ walNumbers dir ↔ dir.exists (.wal n) = true := by
  simp only [walNumbers, List.mem_filterMap, FS.mem_list]
  constructor
  · rintro ⟨f, hf, hn⟩
    have hp := h.proper_of_exists hf
    cases f with
    | wal i =>
      rw [walNumber?_wal (by have := hp.1; omega) (Nat.le_of_lt hp.2)] at hn
      cases hn
      exact hf
    | other x => exact hp.elim
    | current | currentTmp | manifest | sst i | sstTmp i =>
      rw [walNumber?_eq_none (by intro i; simp) (by intro x; simp)] at hn
      cases hn
  · intro hn
    have hp := h.proper_of_exists hn
    exact ⟨.wal n, hn, walNumber?_wal (by have := hp.1; omega) (Nat.le_of_lt hp.2)⟩

/-! ## Programs -/

section Attempt

variable {R : Rely FileName Cell} {ρ : Type} {Q : ρ → Dir → Prop} {o : Op FileName Cell}
  {fail k : Prog ρ} {dir : Dir}

theorem safe_attempt {A : Dir → Prop} (hA : Stable R A) (h : A dir)
    (hc : ∀ d, A d → R.ambient d → R.crash d ∧ R.may o d)
    (hs : ∀ d, A d → R.ambient d → Safe R Q k (o.exec d))
    (hf : R.fault o → ∀ d d', A d → R.ambient d → o.Fails d d' → Safe R Q fail d') :
    Safe R Q (attempt o fail k) dir := by
  apply Safe.op_intro hA h hc
  · intro d hd ha
    exact hs d hd ha
  · intro hfault d d' hd ha hfs
    exact hf hfault d d' hd ha hfs

theorem safe_attempt_free (hc : ∀ d, R.ambient d → R.crash d ∧ R.may o d)
    (hs : ∀ d, Safe R Q k d) (hf : ∀ d, Safe R Q fail d) :
    Safe R Q (attempt o fail k) dir :=
  safe_attempt (A := fun _ => True) (fun _ _ _ _ => trivial) trivial (fun d _ ha => hc d ha)
    (fun d _ _ => hs (o.exec d)) (fun _ _ d' _ _ _ => hf d')

theorem safe_ret_free {r : ρ} (h : ∀ d, R.ambient d → R.crash d ∧ Q r d) :
    Safe R Q (.ret r) dir :=
  fun d _ ha => h d ha

end Attempt

end KvMem
