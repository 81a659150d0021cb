import KvMem.Engine.Threads

/-! # A step of one thread as the others see it

Each program changes the files by one allowed operation at a time, on names it owns.
What that means for everybody else is said once here: the directory stays in order,
the names of the others are as before up to a directory sync, and the file numbers
that have not been handed out stay unused.
-/

namespace KvMem

open CrashStore

/-- No file has a number from `next` on, but perhaps empty logs. -/
def Unused (next : Nat) (dir : Dir) : Prop :=
  ∀ n, next ≤ n → dir.exists (.sst n) = false ∧ EmptyWal n dir

/-- One step that changes only names `touched` describes. -/
structure Gentle (next : Nat) (touched : FileName → Prop) (d d' : Dir) : Prop where
  ambient : Ambient d'
  keeps : Keeps (fun n => ¬ touched n) d d'
  unused : Unused next d → Unused next d'

variable {next : Nat} {touched : FileName → Prop} {d d' : Dir}

theorem Gentle.refl (h : Ambient d) : Gentle next touched d d :=
  ⟨h, Keeps.refl _ d, fun hu => hu⟩

theorem Unused.mono {next' : Nat} (h : Unused next d) (hle : next ≤ next') : Unused next' d :=
  fun n hn => h n (hle.trans hn)

variable {n : Nat} {ρ : Type}

theorem emptyWal_of_data (h : EmptyWal n d)
    (hd : (d'.slot (.wal n)).data = (d.slot (.wal n)).data) : EmptyWal n d' := by
  unfold EmptyWal FS.read at h ⊢
  rwa [hd]

theorem emptyWal_create (h : EmptyWal n d) : EmptyWal n ((Op.create (.wal n)).exec d) := by
  cases hd : (d.slot (.wal n)).data with
  | some x =>
    have hsame : (Op.create (.wal n)).exec d = d := by simp [Op.exec, hd]
    rwa [hsame]
  | none =>
    refine Or.inr ?_
    simp [Op.exec, hd, FS.read]

theorem Gentle.of_fails {o : Op FileName Cell} (hamb : Ambient d) (ha : Allowed o d)
    (ht : ∀ n, o.Touches n → touched n)
    (hsst : ∀ n, next ≤ n → ¬ o.Touches (.sst n))
    (hwal : ∀ n, next ≤ n → o.Touches (.wal n) → o = .create (.wal n))
    (hf : o.Fails d d') : Gentle next touched d d' := by
  refine ⟨hamb.fails ha hf, hf.keeps fun n hn htn => hn (ht n htn), ?_⟩
  intro hu n hn
  obtain ⟨hex, hempty⟩ := hu n hn
  constructor
  · have hkeep : Keeps (fun m => m = .sst n) d d' := hf.keeps fun m hm => hm ▸ hsst n hn
    rw [hkeep.exists rfl]
    exact hex
  · by_cases htn : o.Touches (.wal n)
    · rw [hwal n hn htn] at hf
      rcases hf with rfl | rfl | ⟨m, xs, ys, he, _⟩
      · exact hempty
      · exact emptyWal_create hempty
      · cases he
    · have hkeep : Keeps (fun m => m = .wal n) d d' := hf.keeps fun m hm => hm ▸ htn
      exact emptyWal_of_data hempty (hkeep.data rfl)

section Programs

variable {ρ : Type} {Q : ρ → Dir → Prop} {fault : Op FileName Cell → Prop} {p p' : Prog ρ}

def BuildName (j : Nat) (n : FileName) : Prop := n = .sst j ∨ n = .sstTmp j

theorem build_gentle {j : Nat} (hj : j < next) (h : Safe (buildRely j) Q p d) (ha : Ambient d)
    (hp : ProgStep fault d p d' p') : Gentle next (BuildName j) d d' := by
  rcases h.effect ha hp with rfl | ⟨o, ⟨hal, ht, _⟩, hf⟩
  · exact Gentle.refl ha
  · refine Gentle.of_fails ha hal ht ?_ ?_ hf
    · intro n hn htn
      rcases ht _ htn with he | he
      · cases he
        omega
      · cases he
    · intro n _ htn
      rcases ht _ htn with he | he <;> cases he

theorem remove_gentle {ns : List Nat} (hns : ∀ n ∈ ns, n < next) (h : Safe (removeRely ns) Q p d)
    (ha : Ambient d) (hp : ProgStep fault d p d' p') :
    Gentle next (fun n => ∃ i ∈ ns, n = .sst i) d d' := by
  rcases h.effect ha hp with rfl | ⟨o, ⟨i, hi, rfl⟩, hf⟩
  · exact Gentle.refl ha
  · refine Gentle.of_fails (o := .remove (.sst i)) ha trivial (fun n hn => ⟨i, hi, hn⟩) ?_ ?_ hf
    · intro n hn htn
      have he : n = i := by simpa using (show FileName.sst n = .sst i from htn)
      have := hns i hi
      omega
    · intro n _ htn
      cases (show FileName.wal n = .sst i from htn)

theorem sweep_gentle {oldest : Nat} (hold : oldest ≤ next) (h : Safe (sweepRely oldest) Q p d)
    (ha : Ambient d) (hp : ProgStep fault d p d' p') :
    Gentle next (fun n => ∃ i, i < oldest ∧ n = .wal i) d d' := by
  rcases h.effect ha hp with rfl | ⟨o, rfl | ⟨i, hi, rfl⟩, hf⟩
  · exact Gentle.refl ha
  · exact Gentle.of_fails (o := .syncDir) ha trivial (fun n hn => hn.elim) (fun _ _ hn => hn.elim)
      (fun _ _ hn => hn.elim) hf
  · refine Gentle.of_fails (o := .remove (.wal i)) ha trivial (fun n hn => ⟨i, hi, hn⟩) ?_ ?_ hf
    · intro n _ htn
      cases (show FileName.sst n = .wal i from htn)
    · intro n hn htn
      have he : n = i := by simpa using (show FileName.wal n = .wal i from htn)
      omega

theorem main_gentle {k : Section} (hk : ∀ n, mainName k (.sst n) → n < next)
    (h : Safe (mainRely k next) Q p d) (ha : Ambient d) (hp : ProgStep fault d p d' p') :
    Gentle next (mainName k) d d' := by
  rcases h.effect ha hp with rfl | ⟨o, ⟨hal, ht, _, hwal⟩, hf⟩
  · exact Gentle.refl ha
  · refine Gentle.of_fails ha hal ht ?_ (fun n hn htn => (hwal n hn htn).1) hf
    intro n hn htn
    have := hk n (ht _ htn)
    omega

end Programs

/-! ## Programs under the steps of others -/

variable {Q : ρ → Dir → Prop} {p : Prog ρ}

theorem Gentle.build {j : Nat} (hg : Gentle next touched d d') (hsst : ¬ touched (.sst j))
    (htmp : ¬ touched (.sstTmp j)) (h : Safe (buildRely j) Q p d) : Safe (buildRely j) Q p d' := by
  refine h.keeps (hg.keeps.mono ?_)
  rintro n (rfl | rfl)
  · exact hsst
  · exact htmp

theorem Gentle.remove {ns : List Nat} (hg : Gentle next touched d d')
    (h : Safe (removeRely ns) Q p d) : Safe (removeRely ns) Q p d' :=
  h.keeps (hg.keeps.mono fun _ hn => hn.elim)

theorem Gentle.sweep {oldest : Nat} (hg : Gentle next touched d d')
    (h : Safe (sweepRely oldest) Q p d) : Safe (sweepRely oldest) Q p d' :=
  h.keeps (hg.keeps.mono fun _ hn => hn.elim)

theorem Gentle.main {k : Section} (hg : Gentle next touched d d')
    (hedit : ¬ touched .current ∧ ¬ touched .currentTmp ∧ ¬ touched .manifest)
    (hwal : ∀ i, next ≤ i → ¬ touched (.wal i)) (h : Safe (mainRely k next) Q p d) :
    Safe (mainRely k next) Q p d' := by
  refine h.keeps (hg.keeps.mono ?_)
  rintro n (rfl | rfl | rfl | ⟨i, hi, rfl⟩)
  · exact hedit.1
  · exact hedit.2.1
  · exact hedit.2.2
  · exact hwal i hi

end KvMem
