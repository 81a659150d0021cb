import KvMem.Engine.Stored
import KvMem.Engine.Threads

/-! # Sections and the files

What the sections of a running database leave in the directory, and that a crash in
the middle leaves something recoverable. Here no operation of a section fails; the
other threads may do to their own names whatever they like.
-/

namespace KvMem

open CrashStore RecordLog FileProg Manifest

/-! ## Steps of a section -/

/-- The names nobody else touches while a section runs. -/
def Guarded (w : Nat) (live : List Nat) (n : FileName) : Prop :=
  n = .current ∨ n = .currentTmp ∨ n = .manifest ∨ Stores w live n

def sectionRely (c : Prop) (H I : List WALBatchRecord) (w : Nat) (live : List Nat) :
    Rely FileName Cell where
  fault := fun _ => False
  may := fun _ _ => True
  keep := Guarded w live
  ambient := Ambient
  crash := fun d => c → Recoverable c H I w live d

/-- A property that only depends on the names of `keep`. -/
def Framed (keep : FileName → Prop) (F : Dir → Prop) : Prop :=
  ∀ d d', Keeps keep d d' → F d → F d'

def Lasting (Q : Slot Cell → Prop) : Prop := ∀ s, Q s → Q s.dirSynced

theorem Framed.exec {keep : FileName → Prop} {F : Dir → Prop} (hF : Framed keep F)
    {o : Op FileName Cell} {d : Dir} (ht : ∀ n, o.Touches n → ¬ keep n) (hd : F d) : F (o.exec d) :=
  hF d _ (o.exec_keeps d fun n hn htn => ht n htn hn) hd

theorem Lasting.slot {Q : Slot Cell → Prop} (hQ : Lasting Q) {keep : FileName → Prop} {d d' : Dir}
    (hk : Keeps keep d d') {n : FileName} (hn : keep n) (h : Q (d.slot n)) : Q (d'.slot n) := by
  rcases hk n hn with e | e <;> rw [e]
  · exact h
  · exact hQ _ h

theorem lasting_exactly (c : Prop) (xs : List Cell) : Lasting fun s => s.Exactly c xs :=
  fun _ h => ⟨h.1, fun hc => (h.2 hc).dirSynced⟩

theorem lasting_tentative (c b : Prop) (xs zs : List Cell) : Lasting fun s => Tentative c b s xs zs :=
  fun _ h => h.dirSynced

theorem lasting_logHolds (c : Prop) (rs : List WALBatchRecord) : Lasting fun s => LogHolds c s rs :=
  fun _ h => h.imp (fun h => ⟨h.1, h.2.1, fun _ _ ho => ho.elim⟩) fun h =>
    lasting_exactly c _ _ h

section

variable {c : Prop} {H I : List WALBatchRecord} {w : Nat} {live : List Nat} {F : Dir → Prop}
  {keep : FileName → Prop} {nm : FileName} {Q : Slot Cell → Prop} {dir : Dir} {ρ : Type}
  {Post : ρ → Dir → Prop}

theorem section_stable (hF : Framed keep F) (hkeep : ∀ n, keep n → Guarded w live n)
    (hnm : Guarded w live nm) (hQ : Lasting Q) :
    Stable (sectionRely c H I w live) fun d => F d ∧ Q (d.slot nm) :=
  fun d d' h hk => ⟨hF d d' (hk.mono hkeep) h.1, hQ.slot hk hnm h.2⟩

theorem section_attempt (N : Slot Cell → Prop) (hF : Framed keep F) (hkeep : ∀ n, keep n → Guarded w live n)
    (hnm : Guarded w live nm) (hQ : Lasting Q) {o : Op FileName Cell} {fail k : Prog ρ}
    (ht : ∀ n, o.Touches n → ¬ keep n)
    (hcr : ∀ d, F d → Q (d.slot nm) → c → Recoverable c H I w live d)
    (hexec : ∀ d : Dir, Q (d.slot nm) → N ((o.exec d).slot nm))
    (hk : ∀ d, F d → N (d.slot nm) → Safe (sectionRely c H I w live) Post k d)
    (hd : F dir) (hq : Q (dir.slot nm)) :
    Safe (sectionRely c H I w live) Post (attempt o fail k) dir := by
  refine safe_attempt (section_stable hF hkeep hnm hQ) ⟨hd, hq⟩ ?_ ?_ ?_
  · exact fun d h _ => ⟨hcr d h.1 h.2, trivial⟩
  · exact fun d h _ => hk _ (hF.exec ht h.1) (hexec d h.2)
  · exact fun hf => hf.elim

theorem section_ret (hF : Framed keep F) (hkeep : ∀ n, keep n → Guarded w live n)
    (hnm : Guarded w live nm) (hQ : Lasting Q)
    (hcr : ∀ d, F d → Q (d.slot nm) → c → Recoverable c H I w live d) {r : ρ}
    (hpost : ∀ d, F d → Q (d.slot nm) → Post r d) (hd : F dir) (hq : Q (dir.slot nm)) :
    Safe (sectionRely c H I w live) Post (.ret r) dir :=
  Safe.ret_intro (section_stable hF hkeep hnm hQ) ⟨hd, hq⟩ fun d h _ =>
    ⟨hcr d h.1 h.2, hpost d h.1 h.2⟩

/-! ## The edit log -/

theorem recoverable_of_within {e edit : VersionEdit} {log payload : Bytes} (hlog : Logged e log)
    (hfits : FitsHeader payload) (hnext : Logged edit (log ++ encodeRecord payload))
    (hs : (dir.slot .manifest).Within c (toCells log) (toCells (log ++ encodeRecord payload)))
    (he : Ready c H I w live e dir) (hedit : Ready c H I w live edit dir) :
    Recoverable c H I w live dir := by
  intro o ho
  obtain ⟨zs, rfl, hx, hy⟩ := hs o ho
  obtain ⟨bytes, rfl, hbytes⟩ := prefix_toCells hy
  obtain ⟨tail, rfl⟩ := toCells_prefix.mp hx
  have htail : tail <+: encodeRecord payload := (List.prefix_append_right_inj log).mp hbytes
  refine ⟨_, rfl, ?_⟩
  by_cases hfull : tail = encodeRecord payload
  · subst hfull
    exact ⟨edit, log ++ encodeRecord payload, [], by simp, hnext, Tail.nil _ _, hedit⟩
  · exact ⟨e, log, tail, rfl, hlog, Or.inr ⟨payload, hfits, htail, hfull⟩, he⟩

theorem recoverable_of_always {e : VersionEdit} {log : Bytes} (hlog : Logged e log)
    (hs : (dir.slot .manifest).Always c (toCells log)) (he : Ready c H I w live e dir) :
    Recoverable c H I w live dir := by
  intro o ho
  exact ⟨_, hs o ho, e, log, [], by simp, hlog, Tail.nil _ _, he⟩

theorem writeCurrentFile_touches (path : FileName) :
    (writeCurrentFile path).Steps fun o => ∀ n, o.Touches n → n = .current ∨ n = .currentTmp := by
  have htmp : ∀ {n : FileName}, n = .currentTmp → n = .current ∨ n = .currentTmp := Or.inr
  refine ⟨fun n hn => htmp hn, fun b => ?_⟩
  cases b with
  | false => trivial
  | true =>
    refine ⟨fun n hn => htmp hn, fun b => ?_⟩
    cases b with
    | false => trivial
    | true =>
      refine ⟨fun n hn => htmp hn, fun b => ?_⟩
      cases b with
      | false => exact ⟨fun n hn => htmp hn, fun _ => trivial⟩
      | true =>
        refine ⟨fun n hn => hn.symm, fun b => ?_⟩
        cases b with
        | false => exact ⟨fun n hn => htmp hn, fun _ => trivial⟩
        | true =>
          refine ⟨fun n hn => hn.elim, fun b => ?_⟩
          cases b <;> trivial

theorem guarded_manifest : Guarded w live .manifest := Or.inr (Or.inr (Or.inl rfl))

theorem guarded_of_stores (n : FileName) (h : Stores w live n) : Guarded w live n :=
  Or.inr (Or.inr (Or.inr h))

theorem not_stores_manifest : ¬ Stores w live .manifest := by
  rintro (⟨i, _, he⟩ | ⟨i, _, he⟩) <;> cases he

theorem not_stores_current {n : FileName} (h : n = .current ∨ n = .currentTmp) :
    ¬ Stores w live n := by
  rintro (⟨i, _, rfl⟩ | ⟨i, _, rfl⟩) <;> rcases h with h | h <;> cases h

theorem writeCurrentFile_beside (hF : Framed (Stores w live) F) (hQ : Lasting Q)
    (hcr : ∀ d, F d → Q (d.slot .manifest) → c → Recoverable c H I w live d)
    (hd : F dir) (hq : Q (dir.slot .manifest)) :
    Safe (sectionRely c H I w live) (fun st d => (F d ∧ Q (d.slot .manifest)) ∧ st = .ok)
      (writeCurrentFile .manifest) dir := by
  have hexec : ∀ (o : Op FileName Cell) (d : Dir),
      (∀ n, o.Touches n → n = .current ∨ n = .currentTmp) →
      F d ∧ Q (d.slot .manifest) → F (o.exec d) ∧ Q ((o.exec d).slot .manifest) := by
    intro o d ht h
    refine ⟨hF.exec (fun n hn => not_stores_current (ht n hn)) h.1, ?_⟩
    have hno : ¬ o.Touches .manifest := fun hn => by rcases ht _ hn with h | h <;> cases h
    rcases o.exec_frame d .manifest hno with e | e <;> rw [e]
    · exact h.2
    · exact hQ _ h.2
  have hsafe : Safe (sectionRely c H I w live) (fun _ d => F d ∧ Q (d.slot .manifest))
      (writeCurrentFile .manifest) dir := by
    refine Safe.of_steps (section_stable hF guarded_of_stores guarded_manifest hQ)
      (fun d h _ => hcr d h.1 h.2) ?_ (writeCurrentFile_touches _) ⟨hd, hq⟩
    intro o ht d h _
    refine ⟨trivial, hexec o d ht h, ?_⟩
    rintro d' (rfl | rfl | ⟨n, xs, ys, rfl, _, rfl⟩)
    · exact h
    · exact hexec o d ht h
    · exact hexec (.append n ys) d ht h
  have hok : (writeCurrentFile .manifest).EndsOk fun st => st = .ok := rfl
  exact (hsafe.and_endsOk hok).mono fun st d _ _ h => ⟨h.1, h.2 fun _ hf => hf⟩

/-- A save: the old version is good until its record is complete, the new one from
then on. -/
theorem save_safe {m : ManifestState} {edit : VersionEdit} {log : Bytes}
    (hpath : m.path = .manifest) (hlog : Logged m.persisted log) (hwf : WfEdit edit)
    (hk : KeepsMeta m.persisted edit) (hF : Framed (Stores w live) F)
    (hold : ∀ d, F d → Ready c H I w live m.persisted d)
    (hnew : ∀ d, F d → Ready c H I w live edit d) (hd : F dir)
    (hm : (dir.slot .manifest).Exactly c (toCells log)) :
    Safe (sectionRely c H I w live)
      (fun res d => F d ∧
        (res.2 = .ok → ∃ log', Logged edit log' ∧ (d.slot .manifest).Exactly c (toCells log')) ∧
        (res.2 ≠ .ok → (d.slot .manifest).Exactly c (toCells log)))
      (Manifest.save m edit) dir := by
  have hno : ∀ n, n = FileName.manifest → ¬ Stores w live n := fun n hn => hn ▸ not_stores_manifest
  have hcrOld : ∀ d, F d → (d.slot .manifest).Exactly c (toCells log) → c →
      Recoverable c H I w live d :=
    fun d hF' hx _ => recoverable_of_always hlog hx.always (hold d hF')
  unfold Manifest.save
  rw [hpath]
  refine Safe.look_intro (section_stable hF guarded_of_stores guarded_manifest
    (lasting_exactly c (toCells log))) ⟨hd, hm⟩ fun d h _ => ⟨hcrOld d h.1 h.2, ?_⟩
  obtain ⟨hd, hm⟩ := h
  dsimp only
  unfold persistEditRecord
  dsimp only
  split
  · -- a text that is too long is refused before anything is written
    rename_i hlong
    refine section_ret hF guarded_of_stores guarded_manifest (lasting_exactly c (toCells log))
      hcrOld ?_ hd hm
    intro d hF' hx
    refine ⟨hF', fun hok => ?_, fun _ => hx⟩
    cases hok
  · rename_i hlong
    have hfits : FitsHeader (buildEditPayload m.persisted edit) := Nat.le_of_not_lt hlong
    have hnext := hlog.save hwf hk hfits
    have hcrNew : ∀ d, F d → (d.slot .manifest).Exactly c
        (toCells (log ++ encodeRecord (buildEditPayload m.persisted edit))) → c →
        Recoverable c H I w live d :=
      fun d hF' hx _ => recoverable_of_always hnext hx.always (hnew d hF')
    refine section_attempt (fun s => s.Exactly c (toCells log)) hF guarded_of_stores
      guarded_manifest (lasting_exactly c (toCells log)) hno hcrOld
      (fun d hx => (create_tentative_of_exactly hx False).exactly) ?_ hd hm
    intro d hd hm
    refine section_attempt (fun s => Tentative c False s (toCells log) (toCells (log ++
      encodeRecord (buildEditPayload m.persisted edit)))) hF guarded_of_stores guarded_manifest
      (lasting_exactly c (toCells log)) hno hcrOld ?_ ?_ hd hm
    · intro d hx
      rw [toCells_append]
      exact append_tentative (hx.tentative False) _
    intro d hd hm
    refine section_attempt (fun s => s.Exactly c (toCells (log ++
      encodeRecord (buildEditPayload m.persisted edit)))) hF guarded_of_stores guarded_manifest
      (lasting_tentative c False _ _) hno ?_ (fun d hx => (sync_tentative hx).exactly) ?_ hd hm
    · intro d hF' hx _
      refine recoverable_of_within hlog hfits hnext ?_ (hold d hF') (hnew d hF')
      exact (hx.grows ( toCells_prefix.mpr (List.prefix_append _ _))).within (fun hf => hf)
    · intro d hd hm
      refine section_attempt (fun s => s.Exactly c (toCells (log ++
        encodeRecord (buildEditPayload m.persisted edit)))) hF guarded_of_stores guarded_manifest
        (lasting_exactly c _) (fun n hn => hn.elim) hcrNew (fun d hx => lasting_exactly c _ _ hx) ?_ hd hm
      intro d hd hm
      have hpost : ∀ d, F d → (d.slot .manifest).Exactly c
          (toCells (log ++ encodeRecord (buildEditPayload m.persisted edit))) →
          F d ∧ ((Status.ok = .ok) → ∃ log', Logged edit log' ∧
              (d.slot .manifest).Exactly c (toCells log')) ∧
            (Status.ok ≠ .ok → (d.slot .manifest).Exactly c (toCells log)) :=
        fun d hF' hx => ⟨hF', fun _ => ⟨_, hnext, hx⟩, fun hne => absurd rfl hne⟩
      split
      · exact section_ret hF guarded_of_stores guarded_manifest (lasting_exactly c _) hcrNew hpost
          hd hm
      · refine (writeCurrentFile_beside hF (lasting_exactly c _) hcrNew hd hm).bind ?_
        rintro st d _ ⟨⟨hd, hm⟩, rfl⟩
        exact section_ret hF guarded_of_stores guarded_manifest (lasting_exactly c _) hcrNew hpost
          hd hm

end

end KvMem
