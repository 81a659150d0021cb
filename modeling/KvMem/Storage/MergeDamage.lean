import KvMem.Storage.Compaction
import KvMem.Storage.ScanDamage
import KvMem.Storage.TableReader

/-! # Compactions over damaged tables

A compaction reads its inputs through the same iterators as a scan and gives up at the
first block that fails. What it writes is what it would have written from undamaged inputs.
-/

namespace KvMem

/-- Of a table whose records fit their fields every block is read as it was written, or not
at all. -/
theorem TableFile.Laid.stored_failsIf {t : TableFile} (h : t.Laid)
    (hfit : ∀ b ∈ t.blocks, SSTable.RecordsFit b) : TableFile.Reader.stored.FailsIf True t := by
  intro i
  refine (h.stored_read hfit i).imp_right ?_
  rintro ⟨_, ⟨message, rfl⟩, herr⟩
  exact ⟨trivial, _, by simp, herr⟩

namespace Compaction

open Versions MergingIterator

variable {Q : Prop} {read : TableFile.Reader} {start : ScanStart} {m : MergingIterator}

variable {c : InternalIterator} {tables : List TableFile}

theorem passed_damaged (key : Bytes) (fuel : Nat) (h : c.Intact Q read start) :
    passed read key fuel c = passed TableFile.Reader.plain key fuel c ∨
      (Q ∧ (advancePast read key fuel c).status ≠ .ok) := by
  induction fuel generalizing c with
  | zero => exact Or.inl rfl
  | succ fuel ih =>
    rw [passed, passed, advancePast]
    cases hc : c.current? with
    | none => exact Or.inl rfl
    | some e =>
      dsimp only
      by_cases hkey : e.key = key
      · have hvalid : c.valid = true := by simp [InternalIterator.valid, hc]
        have hat : c.key = key := by simp [InternalIterator.key, hc, hkey]
        rw [if_pos hkey, if_pos hkey, if_pos ⟨hvalid, hat⟩]
        rcases InternalIterator.next_damaged h with ⟨heq, hin⟩ | ⟨hq, herr⟩
        · rw [heq]
          exact (ih hin).imp_left fun hsame => by rw [hsame]
        · rw [advancePast_of_failed read key fuel herr]
          exact Or.inr ⟨hq, herr⟩
      · rw [if_neg hkey, if_neg hkey]
        exact Or.inl rfl

theorem passed_child_damaged (key : Bytes) {i : Nat} (h : m.Intact Q read start)
    (hc : m.children[i]? = some c) :
    passed read key (c.capacity + 1) c = passed TableFile.Reader.plain key (c.capacity + 1) c ∨
      (Q ∧ (advanceChildPastKey read m i key).status ≠ .ok) := by
  rcases passed_damaged key (c.capacity + 1) (h c (List.mem_of_getElem? hc)) with
    hsame | ⟨hq, herr⟩
  · exact Or.inl hsame
  · refine Or.inr ⟨hq, ?_⟩
    unfold advanceChildPastKey
    rw [hc]
    dsimp only
    rw [if_pos herr]
    exact herr

theorem gatherKey_failed (read : TableFile.Reader) (key : Bytes) (fuel : Nat)
    (h : m.status ≠ .ok) : gatherKey read key fuel m = ([], m) := by
  cases fuel with
  | zero => rfl
  | succ fuel =>
    rw [gatherKey]
    split
    · rename_i hok
      exact absurd hok h
    · rfl

theorem gatherKey_damaged (key : Bytes) (fuel : Nat) (h : m.Intact Q read start) :
    (gatherKey read key fuel m = gatherKey TableFile.Reader.plain key fuel m ∧
        (gatherKey TableFile.Reader.plain key fuel m).2.Intact Q read start) ∨
      (Q ∧ (gatherKey read key fuel m).2.status ≠ .ok) := by
  induction fuel generalizing m with
  | zero => exact Or.inl ⟨rfl, h⟩
  | succ fuel ih =>
    rw [gatherKey, gatherKey]
    split
    · rename_i i _ _
      split
      · have herased : Intact Q read start { m with heap := m.heap.erase i } := h
        -- the source that stands on the key: it steps over the same versions, or has failed
        by_cases hfailed : Q ∧
            (advanceChildPastKey read { m with heap := m.heap.erase i } i key).status ≠ .ok
        · dsimp only
          rw [gatherKey_failed read key fuel hfailed.2]
          exact Or.inr hfailed
        · obtain ⟨heq, hin⟩ :=
            (advanceChildPastKey_damaged i key herased).resolve_right hfailed
          dsimp only
          rw [heq]
          rcases ih hin with ⟨hrest, hin'⟩ | hfailed'
          · rw [hrest]
            cases hc : m.children[i]? with
            | none => exact Or.inl ⟨rfl, hin'⟩
            | some c =>
              have hsame := (passed_child_damaged key herased hc).resolve_right hfailed
              dsimp only
              rw [hsame]
              exact Or.inl ⟨rfl, hin'⟩
          · exact Or.inr hfailed'
      · exact Or.inl ⟨rfl, h⟩
    · exact Or.inl ⟨rfl, h⟩

theorem mergeLoop_damaged (minSnapshot targetLevel fuel : Nat) (h : m.Intact Q read start) :
    mergeLoop read minSnapshot targetLevel fuel m =
        mergeLoop TableFile.Reader.plain minSnapshot targetLevel fuel m ∨
      (Q ∧ ∃ e, mergeLoop read minSnapshot targetLevel fuel m = .error e) := by
  induction fuel generalizing m with
  | zero => exact Or.inl rfl
  | succ fuel ih =>
    rw [mergeLoop, mergeLoop]
    split
    · exact Or.inl rfl
    · rename_i i _
      dsimp only
      rcases gatherKey_damaged (entryAt m.children i).key (m.children.length + 1) h with
        ⟨heq, hin⟩ | ⟨hq, herr⟩
      · rw [heq]
        split
        · exact Or.inl rfl
        · rcases ih hin with hrest | ⟨hq, e, he⟩
          · rw [hrest]
            exact Or.inl rfl
          · rw [he]
            exact Or.inr ⟨hq, e, rfl⟩
      · rw [if_pos herr]
        exact Or.inr ⟨hq, _, rfl⟩

theorem openInputs_damaged (h : ∀ t ∈ tables, read.FailsIf Q t) :
    (openInputs read tables = openInputs TableFile.Reader.plain tables ∧
        ∀ inputs, openInputs TableFile.Reader.plain tables = .ok inputs →
          ∀ c ∈ inputs, c.Intact Q read .first) ∨
      (Q ∧ ∃ e, openInputs read tables = .error e) := by
  induction tables with
  | nil =>
    refine Or.inl ⟨rfl, fun inputs hin c hc => ?_⟩
    cases hin
    cases hc
  | cons t ts ih =>
    have hfirst := InternalIterator.position_damaged (Q := Q) .first
      (c := .sstable (SSTableIterator.new t maxUInt64)) (h t List.mem_cons_self)
    simp only [InternalIterator.position] at hfirst
    rw [openInputs, openInputs]
    rcases hfirst with ⟨heq, hin⟩ | ⟨hq, herr⟩
    · rw [heq]
      split
      · refine Or.inl ⟨rfl, fun inputs hinputs => by cases hinputs⟩
      · rcases ih fun u hu => h u (List.mem_cons_of_mem t hu) with ⟨hrest, hall⟩ | ⟨hq, e, he⟩
        · rw [hrest]
          refine Or.inl ⟨rfl, ?_⟩
          cases hopen : openInputs TableFile.Reader.plain ts with
          | error e => exact fun inputs hinputs => by cases hinputs
          | ok iters =>
            intro inputs hinputs c hc
            dsimp only at hinputs
            rw [← Except.ok.inj hinputs] at hc
            split at hc
            · rcases List.mem_cons.mp hc with rfl | hc
              · exact hin
              · exact hall iters hopen c hc
            · exact hall iters hopen c hc
        · rw [he]
          exact Or.inr ⟨hq, e, rfl⟩
    · rw [if_pos herr]
      exact Or.inr ⟨hq, _, rfl⟩

/-- A compaction over tables some of whose blocks fail gives up, or its output is the one of
the tables as they were written. -/
theorem mergeTables_damaged (h : ∀ t ∈ tables, read.FailsIf Q t) (minSnapshot targetLevel : Nat) :
    mergeTables read tables minSnapshot targetLevel =
        mergeTables TableFile.Reader.plain tables minSnapshot targetLevel ∨
      (Q ∧ ∃ e, mergeTables read tables minSnapshot targetLevel = .error e) := by
  rw [mergeTables, mergeTables]
  rcases openInputs_damaged h with ⟨heq, hall⟩ | ⟨hq, e, he⟩
  · rw [heq]
    cases hopen : openInputs TableFile.Reader.plain tables with
    | error e => exact Or.inl rfl
    | ok inputs =>
      have hin : Intact Q read .first
          { children := inputs, heap := List.range inputs.length } := hall inputs hopen
      dsimp only
      rcases mergeLoop_damaged minSnapshot targetLevel
          ((inputs.map InternalIterator.capacity).sum + 1) hin with hsame | ⟨hq, e, he⟩
      · rw [hsame]
        exact Or.inl rfl
      · rw [he]
        exact Or.inr ⟨hq, e, rfl⟩
  · rw [he]
    exact Or.inr ⟨hq, e, rfl⟩

end Compaction

end KvMem
