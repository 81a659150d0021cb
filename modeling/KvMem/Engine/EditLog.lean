import KvMem.Engine.LogReader
import KvMem.Storage.Manifest

/-! # Saving versions and loading them back

A run of `Manifest::Save` calls leaves one record per call in `MANIFEST`. Loading
the file, cut at any byte behind its first record, gives the version of the last
call whose record is complete.
-/

namespace KvMem.Manifest

open CrashStore RecordLog FileProg

/-- `Save` called with one version after the other, as long as each call succeeds. -/
def saves : ManifestState → List VersionEdit → Prog (ManifestState × Status)
  | m, [] => .ret (m, .ok)
  | m, edit :: edits =>
    save m edit >>= fun saved => if saved.2 ≠ .ok then .ret saved else saves saved.1 edits

/-! ## What a save leaves -/

variable {n : FileName} {file : Bytes} {m : ManifestState}

theorem read_create {xs : List Cell} (dir : Dir) (h : (dir.read n).getD [] = xs) :
    ((Op.create n).exec dir).read n = some xs := by
  cases hd : (dir.slot n).data with
  | none =>
    have hread : dir.read n = none := by rw [FS.read, hd, Option.map_none]
    rw [hread, Option.getD_none] at h
    subst h
    simp [Op.exec, hd, FS.read]
  | some d =>
    have hread : dir.read n = some d.cur := by rw [FS.read, hd, Option.map_some]
    rw [hread, Option.getD_some] at h
    simp only [Op.exec, hd]
    rw [hread, h]

theorem writeCurrentFile_steps (path : FileName) (h1 : n ≠ .current) (h2 : n ≠ .currentTmp) :
    (writeCurrentFile path).Steps fun o => ¬ o.Touches n := by
  have ht : ∀ o : Op FileName Cell, o ∈ [Op.reset .currentTmp,
      Op.append .currentTmp (toCells (currentBytes path)), Op.sync .currentTmp,
      Op.rename .currentTmp .current, Op.remove .currentTmp, Op.syncDir] → ¬ o.Touches n := by
    intro o ho
    simp only [List.mem_cons, List.not_mem_nil, or_false] at ho
    rcases ho with rfl | rfl | rfl | rfl | rfl | rfl <;> simp [Op.Touches, h1, h2]
  simp only [writeCurrentFile, attempt]
  refine ⟨ht _ (by simp), fun b1 => ?_⟩
  cases b1 with
  | false => trivial
  | true =>
    refine ⟨ht _ (by simp), fun b2 => ?_⟩
    cases b2 with
    | false => trivial
    | true =>
      refine ⟨ht _ (by simp), fun b3 => ?_⟩
      cases b3 with
      | false => exact ⟨ht _ (by simp), fun _ => trivial⟩
      | true =>
        refine ⟨ht _ (by simp), fun b4 => ?_⟩
        cases b4 with
        | false => exact ⟨ht _ (by simp), fun _ => trivial⟩
        | true =>
          refine ⟨ht _ (by simp), fun b5 => ?_⟩
          cases b5 <;> trivial

theorem runOk_writeCurrentFile (path : FileName) (dir : Dir) :
    (runOk (writeCurrentFile path) dir).2 = .ok := rfl

theorem runOk_save (edit : VersionEdit) (dir : Dir) (hpath : m.path = .manifest)
    (h : (dir.read .manifest).getD [] = toCells file) (hok : (runOk (save m edit) dir).2.2 = .ok) :
    FitsHeader (buildEditPayload m.persisted edit) ∧
    (runOk (save m edit) dir).2.1 = { m with edit := edit, persisted := edit } ∧
    (runOk (save m edit) dir).1.read .manifest =
      some (toCells (file ++ encodeRecord (buildEditPayload m.persisted edit))) ∧
    ∀ n, (runOk (save m edit) dir).1.read (.sst n) = dir.read (.sst n) := by
  by_cases hfits : (buildEditPayload m.persisted edit).length > maxUInt64
  · rw [save, runOk_look, runOk_bind, persistEditRecord, if_pos hfits] at hok
    cases hok
  · have hpersist : runOk (persistEditRecord m.path m.persisted edit) dir =
        ((Op.sync .manifest).exec ((Op.append .manifest
          (toCells (encodeRecord (buildEditPayload m.persisted edit)))).exec
            ((Op.create .manifest).exec dir)), .ok) := by
      rw [persistEditRecord, if_neg hfits, hpath]
      rfl
    have hread := read_sync _ (read_append _
      (toCells (encodeRecord (buildEditPayload m.persisted edit))) (read_create dir h))
    rw [← toCells_append] at hread
    have hsst : ∀ n, (runOk (persistEditRecord m.path m.persisted edit) dir).1.read (.sst n) =
        dir.read (.sst n) := by
      intro n
      rw [hpersist]
      simp only
      rw [Op.exec_read _ _ (by simp [Op.Touches]), Op.exec_read _ _ (by simp [Op.Touches]),
        Op.exec_read _ _ (by simp [Op.Touches])]
    rw [hpersist] at hsst
    have hrun : runOk (save m edit) dir =
        runOk ((if dir.exists .current then (.ret .ok : Prog Status) else writeCurrentFile m.path) >>=
          fun status => if status ≠ .ok then (.ret (m, status) : Prog (ManifestState × Status))
            else .ret ({ m with edit := edit, persisted := edit }, .ok))
          ((Op.syncDir).exec (runOk (persistEditRecord m.path m.persisted edit) dir).1) := by
      rw [save, runOk_look, runOk_bind, hpersist]
      rfl
    rw [hpersist] at hrun
    -- both ways to go on end in success and touch neither the log nor the tables
    cases hcur : dir.exists .current with
    | true =>
      rw [hcur, if_pos rfl] at hrun
      rw [hrun]
      refine ⟨Nat.le_of_not_lt hfits, rfl, ?_, fun n => ?_⟩
      · rw [ret_bind, if_neg (fun hx => hx rfl), runOk_ret]
        simp only
        rw [Op.exec_read _ _ (by simp [Op.Touches]), hread]
      · rw [ret_bind, if_neg (fun hx => hx rfl), runOk_ret]
        simp only
        rw [Op.exec_read _ _ (by simp [Op.Touches]), hsst n]
    | false =>
      rw [hcur, if_neg (by simp), runOk_bind, runOk_writeCurrentFile] at hrun
      rw [hrun]
      refine ⟨Nat.le_of_not_lt hfits, rfl, ?_, fun n => ?_⟩
      · rw [if_neg (fun hx => hx rfl), runOk_ret]
        simp only
        rw [runOk_read (writeCurrentFile_steps _ (by simp) (by simp)),
          Op.exec_read _ _ (by simp [Op.Touches]), hread]
      · rw [if_neg (fun hx => hx rfl), runOk_ret]
        simp only
        rw [runOk_read (writeCurrentFile_steps _ (by simp) (by simp)),
          Op.exec_read _ _ (by simp [Op.Touches]), hsst n]

theorem runOk_saves (edits : List VersionEdit) (dir : Dir) (hpath : m.path = .manifest)
    (h : (dir.read .manifest).getD [] = toCells file)
    (hok : (runOk (saves m edits) dir).2.2 = .ok) :
    (∀ payload ∈ logPayloads m.persisted edits, FitsHeader payload) ∧
    ((runOk (saves m edits) dir).1.read .manifest).getD [] =
      toCells (file ++ encodeAll encodeRecord (logPayloads m.persisted edits)) ∧
    ∀ n, (runOk (saves m edits) dir).1.read (.sst n) = dir.read (.sst n) := by
  induction edits generalizing m file dir with
  | nil => exact ⟨by simp [logPayloads], by simpa [logPayloads, saves] using h, fun _ => rfl⟩
  | cons e es ih =>
    rw [saves, runOk_bind] at hok
    have hsave : (runOk (save m e) dir).2.2 = .ok := by
      by_contra hne
      rw [if_pos hne] at hok
      exact hne hok
    rw [if_neg (fun hx => hx hsave)] at hok
    obtain ⟨hfits, hm, hread, hsst⟩ := runOk_save e dir hpath h hsave
    rw [saves, runOk_bind, if_neg (fun hx => hx hsave)]
    rw [hm] at hok ⊢
    obtain ⟨hf, hr, hs⟩ := ih (m := { m with edit := e, persisted := e }) _ hpath
      (by rw [hread, Option.getD_some]) hok
    refine ⟨?_, ?_, fun n => (hs n).trans (hsst n)⟩
    · intro payload hp
      rcases List.mem_cons.mp hp with rfl | hp
      · exact hfits
      · exact hf payload hp
    · rw [hr]
      simp [logPayloads, List.append_assoc]

/-! ## Loading -/

theorem runOk_loadEditLog {edit : VersionEdit} (dir : Dir) (log tail : Bytes)
    (h : dir.read .manifest = some (toCells (log ++ tail)))
    (hreplay : replayLog (log ++ tail) = .ok (edit, tail))
    (hpaths : ∀ f ∈ edit.sstables, f.filePath = .sst f.fileNumber)
    (htables : ∀ f ∈ edit.sstables, dir.exists f.filePath = true) :
    (runOk (loadEditLog .manifest) dir).2 = .ok edit ∧
      (runOk (loadEditLog .manifest) dir).1.read .manifest = some (toCells log) := by
  have hfinish : ∀ dir' : Dir, (∀ n, dir'.read (.sst n) = dir.read (.sst n)) →
      (edit.sstables.all fun f => dir'.exists f.filePath) = true := by
    intro dir' hd
    rw [List.all_eq_true]
    intro f hf
    have hex := htables f hf
    rw [hpaths f hf, FS.exists_eq_read] at hex ⊢
    rw [hd, hex]
  by_cases hne : tail = []
  · subst hne
    rw [List.append_nil] at h
    have hall := hfinish dir fun _ => rfl
    rw [loadEditLog, attempt, runOk_op, if_pos rfl, runOk_look]
    simp only [Op.exec, h, bytesOf_toCells]
    rw [List.append_nil] at hreplay
    simp only [hreplay, if_pos, runOk_look, hall, runOk_ret]
    exact ⟨trivial, h⟩
  · have hlen : (log ++ tail).length - tail.length = log.length := by
      rw [List.length_append]
      omega
    have htrunc := read_truncate dir log.length h
    rw [toCells_take, List.take_left' rfl] at htrunc
    have hafter : ((Op.syncDir).exec ((Op.sync .manifest).exec
        ((Op.truncate .manifest log.length).exec dir))).read .manifest = some (toCells log) := by
      rw [Op.exec_read _ _ (by simp [Op.Touches])]
      exact read_sync _ htrunc
    have hall := hfinish ((Op.syncDir).exec ((Op.sync .manifest).exec
        ((Op.truncate .manifest log.length).exec dir))) (by
      intro n
      rw [Op.exec_read _ _ (by simp [Op.Touches]), Op.exec_read _ _ (by simp [Op.Touches]),
        Op.exec_read _ _ (by simp [Op.Touches])])
    have hprobe : (Op.probe .manifest).exec dir = dir := rfl
    rw [loadEditLog, attempt, runOk_op, if_pos rfl, hprobe, runOk_look]
    simp only [h, bytesOf_toCells, hreplay, if_neg hne, attempt, runOk_op, if_true,
      hlen, runOk_look, hall, runOk_ret]
    exact ⟨trivial, hafter⟩

/-- Versions saved one after the other from the empty version, the log cut at any
byte `c` behind its first record: loading gives the version of the last save whose
record ends at or before `c`, and cuts the log behind that record. -/
theorem loadEditLog_saves_cut (edits : List VersionEdit) (dir : Dir) (c : Nat)
    (hempty : dir.read .manifest = none)
    (hwf : ∀ e ∈ edits, WfEdit e) (hkeep : edits.IsChain KeepsMeta)
    (hok : (runOk (saves {} edits) dir).2.2 = .ok) (hne : edits ≠ [])
    (hc : (encodeAll encodeRecord ((logPayloads {} edits).take 1)).length ≤ c) :
    let cut := (Op.truncate .manifest c).exec (runOk (saves {} edits) dir).1
    ∃ i e, edits[i]? = some e ∧
      (∀ j, j < edits.length →
        (j ≤ i ↔ (encodeAll encodeRecord ((logPayloads {} edits).take (j + 1))).length ≤ c)) ∧
      ((∀ f ∈ e.sstables, dir.exists f.filePath = true) →
        (runOk (loadEditLog .manifest) cut).2 = .ok e ∧
        (runOk (loadEditLog .manifest) cut).1.read .manifest =
          some (toCells (encodeAll encodeRecord ((logPayloads {} edits).take (i + 1))))) := by
  intro cut
  have hnone : (dir.read .manifest).getD [] = toCells [] := by
    rw [hempty]
    rfl
  obtain ⟨hfits, hread, hsst⟩ := runOk_saves (m := {}) edits dir rfl hnone hok
  obtain ⟨k, hk, hends, tail, he, ht⟩ :=
    cut_split encodeRecord FitsHeader (logPayloads {} edits) c hfits
  rw [logPayloads_length] at hk hends
  -- the first record is complete, so at least one is
  have hpos : 0 < k := (hends 0 (List.length_pos_of_ne_nil hne)).mpr hc
  obtain ⟨i, rfl⟩ := Nat.exists_eq_succ_of_ne_zero (Nat.ne_of_gt hpos)
  have hget : edits[i]? = some edits[i] := List.getElem?_eq_getElem hk
  refine ⟨i, edits[i], hget, fun j hj => Nat.lt_succ_iff.symm.trans (hends j hj), fun htables => ?_⟩
  have hmem : edits[i] ∈ edits := List.getElem_mem hk
  have htakene : edits.take (i + 1) ≠ [] := by
    intro hnil
    have := congrArg List.length hnil
    rw [List.length_take, List.length_nil] at this
    omega
  have hlast : (edits.take (i + 1)).getLast htakene = edits[i] := by
    rw [List.getLast_eq_getElem]
    simp only [List.length_take, List.getElem_take]
    congr 1
    omega
  have hreplay : replayLog (encodeAll encodeRecord ((logPayloads {} edits).take (i + 1)) ++ tail) =
      .ok (edits[i], tail) := by
    rw [logPayloads_take, replayLog_saves (edits.take (i + 1)) tail htakene
      (fun e' he' => hwf e' (List.mem_of_mem_take he')) (hkeep.take (i + 1))
      (by
        rw [← logPayloads_take]
        exact fun p hp => hfits p (List.mem_of_mem_take hp)) ht, hlast]
  have hwritten : (runOk (saves {} edits) dir).1.read .manifest =
      some (toCells (encodeAll encodeRecord (logPayloads {} edits))) := by
    rw [List.nil_append] at hread
    cases hm : (runOk (saves {} edits) dir).1.read .manifest with
    | some xs => rw [hm, Option.getD_some] at hread; rw [hread]
    | none =>
      rw [hm, Option.getD_none] at hread
      have hlen := congrArg List.length hread
      have hle := format.length_le _ hfits
      rw [toCells_length, List.length_nil] at hlen
      rw [logPayloads_length] at hle
      have := List.length_pos_of_ne_nil hne
      omega
  have hcut : cut.read .manifest =
      some (toCells (encodeAll encodeRecord ((logPayloads {} edits).take (i + 1)) ++ tail)) := by
    have h := read_truncate _ c hwritten
    rwa [toCells_take, he] at h
  have hpaths : ∀ f ∈ (edits[i]).sstables, f.filePath = .sst f.fileNumber :=
    fun f hf => ((hwf _ hmem).files f hf).path
  have hexists : ∀ f ∈ (edits[i]).sstables, cut.exists f.filePath = true := by
    intro f hf
    have hex := htables f hf
    rw [hpaths f hf, FS.exists_eq_read] at hex ⊢
    rw [Op.exec_read _ _ (by simp [Op.Touches]), hsst, hex]
  exact runOk_loadEditLog cut _ tail hcut hreplay hpaths hexists

def twoSaves : List VersionEdit :=
  [{ nextFileNumber := 2 },
    { nextFileNumber := 3, walFileNumber := 2, lastSequence := 5,
      sstables := [⟨1, .sst 1, 0, [34, 32], [255], 120⟩] }]

theorem twoSaves_wf : ∀ e ∈ twoSaves, WfEdit e := by
  intro e he
  simp only [twoSaves, List.mem_cons, List.not_mem_nil, or_false] at he
  rcases he with rfl | rfl
  · exact ⟨by decide, by decide, by decide, by decide, by decide, List.Pairwise.nil, by simp⟩
  · refine ⟨by decide, by decide, by decide, by decide, by decide, List.pairwise_singleton _ _, ?_⟩
    intro f hf
    rw [List.mem_singleton] at hf
    subst hf
    exact ⟨by decide, by decide, rfl, by decide, by decide, by decide, by decide, by decide⟩

theorem loadEditLog_saves_cut_second :
    (runOk (loadEditLog .manifest)
      ((Op.truncate .manifest 110).exec (runOk (saves {} twoSaves) FS.empty).1)).2 =
        .ok { nextFileNumber := 2 } := by
  have hkeep : twoSaves.IsChain KeepsMeta := by
    refine List.isChain_pair.mpr ?_
    intro f hf
    cases hf
  obtain ⟨i, e, hget, hends, hload⟩ := loadEditLog_saves_cut twoSaves FS.empty 110 rfl twoSaves_wf
    hkeep (by decide +kernel) (by decide) (by decide +kernel)
  have h1 : ¬ 1 ≤ i := fun hle => absurd ((hends 1 (by decide)).mp hle) (by decide +kernel)
  have hzero : i = 0 := by omega
  subst hzero
  have he : e = { nextFileNumber := 2 } := (Option.some.inj hget).symm
  subst he
  exact (hload (by simp)).1

end KvMem.Manifest
