import KvMem.Engine.Opening

/-! # A closed database

What lies in the directory of a closed database: the files of a database that was open
before, or nothing but perhaps a part of the first record of `MANIFEST`. `Open` brings
the one up and begins the other; only the part of a first record it refuses.
-/

namespace KvMem

open CrashStore RecordLog FileProg Manifest

/-! ## A directory without a database -/

def firstEdit : VersionEdit := { nextFileNumber := 2 }

def firstLog : Bytes := encodeRecord (buildEditPayload {} firstEdit)

theorem firstEdit_wf : WfEdit firstEdit where
  next_pos := by decide
  next_le := by decide
  wal_pos := by decide
  wal_le := by decide
  sequence_le := by decide
  ordered := List.Pairwise.nil
  files := fun _ hf => by cases hf

theorem firstEdit_fits : FitsHeader (buildEditPayload {} firstEdit) := by
  unfold FitsHeader
  decide

theorem firstLog_logged : Logged firstEdit firstLog := logged_first firstEdit_wf firstEdit_fits

/-- Nothing but a part of the first record of `MANIFEST`. -/
structure Torn (c : Prop) (dir : Dir) : Prop where
  others : ∀ n, n ≠ .manifest → (dir.slot n).Gone c
  manifest : ∃ part, part <+: firstLog ∧ part ≠ firstLog ∧
    (dir.slot .manifest).Exactly c (toCells part)

/-- Nobody has ever opened a database here. -/
def Unborn (c : Prop) (dir : Dir) : Prop := (∀ n, (dir.slot n).Gone c) ∨ Torn c dir

/-- What a closed database may have in its directory, with the history `H` and perhaps a
batch `I` behind it. Under `b` it has been open before. -/
def AtRest (c b : Prop) (H I : List WALBatchRecord) (dir : Dir) : Prop :=
  (∃ J K e log tail T L P, J ++ K = I ∧ Resting c (H ++ J) K dir e log tail T L P) ∨
    (¬ b ∧ H = [] ∧ I = [] ∧ Unborn c dir)

/-- Whatever a crash leaves is at rest. -/
def Survivable (c b : Prop) (H I : List WALBatchRecord) (dir : Dir) : Prop :=
  ∀ dir', Crash dir dir' → AtRest c b H I dir'

section

variable {c b : Prop} {H I J K : List WALBatchRecord} {dir dir' : Dir} {C : Dir → Prop}

theorem Recoverable.survivable {w : Nat} {live : List Nat}
    (h : c → Recoverable c (H ++ J) K w live dir) (hI : J ++ K = I) : c → Survivable c b H I dir := by
  intro hc dir' hcr
  obtain ⟨e, log, tail, T, L, P, hrest⟩ := (h hc).crash hc hcr
  exact Or.inl ⟨J, K, e, log, tail, T, L, P, hI, hrest⟩

/-- The names the first save does not touch. -/
def Untouched (n : FileName) : Prop := n ≠ .manifest ∧ n ≠ .current ∧ n ≠ .currentTmp

theorem first_backed (h : ∀ n, Untouched n → (dir.slot n).Gone c) :
    Backed c [] [] firstEdit [] [] [] dir where
  stored :=
    { wf := firstEdit_wf
      below := by decide
      levels := ⟨by simp [firstEdit], by simp [firstEdit], by simp [firstEdit]⟩
      aligned := ⟨List.Perm.refl _, fun _ hf => by cases hf⟩
      handles := by simp
      tables := by simp
      history := ⟨List.Pairwise.nil, List.Pairwise.nil, by simp, by simp⟩
      single := by simp
      entries := by simp
      older := by simp
      reached := Or.inl rfl
      pending := by simp
      view := ⟨0, Nat.le_refl _, Versions.shows_self _ _⟩
      logs := fun n _ => Or.inl ⟨rfl, rfl, fun o ho =>
        Or.inl ((h (.wal n) ⟨by simp, by simp, by simp⟩).outcome ho)⟩ }
  tables := by simp
  reads := fun n _ => Or.inl ⟨rfl, Or.inl ⟨rfl, h (.wal n) ⟨by simp, by simp, by simp⟩⟩⟩
  history := rfl
  pending := rfl

/-! ## The first save -/

theorem survivable_of_grows (hb : ¬ b) (ho : ∀ n, n ≠ .manifest → (dir.slot n).Gone c)
    (hm : Grows c True (dir.slot .manifest) [] (toCells firstLog)) :
    c → Survivable c b [] [] dir := by
  intro hc dir' hcr
  have hothers : ∀ n, n ≠ .manifest → (dir'.slot n).Gone c := by
    intro n hn
    obtain ⟨o, hsurv, he⟩ := hcr n
    have hnone : o = none := (ho n hn).outcome (Or.inr ⟨hc, hsurv⟩)
    rw [he, hnone]
    exact ⟨rfl, fun _ _ ho => ho⟩
  have hcur := hm _ (hcr.outcome hc (Slot.outcome_cur c (dir'.slot .manifest)))
  rcases hcur with ⟨_, hnone⟩ | ⟨zs, hzs, _, hpre⟩
  · have hgone : (dir'.slot .manifest).Gone c := by
      rcases hcr.firm (c := c) .manifest with hgone | ⟨xs, hx⟩
      · exact hgone
      · rw [hx.1] at hnone
        cases hnone
    refine Or.inr ⟨hb, rfl, rfl, Or.inl fun n => ?_⟩
    by_cases hn : n = .manifest
    · exact hn ▸ hgone
    · exact hothers n hn
  · have hexact := hcr.exactly (c := c) hzs
    obtain ⟨part, rfl, hpart⟩ := prefix_toCells hpre
    by_cases hfull : part = firstLog
    · subst hfull
      have hback : Backed c [] [] firstEdit [] [] [] dir' :=
        first_backed fun n hn => hothers n hn.1
      refine Or.inl ⟨[], [], firstEdit, firstLog, [], [], [], [], rfl, firstLog_logged,
        Tail.nil _ _, by rwa [List.append_nil], hback.stored, hback.tables,
        fun n _ => hcr.firm _, rfl, rfl⟩
    · exact Or.inr ⟨hb, rfl, rfl, Or.inr ⟨hothers, part, hpart, hfull, hexact⟩⟩

theorem Unborn.survivable (hb : ¬ b) (h : Unborn c dir) : c → Survivable c b [] [] dir := by
  rcases h with hgone | ⟨hothers, part, hpart, _, hx⟩
  · exact survivable_of_grows hb (fun n _ => hgone n) fun o ho =>
      Or.inl ⟨trivial, (hgone _).outcome ho⟩
  · exact survivable_of_grows hb hothers fun o ho =>
      Or.inr ⟨_, hx.always o ho, List.nil_prefix, toCells_prefix.mpr hpart⟩

theorem writeCurrentFile_first (hC : ∀ d, (∀ n, Untouched n → (d.slot n).Gone c) →
      (d.slot .manifest).Exactly c (toCells firstLog) → C d)
    (ho : ∀ n, Untouched n → (dir.slot n).Gone c)
    (hm : (dir.slot .manifest).Exactly c (toCells firstLog)) :
    Safe (openRely C) (fun st d => ((∀ n, Untouched n → (d.slot n).Gone c) ∧
        (d.slot .manifest).Exactly c (toCells firstLog)) ∧ st = .ok)
      (writeCurrentFile .manifest) dir := by
  have hexec : ∀ (o : Op FileName Cell) (d : Dir),
      (∀ n, o.Touches n → n = .current ∨ n = .currentTmp) →
      ((∀ n, Untouched n → (d.slot n).Gone c) ∧
        (d.slot .manifest).Exactly c (toCells firstLog)) →
      (∀ n, Untouched n → ((o.exec d).slot n).Gone c) ∧
        ((o.exec d).slot .manifest).Exactly c (toCells firstLog) := by
    intro o d ht h
    have hkeeps : Keeps (fun n => n ≠ .current ∧ n ≠ .currentTmp) d (o.exec d) :=
      o.exec_keeps d fun n hn htn => (ht n htn).elim hn.1 hn.2
    exact ⟨fun n hn => hkeeps.gone ⟨hn.2.1, hn.2.2⟩ (h.1 n hn),
      hkeeps.exactly ⟨by simp, by simp⟩ h.2⟩
  have hsafe : Safe { openRely C with may := fun _ _ => True }
      (fun _ d => (∀ n, Untouched n → (d.slot n).Gone c) ∧
        (d.slot .manifest).Exactly c (toCells firstLog)) (writeCurrentFile .manifest) dir := by
    refine Safe.of_steps (fun d d' h hk => ?_) (fun d h _ => hC d h.1 h.2) ?_
      (writeCurrentFile_touches _) ⟨ho, hm⟩
    · exact ⟨fun n hn => hk.gone trivial (h.1 n hn), hk.exactly trivial h.2⟩
    · intro o ht d h _
      refine ⟨trivial, hexec o d ht h, ?_⟩
      rintro d' (rfl | rfl | ⟨n, xs, ys, rfl, _, rfl⟩)
      · exact h
      · exact hexec o d ht h
      · exact hexec (.append n ys) d ht h
  have hok : (writeCurrentFile .manifest).EndsOk fun st => st = .ok := rfl
  have hallowed : Safe (mainRely .opening 0) (anyResult Status) (writeCurrentFile .manifest) dir :=
    writeCurrentFile_any
  refine (hallowed.both (hsafe.and_endsOk hok) ?_ ?_ ?_ ?_ ?_).mono ?_
  · exact fun o hf => hf.elim
  · exact fun o d hmay _ => hmay.1
  · exact fun _ _ => trivial
  · exact fun d ha => ⟨ha, ha⟩
  · exact fun d _ hcr => hcr
  · exact fun st d _ _ h => ⟨h.2.1, h.2.2 fun _ hf => hf⟩

theorem save_first (hb : ¬ b) (ho : ∀ n, n ≠ .manifest → (dir.slot n).Gone c)
    (hm : (dir.slot .manifest).Gone c) :
    Safe (openRely fun d => c → Survivable c b [] [] d)
      (fun res d => res = (⟨.manifest, firstEdit, firstEdit⟩, .ok) ∧
        Loaded c [] [] firstEdit firstLog [] [] [] d)
      (Manifest.save {} firstEdit) dir := by
  have hF : Framed (fun n => n ≠ .manifest) fun d => ∀ n, n ≠ .manifest → (d.slot n).Gone c :=
    fun _ _ hk h n hn => hk.gone hn (h n hn)
  have hgone : Lasting fun s : Slot Cell => s.Gone c := fun s hs => ⟨hs.1, fun _ _ ho => ho⟩
  have hno : ∀ n : FileName, n = .manifest → ¬ n ≠ .manifest := fun n hn hne => hne hn
  have hplain : FileName.manifest.Plain := ⟨trivial, fun i => by simp, by simp⟩
  have hcr : ∀ d, (∀ n, n ≠ .manifest → (d.slot n).Gone c) →
      Grows c True (d.slot .manifest) [] (toCells firstLog) → c → Survivable c b [] [] d :=
    fun d ho hg => survivable_of_grows hb ho hg
  have hcrGone : ∀ d, (∀ n, n ≠ .manifest → (d.slot n).Gone c) → (d.slot .manifest).Gone c →
      c → Survivable c b [] [] d :=
    fun d ho hg => hcr d ho fun o hout => Or.inl ⟨trivial, hg.outcome hout⟩
  have hloaded : ∀ d, (∀ n, Untouched n → (d.slot n).Gone c) →
      (d.slot .manifest).Exactly c (toCells firstLog) →
      Loaded c [] [] firstEdit firstLog [] [] [] d :=
    fun d ho hx => ⟨firstLog_logged, hx, first_backed ho⟩
  have hcrFull : ∀ d, (∀ n, Untouched n → (d.slot n).Gone c) →
      (d.slot .manifest).Exactly c (toCells firstLog) → c → Survivable c b [] [] d :=
    fun d ho hx => Recoverable.survivable (J := []) (K := [])
      (fun _ => (hloaded d ho hx).recoverable) rfl
  unfold Manifest.save
  refine Safe.look_intro (open_stable hF hgone) ⟨ho, hm⟩ fun d h _ => ⟨hcrGone d h.1 h.2, ?_⟩
  obtain ⟨ho, hm⟩ := h
  have hnone : d.exists .current = false := by
    rw [FS.exists, (ho .current (by simp)).1]
    rfl
  dsimp only
  rw [hnone]
  unfold persistEditRecord
  dsimp only
  rw [if_neg (Nat.not_lt.mpr firstEdit_fits)]
  refine open_attempt (fun s => Tentative c True s [] []) hF hgone hno (fun _ => hplain) hcrGone
    (fun d hx => create_tentative_of_none hx.1 fun hc o hu => (hx.2 hc o hu).elim) ?_ ho hm
  intro d ho hm
  refine open_attempt (fun s => Tentative c True s [] (toCells firstLog)) hF
    (lasting_tentative c True _ _) hno (fun _ => hplain) ?_ (fun d hx => append_tentative hx _) ?_
    ho hm
  · exact fun d ho hx => hcr d ho ((hx.grows List.prefix_rfl).mono List.prefix_rfl List.nil_prefix)
  intro d ho hm
  refine open_attempt (fun s => Tentative c True s (toCells firstLog) (toCells firstLog)) hF
    (lasting_tentative c True _ _) hno (fun _ => trivial) ?_ (fun d hx => sync_tentative hx) ?_ ho hm
  · exact fun d ho hx => hcr d ho (hx.grows List.nil_prefix)
  intro d ho hm
  refine open_attempt (fun s => s.Exactly c (toCells firstLog)) hF (lasting_tentative c True _ _)
    (fun n hn => hn.elim) (fun _ => trivial) ?_ ?_ ?_ ho hm
  · exact fun d ho hx => hcr d ho ((hx.grows List.prefix_rfl).mono List.nil_prefix List.prefix_rfl)
  · intro d hx
    have hsynced : Tentative c False ((Op.syncDir.exec d).slot .manifest) (toCells firstLog)
        (toCells firstLog) := hx.dirSynced
    exact hsynced.exactly
  intro d ho hm
  refine (writeCurrentFile_first hcrFull (fun n hn => ho n hn.1) hm).bind ?_
  rintro st d _ ⟨⟨ho, hm⟩, rfl⟩
  exact Safe.ret_intro loaded_stable (hloaded d ho hm) fun d hd _ =>
    ⟨Recoverable.survivable (J := []) (K := []) (fun _ => hd.recoverable) rfl, rfl, hd⟩

theorem loadOrRecoverManifest_first (hb : ¬ b) {db : DB} (hdb : db.manifest = {})
    (hgone : ∀ n, (dir.slot n).Gone c) :
    Safe (openRely fun d => c → Survivable c b [] [] d)
      (fun res d => res = ({ db with manifest := ⟨.manifest, firstEdit, firstEdit⟩ }, .ok) ∧
        Loaded c [] [] firstEdit firstLog [] [] [] d)
      db.loadOrRecoverManifest dir := by
  have hstable : Stable (openRely fun d => c → Survivable c b [] [] d) fun d =>
      ∀ n, (d.slot n).Gone c :=
    fun d d' h hk n => hk.gone trivial (h n)
  have hcr : ∀ d : Dir, (∀ n, (d.slot n).Gone c) → c → Survivable c b [] [] d :=
    fun d hg => Unborn.survivable hb (Or.inl hg)
  have hall : ∀ d : Dir, (∀ n, (d.slot n).Gone c) → ∀ n, ¬ d.exists n = true := by
    intro d hg n hex
    rw [FS.exists, (hg n).1] at hex
    cases hex
  unfold DB.loadOrRecoverManifest
  refine Safe.look_intro hstable hgone fun d hg _ => ⟨hcr d hg, ?_⟩
  rw [if_neg (fun hex => hex.elim (hall d hg _) (hall d hg _))]
  refine Safe.look_intro hstable hg fun d hg ha => ⟨hcr d hg, ?_⟩
  have hssts : sstNumbers d = [] := by
    rw [List.eq_nil_iff_forall_not_mem]
    exact fun n hn => hall d hg _ (ha.mem_sstNumbers.mp hn)
  have hwals : walNumbers d = [] := by
    rw [List.eq_nil_iff_forall_not_mem]
    exact fun n hn => hall d hg _ (ha.mem_walNumbers.mp hn)
  dsimp only
  rw [hssts, hwals]
  show Safe _ _ (Manifest.save db.manifest firstEdit >>= fun x =>
    .ret ({ db with manifest := x.1 }, x.2)) d
  rw [hdb]
  refine (save_first hb (fun n _ => hg n) (hg _)).bind ?_
  rintro res d _ ⟨rfl, hd⟩
  exact Safe.ret_intro loaded_stable hd fun d hd _ =>
    ⟨Recoverable.survivable (J := []) (K := []) (fun _ => hd.recoverable) rfl, rfl, hd⟩

/-! ## A part of a first record -/

/-- A directory with nothing but a part of the first record is refused. -/
theorem loadOrRecoverManifest_torn {F : Dir → Prop} (hF : Stable (openRely C) F)
    (hC : ∀ d, F d → C d) (hcur : ∀ d, F d → d.exists .current = false) {part : Bytes}
    (hpart : part <+: firstLog) (hne : part ≠ firstLog)
    (hread : ∀ d, F d → d.read .manifest = some (toCells part)) (db : DB) (h : F dir) :
    Safe (openRely C) (fun res d => (∃ err, err ≠ .ok ∧ res = (db, err)) ∧ F d)
      db.loadOrRecoverManifest dir := by
  have hret : ∀ {ρ : Type} (r : ρ) (Q : ρ → Prop), Q r → ∀ d, F d →
      Safe (openRely C) (fun r d => Q r ∧ F d) (.ret r) d :=
    fun r Q hq d hd => Safe.ret_intro hF hd fun d hd _ => ⟨hC d hd, hq, hd⟩
  have hlog : ∀ d, F d → Safe (openRely C) (fun (res : Except Status VersionEdit) d =>
      (∃ err, err ≠ .ok ∧ res = .error err) ∧ F d) (loadEditLog .manifest) d := by
    intro d hd
    unfold loadEditLog
    refine safe_attempt hF hd (fun d hd _ => ⟨hC d hd, trivial⟩) ?_ (fun hf => hf.elim)
    intro d hd _
    refine Safe.look_intro hF hd fun d hd _ => ⟨hC d hd, ?_⟩
    obtain ⟨err, herr, hreplay⟩ := replayLog_tail (Or.inr ⟨_, firstEdit_fits, hpart, hne⟩)
    rw [hread d hd]
    simp only [bytesOf_toCells, hreplay]
    exact hret _ _ ⟨err, herr, rfl⟩ d hd
  have hload : ∀ d, F d → Safe (openRely C) (fun (res : Except Status ManifestState) d =>
      (∃ err, err ≠ .ok ∧ res = .error err) ∧ F d) load d := by
    intro d hd
    unfold load
    refine Safe.look_intro hF hd fun d hd _ => ⟨hC d hd, ?_⟩
    rw [hcur d hd, if_neg Bool.false_ne_true]
    refine safe_attempt hF hd (fun d hd _ => ⟨hC d hd, trivial⟩) ?_ (fun hf => hf.elim)
    intro d hd _
    refine Safe.look_intro hF hd fun d hd _ => ⟨hC d hd, ?_⟩
    rw [hread d hd]
    dsimp only
    split
    · exact hret _ _ ⟨_, by simp, rfl⟩ d hd
    · refine (hlog d hd).bind ?_
      rintro res d _ ⟨⟨err, herr, rfl⟩, hd⟩
      exact hret _ _ ⟨err, herr, rfl⟩ d hd
  unfold DB.loadOrRecoverManifest
  refine Safe.look_intro hF h fun d hd _ => ⟨hC d hd, ?_⟩
  have hex : d.exists .manifest = true := by
    rw [FS.exists_eq_read, hread d hd]
    rfl
  rw [if_pos (Or.inr hex)]
  refine (hload d hd).bind ?_
  rintro res d _ ⟨⟨err, herr, rfl⟩, hd⟩
  exact hret _ _ ⟨err, herr, rfl⟩ d hd

/-! ## `Open` on a directory at rest -/

def OpenEnds (c b : Prop) (H I : List WALBatchRecord) (db : DB) (res : DB × Status) (dir : Dir) :
    Prop :=
  (res.2 = .ok ∧ ∃ L floor m, Reopened c H I res.1 L floor m dir) ∨
    (res.2 ≠ .ok ∧ res.1.closed = true ∧ res.1.snapshots = db.snapshots ∧
      ¬ b ∧ H = [] ∧ I = [] ∧ Torn c dir)

def openAnswer (res : DB × Status) : DB × Status :=
  (if res.2 ≠ .ok then { res.1 with closed := true, wal := none } else res.1, res.2)

theorem open_eq (db : DB) : db.open = db.openUnlocked >>= fun res => .ret (openAnswer res) := rfl

theorem openAnswer_ok {res : DB × Status} (h : res.2 = .ok) : openAnswer res = res := by
  unfold openAnswer
  rw [if_neg (by rw [h]; exact fun hne => hne rfl)]

theorem open_safe (hrest : AtRest c b H I dir) {db : DB}
    (hsnap : ∀ s ∈ db.snapshots, s.active = false) :
    Safe (openRely fun d => c → Survivable c b H I d) (OpenEnds c b H I db) db.open dir := by
  rw [open_eq]
  refine Safe.map ?_
  rcases hrest with ⟨J, K, e, log, tail, T, L, P, rfl, hrest⟩ | ⟨hb, rfl, rfl, hunborn⟩
  · obtain ⟨J', K', L', P', rfl, hback⟩ := hrest.backed
    rw [List.append_assoc] at hback
    have hopen : Safe (openRely fun d => c → Survivable c b H (J ++ (J' ++ K')) d) _
        db.openUnlocked dir :=
      openUnlocked_safe (fun d hd => Recoverable.survivable hd (List.append_assoc _ _ _))
        (List.append_assoc J J' K') hsnap hrest.logged hrest.torn hrest.manifest hback
    refine hopen.mono ?_
    intro res d _ _ hres
    refine Or.inl ?_
    rw [openAnswer_ok hres.1]
    exact hres
  · rcases hunborn with hgone | ⟨hothers, part, hpart, hne, hx⟩
    · have hopen : Safe (openRely fun d => c → Survivable c b [] [] d)
          (fun res d => res.2 = .ok ∧ ∃ L floor m, Reopened c [] [] res.1 L floor m d)
          db.openUnlocked dir := by
        refine safe_andThen (loadOrRecoverManifest_first hb rfl hgone) ?_
        rintro res d _ ⟨rfl, hd⟩
        exact ⟨rfl, loaded_open (J := []) (K := [])
          (fun d hd => Recoverable.survivable (J := []) (K := []) hd rfl) rfl hsnap hd rfl⟩
      refine hopen.mono ?_
      intro res d _ _ hres
      refine Or.inl ?_
      rw [openAnswer_ok hres.1]
      exact hres
    · -- the part of a record stays, and the answer is an error
      have hstable : Stable (openRely fun d => c → Survivable c b [] [] d) fun d =>
          (∀ n, n ≠ .manifest → (d.slot n).Gone c) ∧
            (d.slot .manifest).Exactly c (toCells part) :=
        fun d d' h hk => ⟨fun n hn => hk.gone trivial (h.1 n hn), hk.exactly trivial h.2⟩
      have htorn : ∀ d : Dir, (∀ n, n ≠ .manifest → (d.slot n).Gone c) ∧
          (d.slot .manifest).Exactly c (toCells part) → Torn c d :=
        fun d h => ⟨h.1, part, hpart, hne, h.2⟩
      have hload := loadOrRecoverManifest_torn hstable
        (fun d h => Unborn.survivable hb (Or.inr (htorn d h)))
        (fun d h => by rw [FS.exists, (h.1 .current (by simp)).1]; rfl) hpart hne
        (fun d h => h.2.1) db.resetForOpen ⟨hothers, hx⟩
      unfold DB.openUnlocked DB.andThen
      refine hload.bind ?_
      rintro res d _ ⟨⟨err, herr, rfl⟩, hd⟩
      show Safe _ _ (if err ≠ .ok then .ret (db.resetForOpen, err) else _) d
      rw [if_pos herr]
      refine Safe.ret_intro hstable hd fun d h _ =>
        ⟨Unborn.survivable hb (Or.inr (htorn d h)), Or.inr ?_⟩
      unfold openAnswer
      dsimp only
      rw [if_pos herr]
      exact ⟨herr, rfl, rfl, hb, rfl, rfl, htorn d h⟩

end

end KvMem
