import KvMem.Engine.Serving

/-! # Recovery

What `Open` makes of the files of a database that was open before. `MANIFEST` gives the
version, the logs from its oldest one on are replayed, and what a crash has left
unfinished is cut off. A crash in the middle leaves the same to the next `Open`.
-/

namespace KvMem

open CrashStore RecordLog FileProg Manifest Versions Compaction

/-! ## What lies in the files -/

/-- A log at rest reads as the records `rs`; of a batch that was being appended only a
part is there. -/
def LogReads (c : Prop) (s : Slot Cell) (rs ps : List WALBatchRecord) : Prop :=
  (ps = [] ∧ LogHolds c s rs) ∨ ∃ r tail, ps = [r] ∧ tail <+: Wal.encodeRecord r ∧
    tail ≠ Wal.encodeRecord r ∧ s.Exactly c (toCells (encodeAll Wal.encodeRecord rs ++ tail))

/-- The files behind a version: the logs read as the history `H`, and a batch of `I` was
lost. -/
structure Backed (c : Prop) (H I : List WALBatchRecord) (e : VersionEdit) (T : List OpenTable)
    (L P : Log) (dir : Dir) : Prop where
  stored : Stored c dir e T L P
  tables : ∀ h ∈ T, (dir.slot (.sst h.fileNumber)).Exactly c [.table h.table]
  reads : ∀ n, e.walFileNumber ≤ n → LogReads c (dir.slot (.wal n)) (L.inLog n) (P.inLog n)
  history : L.records = H
  pending : P.records = I

section

variable {c : Prop} {s : Slot Cell} {rs ps : List WALBatchRecord}

theorem within_wal {r : WALBatchRecord} {tail : Bytes} (ht : tail <+: Wal.encodeRecord r)
    (h : s.Within c (toCells (encodeAll Wal.encodeRecord rs))
      (toCells (encodeAll Wal.encodeRecord rs ++ tail))) : WalHolds c s rs [r] := by
  refine Or.inr (h.mono List.prefix_rfl ?_)
  rw [ toCells_prefix, encodeAll_append, encodeAll_cons, encodeAll_nil, List.append_nil]
  exact (List.prefix_append_right_inj _).mpr ht

theorem LogReads.walHolds (h : LogReads c s rs ps) : WalHolds c s rs ps := by
  rcases h with ⟨rfl, h⟩ | ⟨r, tail, rfl, ht, _, h⟩
  · exact h.walHolds
  · refine within_wal ht ?_
    rw [toCells_append]
    exact h.always.within.mono (by rw [toCells_append]; exact List.prefix_append _ _)
      (by rw [toCells_append])

theorem LogReads.keeps {keep : FileName → Prop} {d d' : Dir} {n : FileName}
    (h : LogReads c (d.slot n) rs ps) (hk : Keeps keep d d') (hn : keep n) :
    LogReads c (d'.slot n) rs ps := by
  rcases h with ⟨hp, h⟩ | ⟨r, tail, hp, ht, hne, h⟩
  · exact Or.inl ⟨hp, h.keeps hk hn⟩
  · exact Or.inr ⟨r, tail, hp, ht, hne, hk.exactly hn h⟩

theorem LogReads.read (h : LogReads c s rs ps) (hv : ∀ r ∈ ps, Wal.Appendable r) :
    ∃ tail, Tail Wal.encodeRecord Wal.Appendable tail ∧
      bytesOf ((s.data.map Data.cur).getD []) = encodeAll Wal.encodeRecord rs ++ tail ∧
      (tail = [] → LogHolds c s rs) ∧
      (tail ≠ [] → s.Exactly c (toCells (encodeAll Wal.encodeRecord rs ++ tail)) ∧
        ∃ r, ps = [r] ∧ tail <+: Wal.encodeRecord r) := by
  rcases h with ⟨rfl, ⟨rfl, h⟩ | h⟩ | ⟨r, tail, rfl, ht, hne, h⟩
  · refine ⟨[], Tail.nil _ _, by rw [h.1]; rfl, fun _ => Or.inl ⟨rfl, h⟩, fun hne => absurd rfl hne⟩
  · refine ⟨[], Tail.nil _ _, ?_, fun _ => Or.inr h, fun hne => absurd rfl hne⟩
    rw [h.1, List.append_nil]
    exact bytesOf_toCells _
  · refine ⟨tail, Or.inr ⟨r, hv r (List.mem_singleton_self r), ht, hne⟩, ?_, ?_, ?_⟩
    · rw [h.1]
      exact bytesOf_toCells _
    · rintro rfl
      rw [List.append_nil] at h
      exact Or.inr h
    · exact fun _ => ⟨h, r, rfl, ht⟩

theorem WalHolds.logHolds (h : WalHolds c s rs []) (hf : s.Firm c) : LogHolds c s rs := by
  rcases h with ⟨hr, _, h⟩ | h
  · rcases hf with hf | ⟨xs, hf⟩
    · exact Or.inl ⟨hr, hf⟩
    · refine Or.inr ?_
      rcases h _ (Slot.outcome_cur c s) with hn | hn
      · rw [hf.1] at hn
        cases hn
      · rw [hf.1] at hn
        rw [hr, encodeAll_nil, toCells_nil, ← Option.some.inj hn]
        exact hf
  · rw [List.append_nil] at h
    exact Or.inr (hf.exactly h.always.cur)

end

theorem Log.inLog_append (L M : Log) (n : Nat) : Log.inLog (L ++ M) n = L.inLog n ++ M.inLog n := by
  rw [inLog, inLog, inLog, List.filter_append, records, records, records, List.map_append]

theorem Log.records_append (L M : Log) : Log.records (L ++ M) = L.records ++ M.records :=
  List.map_append

section

variable {c : Prop} {H I : List WALBatchRecord} {e : VersionEdit} {log tail : Bytes}
  {T : List OpenTable} {L P : Log} {dir dir' : Dir}

theorem Stored.since_pending (h : Stored c dir e T L P) : P.since e.walFileNumber = P :=
  List.filter_eq_self.mpr fun p hp => decide_eq_true (h.pending p hp).1

theorem Stored.commit (h : Stored c dir e T L P)
    (hl : ∀ n, e.walFileNumber ≤ n → WalHolds c (dir.slot (.wal n)) (Log.inLog (L ++ P) n) []) :
    Stored c dir e T (L ++ P) [] :=
  { h with
    history := by
      rw [List.append_nil]
      exact h.history
    single := by simp
    older := by
      intro p hp hlt
      rcases List.mem_append.mp hp with hp | hp
      · exact h.older p hp hlt
      · exact absurd (h.pending p hp).1 (Nat.not_le.mpr hlt)
    reached := h.reached.append P
    pending := by simp
    view := by
      obtain ⟨m, hm, hview⟩ := h.view
      refine ⟨m, hm, ?_⟩
      have hnewer : ∀ x ∈ setOf L.versions, ∀ y ∈ setOf P.versions, x.sequence < y.sequence := by
        intro x hx y hy
        obtain ⟨p, hp, hx⟩ := Log.mem_versions.mp hx
        obtain ⟨q, hq, hy⟩ := Log.mem_versions.mp hy
        have hlt := (List.pairwise_append.mp h.history.increasing).2.2 p hp q hq
        have := (Log.versions_range hx).2
        have := (Log.versions_range hy).1
        omega
      have hext := hview.extend hnewer
      rw [← setOf_append, ← setOf_append, List.append_assoc, ← Log.versions_append,
        ← Log.versions_append] at hext
      rw [Log.since_append, h.since_pending]
      exact hext
    logs := by
      intro n hn
      exact hl n hn }

theorem Backed.keeps {keep : FileName → Prop} (h : Backed c H I e T L P dir)
    (hk : Keeps keep dir dir')
    (hs : ∀ n, Stores e.walFileNumber (T.map (·.fileNumber)) n → keep n) :
    Backed c H I e T L P dir' where
  stored := h.stored.of_outcome fun n hn _ ho => hk.outcome (hs n hn) ho
  tables := fun t ht => hk.exactly (hs _ (Or.inr ⟨_, List.mem_map_of_mem ht, rfl⟩)) (h.tables t ht)
  reads := fun n hn => (h.reads n hn).keeps hk (hs _ (Or.inl ⟨n, hn, rfl⟩))
  history := h.history
  pending := h.pending

theorem Backed.ready (h : Backed c H I e T L P dir) :
    Ready c H I e.walFileNumber (T.map (·.fileNumber)) e dir :=
  ⟨Nat.le_refl _, T, L, P, h.stored, h.history, h.pending, fun _ ht => List.mem_map_of_mem ht⟩

/-- What lies in the files decides whether the pending batch has been committed. -/
theorem Resting.backed (h : Resting c H I dir e log tail T L P) :
    ∃ J K L' P', J ++ K = I ∧ Backed c (H ++ J) K e T L' P' dir := by
  have hstay : (∀ n, e.walFileNumber ≤ n →
      LogReads c (dir.slot (.wal n)) (L.inLog n) (P.inLog n)) →
      ∃ J K L' P', J ++ K = I ∧ Backed c (H ++ J) K e T L' P' dir := fun hreads =>
    ⟨[], I, L, P, rfl, h.stored, h.tables, hreads, by rw [List.append_nil]; exact h.history,
      h.pending⟩
  have hplain : ∀ n, e.walFileNumber ≤ n → P.inLog n = [] →
      LogReads c (dir.slot (.wal n)) (L.inLog n) (P.inLog n) := by
    intro n hn hnil
    have hlog := h.stored.logs n hn
    rw [hnil] at hlog ⊢
    exact Or.inl ⟨rfl, hlog.logHolds (h.logs n hn)⟩
  match hP : P, h.stored.single with
  | [], _ =>
    subst hP
    exact hstay fun n hn => hplain n hn rfl
  | [(a, r)], _ =>
    subst hP
    obtain ⟨ha, _⟩ := h.stored.pending (a, r) (List.mem_singleton_self _)
    have hin : Log.inLog [(a, r)] a = [r] := by simp [Log.inLog, Log.records]
    have hout : ∀ n, n ≠ a → Log.inLog [(a, r)] n = [] := by
      intro n hne
      simp [Log.inLog, Log.records, Ne.symm hne]
    have hlog := h.stored.logs a ha
    rw [hin] at hlog
    rcases hlog with ⟨_, hno, _⟩ | hlog
    · cases hno
    · obtain ⟨zs, hcur, hx, hy⟩ := hlog.cur
      obtain ⟨bytes, rfl, hbytes⟩ := prefix_toCells hy
      obtain ⟨part, rfl⟩ := toCells_prefix.mp hx
      have hexact := (h.logs a ha).exactly hcur
      rw [encodeAll_append, encodeAll_cons, encodeAll_nil, List.append_nil] at hbytes
      have hpart := (List.prefix_append_right_inj _).mp hbytes
      by_cases hfull : part = Wal.encodeRecord r
      · subst hfull
        have hholds : ∀ n, e.walFileNumber ≤ n →
            LogHolds c (dir.slot (.wal n)) (Log.inLog (L ++ [(a, r)]) n) := by
          intro n hn
          rw [Log.inLog_append]
          by_cases hna : n = a
          · subst hna
            refine Or.inr ?_
            rw [hin, encodeAll_append, encodeAll_cons, encodeAll_nil, List.append_nil]
            exact hexact
          · have hlog := h.stored.logs n hn
            rw [hout n hna] at hlog
            rw [hout n hna, List.append_nil]
            exact hlog.logHolds (h.logs n hn)
        refine ⟨I, [], L ++ [(a, r)], [], List.append_nil _,
          h.stored.commit fun n hn => (hholds n hn).walHolds, h.tables,
          fun n hn => Or.inl ⟨rfl, hholds n hn⟩, ?_, rfl⟩
        rw [Log.records_append, h.history, h.pending]
      · refine hstay fun n hn => ?_
        by_cases hna : n = a
        · subst hna
          rw [hin]
          exact Or.inr ⟨r, part, rfl, hpart, hfull, hexact⟩
        · exact hplain n hn (hout n hna)
  | _ :: _ :: _, hlen => exact absurd hlen (by simp)

end

/-! ## Steps of `Open` -/

/-- While a database is being opened nobody else works in its directory. -/
def openRely (crash : Dir → Prop) : Rely FileName Cell where
  fault := fun _ => False
  may := Allowed
  keep := fun _ => True
  ambient := Ambient
  crash := crash

section

variable {C : Dir → Prop} {F : Dir → Prop} {keep : FileName → Prop} {nm : FileName}
  {Q : Slot Cell → Prop} {dir : Dir} {ρ : Type} {Post : ρ → Dir → Prop}

theorem open_stable (hF : Framed keep F) (hQ : Lasting Q) :
    Stable (openRely C) fun d => F d ∧ Q (d.slot nm) :=
  fun d d' h hk => ⟨hF d d' (hk.mono fun _ _ => trivial) h.1, hQ.slot hk trivial h.2⟩

theorem open_attempt (N : Slot Cell → Prop) (hF : Framed keep F) (hQ : Lasting Q)
    {o : Op FileName Cell} {fail k : Prog ρ} (ht : ∀ n, o.Touches n → ¬ keep n)
    (hmay : ∀ d, Allowed o d) (hcr : ∀ d, F d → Q (d.slot nm) → C d)
    (hexec : ∀ d : Dir, Q (d.slot nm) → N ((o.exec d).slot nm))
    (hk : ∀ d, F d → N (d.slot nm) → Safe (openRely C) Post k d)
    (hd : F dir) (hq : Q (dir.slot nm)) : Safe (openRely C) Post (attempt o fail k) dir := by
  refine safe_attempt (open_stable hF hQ) ⟨hd, hq⟩ ?_ ?_ ?_
  · exact fun d h _ => ⟨hcr d h.1 h.2, hmay d⟩
  · exact fun d h _ => hk _ (hF.exec ht h.1) (hexec d h.2)
  · exact fun hf => hf.elim

theorem lasting_cut (c : Prop) (xs ys : List Cell) : Lasting fun s => s.Cut c xs ys :=
  fun _ h => h.dirSynced

theorem cut_safe {c : Prop} {xs ys : List Cell} (hF : Framed keep F) (hnm : ¬ keep nm)
    (hplain : nm.Plain) {size : Nat} (hsize : size = xs.length) {f₁ f₂ f₃ k : Prog ρ}
    (hcr : ∀ d, F d → (d.slot nm).Within c xs (xs ++ ys) → C d)
    (hk : ∀ d, F d → (d.slot nm).Exactly c xs → Safe (openRely C) Post k d)
    (hd : F dir) (hq : (dir.slot nm).Exactly c (xs ++ ys)) :
    Safe (openRely C) Post
      (attempt (.truncate nm size) f₁ <| attempt (.sync nm) f₂ <| attempt .syncDir f₃ k) dir := by
  subst hsize
  have hno : ∀ n, n = nm → ¬ keep n := fun n hn => hn ▸ hnm
  have hall : ∀ d, F d → (d.slot nm).Always c xs → C d := fun d hd hx =>
    hcr d hd (hx.within.mono List.prefix_rfl (List.prefix_append _ _))
  refine open_attempt (fun s => s.Cut c xs (xs ++ ys)) hF (lasting_exactly c _) hno
    (fun _ => hplain) ?_ (fun d hx => truncate_cut hx) ?_ hd hq
  · intro d hd hx
    exact hcr d hd (hx.always.within.mono (List.prefix_append _ _) List.prefix_rfl)
  intro d hd hq
  refine open_attempt (fun s => s.Exactly c xs) hF (lasting_cut c xs (xs ++ ys)) hno
    (fun _ => trivial) (fun d hd hx => hcr d hd hx.within) (fun d hx => sync_cut hx) ?_ hd hq
  intro d hd hq
  exact open_attempt (fun s => s.Exactly c xs) hF (lasting_exactly c _) (fun n hn => hn.elim)
    (fun _ => trivial) (fun d hd hx => hall d hd hx.always) (fun d hx => lasting_exactly c _ _ hx)
    hk hd hq

end

/-! ## The version -/

structure Loaded (c : Prop) (H I : List WALBatchRecord) (e : VersionEdit) (log : Bytes)
    (T : List OpenTable) (L P : Log) (dir : Dir) : Prop where
  logged : Logged e log
  manifest : (dir.slot .manifest).Exactly c (toCells log)
  backed : Backed c H I e T L P dir

section

variable {c : Prop} {H I : List WALBatchRecord} {e : VersionEdit} {log tail : Bytes}
  {T : List OpenTable} {L P : Log} {dir dir' : Dir} {C : Dir → Prop}

theorem Loaded.keeps (h : Loaded c H I e log T L P dir) (hk : Keeps (fun _ => True) dir dir') :
    Loaded c H I e log T L P dir' :=
  ⟨h.logged, hk.exactly trivial h.manifest, h.backed.keeps hk fun _ _ => trivial⟩

theorem Loaded.recoverable (h : Loaded c H I e log T L P dir) :
    Recoverable c H I e.walFileNumber (T.map (·.fileNumber)) dir :=
  recoverable_of_always h.logged h.manifest.always h.backed.ready

theorem loaded_stable : Stable (openRely C) fun d => Loaded c H I e log T L P d :=
  fun _ _ h hk => h.keeps hk

theorem backed_framed :
    Framed (Stores e.walFileNumber (T.map (·.fileNumber))) (Backed c H I e T L P) :=
  fun _ _ hk h => h.keeps hk fun _ hn => hn

theorem recoverable_of_torn (hlog : Logged e log) (ht : Tail encodeRecord FitsHeader tail)
    (hs : (dir.slot .manifest).Within c (toCells log) (toCells (log ++ tail)))
    (h : Backed c H I e T L P dir) :
    Recoverable c H I e.walFileNumber (T.map (·.fileNumber)) dir := by
  intro o ho
  obtain ⟨zs, rfl, hx, hy⟩ := hs o ho
  obtain ⟨bytes, rfl, hbytes⟩ := prefix_toCells hy
  obtain ⟨part, rfl⟩ := toCells_prefix.mp hx
  have hpart : part <+: tail := (List.prefix_append_right_inj log).mp hbytes
  refine ⟨_, rfl, e, log, part, rfl, hlog, ?_, h.ready⟩
  rcases ht with rfl | ⟨payload, hfits, hpre, hne⟩
  · exact Or.inl (List.prefix_nil.mp hpart)
  · refine Or.inr ⟨payload, hfits, hpart.trans hpre, ?_⟩
    rintro rfl
    exact hne (hpre.eq_of_length_le hpart.length_le)

theorem Backed.exists_table (h : Backed c H I e T L P dir) {f : SSTableMeta} (hf : f ∈ e.sstables) :
    ∃ t ∈ T, t.fileNumber = f.fileNumber ∧ dir.read f.filePath = some [.table t.table] := by
  obtain ⟨t, ht, hnum, _⟩ := h.stored.aligned.handle hf
  refine ⟨t, ht, hnum, ?_⟩
  rw [(h.stored.wf.files f hf).path, ← hnum]
  exact (h.tables t ht).1

theorem loadEditLog_safe
    (hC : ∀ d, (c → Recoverable c H I e.walFileNumber (T.map (·.fileNumber)) d) → C d)
    (hlog : Logged e log) (ht : Tail encodeRecord FitsHeader tail)
    (hm : (dir.slot .manifest).Exactly c (toCells (log ++ tail))) (hb : Backed c H I e T L P dir) :
    Safe (openRely C) (fun res d => res = .ok e ∧ Loaded c H I e log T L P d)
      (loadEditLog .manifest) dir := by
  have hcr : ∀ d, Backed c H I e T L P d →
      (d.slot .manifest).Within c (toCells log) (toCells (log ++ tail)) → C d :=
    fun d hd hx => hC d fun _ => recoverable_of_torn hlog ht hx hd
  have hcrFull : ∀ d, Backed c H I e T L P d →
      (d.slot .manifest).Exactly c (toCells (log ++ tail)) → C d :=
    fun d hd hx => hcr d hd (hx.always.within.mono (by rw [toCells_append]; exact List.prefix_append _ _)
      List.prefix_rfl)
  -- the last look: every table of the version is there
  have hfinish : ∀ d, Loaded c H I e log T L P d →
      Safe (openRely C) (fun (res : Except Status VersionEdit) d => res = .ok e ∧
          Loaded c H I e log T L P d)
        (.look fun dir => if e.sstables.all fun f => dir.exists f.filePath then .ret (.ok e)
          else .ret (.error (.ioError "MANIFEST references missing SSTable"))) d := by
    intro d hd
    refine Safe.look_intro loaded_stable hd fun d hd _ => ⟨hC d fun _ => hd.recoverable, ?_⟩
    have hall : (e.sstables.all fun f => d.exists f.filePath) = true := by
      rw [List.all_eq_true]
      intro f hf
      obtain ⟨t, _, _, hread⟩ := hd.backed.exists_table hf
      rw [FS.exists_eq_read, hread]
      rfl
    rw [if_pos hall]
    exact Safe.ret_intro loaded_stable hd fun d hd _ => ⟨hC d fun _ => hd.recoverable, rfl, hd⟩
  unfold loadEditLog
  refine open_attempt (fun s => s.Exactly c (toCells (log ++ tail))) backed_framed
    (lasting_exactly c _) (fun n hn => hn.elim) (fun _ => trivial) hcrFull (fun d hx => hx) ?_ hb hm
  intro d hb hm
  refine Safe.look_intro (open_stable backed_framed (lasting_exactly c (toCells (log ++ tail))))
    ⟨hb, hm⟩ fun d h _ => ⟨hcrFull d h.1 h.2, ?_⟩
  obtain ⟨hb, hm⟩ := h
  have hread : d.read .manifest = some (toCells (log ++ tail)) := hm.1
  rw [hread]
  simp only [bytesOf_toCells, hlog.replayLog ht]
  split
  · rename_i hnil
    subst hnil
    rw [List.append_nil] at hm
    exact hfinish d ⟨hlog, hm, hb⟩
  · rw [toCells_append] at hm
    refine cut_safe backed_framed not_stores_manifest ⟨trivial, fun i => by simp, by simp⟩ ?_
      (fun d hd hx => hcr d hd (by rw [toCells_append]; exact hx))
      (fun d hd hx => hfinish d ⟨hlog, hx, hd⟩) hb hm
    rw [List.length_append, toCells_length]
    omega

theorem current_names_manifest :
    Text.splitLine (currentBytes .manifest) = (ascii "MANIFEST", some []) ∧
      (Text.readToken []).isSome = false ∧ FileName.ofBytes (ascii "MANIFEST") = .manifest := by
  decide

theorem Manifest.Logged.take_front (h : Logged e log) : (log ++ tail).take 7 = ascii "record " := by
  obtain ⟨payloads, _, rfl, hreplay⟩ := h.records
  cases payloads with
  | nil => cases hreplay
  | cons payload rest =>
    have hword : ascii "record" ++ [32] = ascii "record " := by decide
    rw [encodeAll_cons, encodeRecord, ← hword]
    simp only [List.append_assoc, List.cons_append]
    rfl

theorem Ambient.read_current (h : Ambient dir) (hex : dir.exists .current = true) :
    bytesOf ((dir.read .current).getD []) = currentBytes .manifest := by
  obtain ⟨d, hd⟩ := Option.isSome_iff_exists.mp hex
  have hcur := h.current d.cur (Slot.survives_data hd)
  have hread : dir.read .current = some d.cur := by
    rw [FS.read, hd]
    rfl
  rw [hread, hcur]
  exact bytesOf_toCells _

theorem load_safe
    (hC : ∀ d, (c → Recoverable c H I e.walFileNumber (T.map (·.fileNumber)) d) → C d)
    (hlog : Logged e log) (ht : Tail encodeRecord FitsHeader tail)
    (hm : (dir.slot .manifest).Exactly c (toCells (log ++ tail))) (hb : Backed c H I e T L P dir) :
    Safe (openRely C) (fun res d => res = .ok ⟨.manifest, e, e⟩ ∧ Loaded c H I e log T L P d)
      load dir := by
  have hstable : Stable (openRely C) fun d =>
      Backed c H I e T L P d ∧ (d.slot .manifest).Exactly c (toCells (log ++ tail)) :=
    open_stable backed_framed (lasting_exactly c (toCells (log ++ tail)))
  have hcr : ∀ d, Backed c H I e T L P d →
      (d.slot .manifest).Exactly c (toCells (log ++ tail)) → C d :=
    fun d hd hx => hC d fun _ => recoverable_of_torn hlog ht
      (hx.always.within.mono (by rw [toCells_append]; exact List.prefix_append _ _) List.prefix_rfl) hd
  have hload : ∀ (f : Except Status VersionEdit → Prog (Except Status ManifestState)) (d : Dir),
      f (.ok e) = .ret (.ok ⟨.manifest, e, e⟩) → Backed c H I e T L P d →
      (d.slot .manifest).Exactly c (toCells (log ++ tail)) →
      Safe (openRely C) (fun (res : Except Status ManifestState) d =>
          res = .ok ⟨.manifest, e, e⟩ ∧ Loaded c H I e log T L P d)
        (loadEditLog .manifest >>= f) d := by
    intro f d hf hb hm
    refine (loadEditLog_safe hC hlog ht hm hb).bind ?_
    rintro res d _ ⟨rfl, hd⟩
    rw [hf]
    exact Safe.ret_intro loaded_stable hd fun d hd _ => ⟨hC d fun _ => hd.recoverable, rfl, hd⟩
  unfold load
  refine Safe.look_intro hstable ⟨hb, hm⟩ fun d h _ => ⟨hcr d h.1 h.2, ?_⟩
  obtain ⟨hb, hm⟩ := h
  split
  · rename_i hex
    -- `CURRENT` stays where it is while it is read
    have hstable' : Stable (openRely C) fun d => d.exists .current = true ∧
        Backed c H I e T L P d ∧ (d.slot .manifest).Exactly c (toCells (log ++ tail)) :=
      fun d d' h hk => ⟨by rw [hk.exists trivial]; exact h.1, hstable d d' h.2 hk⟩
    refine safe_attempt hstable' ⟨hex, hb, hm⟩ (fun d h _ => ⟨hcr d h.2.1 h.2.2, trivial⟩) ?_
      (fun hf => hf.elim)
    intro d h _
    refine Safe.look_intro hstable' h fun d h ha => ⟨hcr d h.2.1 h.2.2, ?_⟩
    obtain ⟨hex, hb, hm⟩ := h
    obtain ⟨hsplit, htoken, hname⟩ := current_names_manifest
    have hman : d.exists .manifest = true := by
      rw [FS.exists_eq_read, FS.read, hm.1]
      rfl
    simp only [ha.read_current hex, hsplit, Option.getD_some, htoken, hname]
    rw [if_neg (by decide), if_neg (by decide), if_pos hman]
    exact hload _ d rfl hb hm
  · refine safe_attempt hstable ⟨hb, hm⟩ (fun d h _ => ⟨hcr d h.1 h.2, trivial⟩) ?_
      (fun hf => hf.elim)
    intro d h _
    refine Safe.look_intro hstable h fun d h _ => ⟨hcr d h.1 h.2, ?_⟩
    have hread : d.read .manifest = some (toCells (log ++ tail)) := h.2.1
    rw [hread]
    simp only [bytesOf_toCells]
    rw [if_neg (by rw [hlog.take_front]; exact fun hf => hf rfl)]
    exact hload _ d rfl h.1 h.2

theorem loadOrRecoverManifest_safe
    (hC : ∀ d, (c → Recoverable c H I e.walFileNumber (T.map (·.fileNumber)) d) → C d)
    (hlog : Logged e log) (ht : Tail encodeRecord FitsHeader tail)
    (hm : (dir.slot .manifest).Exactly c (toCells (log ++ tail))) (hb : Backed c H I e T L P dir)
    (db : DB) :
    Safe (openRely C) (fun res d => res = ({ db with manifest := ⟨.manifest, e, e⟩ }, .ok) ∧
      Loaded c H I e log T L P d) db.loadOrRecoverManifest dir := by
  unfold DB.loadOrRecoverManifest
  refine Safe.look_intro (open_stable backed_framed (lasting_exactly c (toCells (log ++ tail))))
    ⟨hb, hm⟩ fun d h _ => ⟨?_, ?_⟩
  · exact hC d fun _ => recoverable_of_torn hlog ht (h.2.always.within.mono
      (by rw [toCells_append]; exact List.prefix_append _ _) List.prefix_rfl) h.1
  · have hman : d.exists .manifest = true := by
      rw [FS.exists_eq_read, FS.read, h.2.1]
      rfl
    rw [if_pos (Or.inr hman)]
    refine (load_safe hC hlog ht h.2 h.1).bind ?_
    rintro res d _ ⟨rfl, hd⟩
    exact Safe.ret_intro loaded_stable hd fun d hd _ => ⟨hC d fun _ => hd.recoverable, rfl, hd⟩

/-! ## Tables -/

structure Reopens (cache : Nat) (T : List OpenTable) (f : SSTableMeta) (h : OpenTable) : Prop where
  number : h.fileNumber = f.fileNumber
  path : h.filePath = f.filePath
  cache : h.cache = cache
  table : ∃ t ∈ T, t.fileNumber = f.fileNumber ∧ h.table = t.table

theorem openSSTables_safe
    (hC : ∀ d, (c → Recoverable c H I e.walFileNumber (T.map (·.fileNumber)) d) → C d)
    (files : List SSTableMeta) (hfiles : ∀ f ∈ files, f ∈ e.sstables) (db : DB)
    (h : Loaded c H I e log T L P dir) :
    Safe (openRely C) (fun res d => Loaded c H I e log T L P d ∧ ∃ hs,
        List.Forall₂ (Reopens db.cache T) files hs ∧
        res = ({ db with sstables := db.sstables ++ hs, opened := db.opened ++ hs }, .ok))
      (DB.openSSTables files db) dir := by
  induction files generalizing db dir with
  | nil =>
    refine Safe.ret_intro loaded_stable h fun d hd _ => ⟨hC d fun _ => hd.recoverable, hd, [],
      .nil, ?_⟩
    rw [List.append_nil, List.append_nil]
  | cons f files ih =>
    obtain ⟨t, ht, hnum, _⟩ := h.backed.exists_table (hfiles f List.mem_cons_self)
    have hread : ∀ d, Loaded c H I e log T L P d → d.read f.filePath = some [.table t.table] := by
      intro d hd
      rw [(hd.backed.stored.wf.files f (hfiles f List.mem_cons_self)).path, ← hnum]
      exact (hd.backed.tables t ht).1
    refine (openTable_safe t.table loaded_stable h
      (fun d hd _ => ⟨hC d fun _ => hd.recoverable, trivial⟩) hread).bind ?_
    rintro res d _ ⟨hd, hres, _⟩
    rw [hres fun hf => hf]
    have hnext := ih (fun g hg => hfiles g (List.mem_cons_of_mem f hg))
      { db with
        sstables := db.sstables ++ [⟨f.fileNumber, f.filePath, db.cache, t.table⟩]
        opened := db.opened ++ [⟨f.fileNumber, f.filePath, db.cache, t.table⟩] } hd
    refine hnext.mono ?_
    rintro res' d _ _ ⟨hd, hs, hall, rfl⟩
    refine ⟨hd, ⟨f.fileNumber, f.filePath, db.cache, t.table⟩ :: hs, .cons ⟨rfl, rfl, rfl, t, ht, hnum, rfl⟩ hall, ?_⟩
    simp only [List.append_assoc, List.singleton_append]

end

/-! ## Replay -/

theorem replayOps_ok (ops : WriteBatch) (sequence : Nat) (s : DB.Replay)
    (hk : ∀ o ∈ ops, KeyOk o.key) :
    DB.replayOps ops sequence s = .ok { s with
      mem := DB.applyBatch ops sequence s.mem
      lastSequence := if ops = [] then s.lastSequence
        else max s.lastSequence (sequence + ops.length - 1) } := by
  induction ops generalizing sequence s with
  | nil => rfl
  | cons o ops ih =>
    have hkey : validateKey o.key = .ok := validateKey_ok.mpr (hk o List.mem_cons_self)
    rw [DB.replayOps, if_neg (by rw [hkey]; exact fun h => h rfl),
      ih _ _ fun o' ho => hk o' (List.mem_cons_of_mem o ho), if_neg (List.cons_ne_nil o ops)]
    have hlast : (if ops = [] then (if sequence > s.lastSequence then sequence else s.lastSequence)
        else max (if sequence > s.lastSequence then sequence else s.lastSequence)
          (sequence + 1 + ops.length - 1)) =
        max s.lastSequence (sequence + (o :: ops).length - 1) := by
      rw [List.length_cons]
      by_cases hnil : ops = []
      · subst hnil
        rw [if_pos rfl, List.length_nil]
        split <;> omega
      · rw [if_neg hnil]
        split <;> omega
    rw [hlast]
    rfl

theorem replayBatch_ok {s : DB.Replay} {r : WALBatchRecord} (hr : Wal.Appendable r)
    (hk : ∀ o ∈ r.batch, KeyOk o.key) (hs : s.lastReplayed < r.sequence) :
    DB.replayBatch s r = .ok
      { mem := DB.applyBatch r.batch r.sequence s.mem
        lastSequence := max s.lastSequence r.last
        lastReplayed := r.last } := by
  have hpos : 0 < r.batch.count := List.length_pos_of_ne_nil hr.nonempty
  have hrange := hr.range
  have hlast : (r.sequence + r.batch.count + (2 ^ 64 - 1)) % 2 ^ 64 = r.last := by
    unfold WALBatchRecord.last
    unfold maxUInt64 at hrange
    omega
  rw [DB.replayBatch, if_neg (by omega), replayOps_ok _ _ _ hk, if_neg hr.nonempty, hlast]
  rfl

theorem replay_log (M done : Log) (s : DB.Replay) (hok : Log.Ok (done ++ M))
    (hmem : MemHolds s.mem done) (hlast : ∀ p ∈ M, s.lastReplayed < p.2.sequence) :
    ∃ s', replay DB.replayBatch M.records s = .ok s' ∧ MemHolds s'.mem (done ++ M) ∧
      s.lastSequence ≤ s'.lastSequence ∧ (∀ p ∈ M, p.2.last ≤ s'.lastSequence) ∧
      (s'.lastSequence = s.lastSequence ∨ ∃ p ∈ M, s'.lastSequence = p.2.last) := by
  induction M generalizing done s with
  | nil =>
    exact ⟨s, rfl, by rwa [List.append_nil], Nat.le_refl _, by simp, Or.inl rfl⟩
  | cons p M ih =>
    have hpin : p ∈ done ++ p :: M := List.mem_append_right _ List.mem_cons_self
    have hstep := replayBatch_ok (hok.appendable p hpin) (hok.keys p hpin)
      (hlast p List.mem_cons_self)
    have hincr := List.pairwise_append.mp hok.increasing
    have hnewer : ∀ x ∈ s.mem, x.sequence < p.2.sequence := by
      intro x hx
      obtain ⟨q, hq, hxq⟩ := Log.mem_versions.mp ((hmem.mem x).mp hx)
      have := (Log.versions_range hxq).2
      have := hincr.2.2 q hq p List.mem_cons_self
      omega
    have hmem' : MemHolds (DB.applyBatch p.2.batch p.2.sequence s.mem) (done ++ [p]) := by
      refine ⟨applyBatch_strict hmem.strict _ _, fun x => ?_⟩
      rw [mem_applyBatch _ hnewer, hmem.mem, Log.versions_append, List.mem_append]
      simp [Log.versions, WALBatchRecord.versions]
    obtain ⟨s', hrep, hholds, hle, hall, hfrom⟩ := ih (done ++ [p]) ⟨_, max s.lastSequence p.2.last,
      p.2.last⟩ (by rw [List.append_assoc]; exact hok) hmem'
      (fun q hq => (List.pairwise_cons.mp hincr.2.1).1 q hq)
    refine ⟨s', ?_, by rwa [List.append_assoc] at hholds, ?_, ?_, ?_⟩
    · show replay DB.replayBatch (p.2 :: Log.records M) s = .ok s'
      rw [replay, hstep]
      exact hrep
    · exact (Nat.le_max_left _ _).trans hle
    · intro q hq
      rcases List.mem_cons.mp hq with rfl | hq
      · exact (Nat.le_max_right _ _).trans hle
      · exact hall q hq
    · rcases hfrom with hsame | ⟨q, hq, heq⟩
      · rcases Nat.le_total s.lastSequence p.2.last with hle | hle
        · exact Or.inr ⟨p, List.mem_cons_self, hsame.trans (Nat.max_eq_right hle)⟩
        · exact Or.inl (hsame.trans (Nat.max_eq_left hle))
      · exact Or.inr ⟨q, List.mem_cons_of_mem p hq, heq⟩

/-! ### The logs in their order -/

theorem since_cons (p : Nat × WALBatchRecord) (L : Log) (b : Nat) :
    Log.since (p :: L) b = if b ≤ p.1 then p :: L.since b else L.since b := by
  simp only [Log.since, List.filter_cons, decide_eq_true_eq]

theorem since_split {L : Log} {b n : Nat} (hp : L.Pairwise fun p q => p.1 ≤ q.1)
    (hb : b ≤ n) (hnone : ∀ p ∈ L, b ≤ p.1 → n ≤ p.1) :
    L.since b = L.filter (fun p => p.1 = n) ++ L.since (n + 1) := by
  induction L with
  | nil => rfl
  | cons p L ih =>
    obtain ⟨hfirst, hrest⟩ := List.pairwise_cons.mp hp
    have ih := ih hrest fun q hq => hnone q (List.mem_cons_of_mem p hq)
    have hp' := hnone p List.mem_cons_self
    simp only [since_cons, List.filter_cons, decide_eq_true_eq]
    by_cases heq : p.1 = n
    · rw [if_pos (by omega : b ≤ p.1), if_pos heq, if_neg (by omega : ¬ n + 1 ≤ p.1), ih,
        List.cons_append]
    · rw [if_neg heq]
      by_cases hle : b ≤ p.1
      · -- everything from here on is behind log `n`
        have hlt : n + 1 ≤ p.1 := by
          have := hp' hle
          omega
        have hnil : L.filter (fun q => q.1 = n) = [] := by
          rw [List.filter_eq_nil_iff]
          intro q hq hqn
          have := hfirst q hq
          have := of_decide_eq_true hqn
          omega
        rw [hnil, List.nil_append] at ih ⊢
        rw [if_pos hle, if_pos hlt, ih]
      · rw [if_neg hle, if_neg (by omega : ¬ n + 1 ≤ p.1), ih]

/-- The logs that exist, in the order of their numbers, hold the history. -/
theorem flatMap_inLog {L : Log} (hp : L.Pairwise fun p q => p.1 ≤ q.1) (ns : List Nat) (b : Nat)
    (hsorted : ns.Pairwise (· < ·)) (hge : ∀ n ∈ ns, b ≤ n)
    (hall : ∀ p ∈ L, b ≤ p.1 → p.1 ∈ ns) :
    ns.flatMap L.inLog = Log.records (L.since b) := by
  induction ns generalizing b with
  | nil =>
    have hnil : L.since b = [] := by
      rw [List.eq_nil_iff_forall_not_mem]
      intro p hp
      obtain ⟨hpL, hle⟩ := Log.mem_since.mp hp
      cases hall p hpL hle
    rw [hnil]
    rfl
  | cons n ns ih =>
    obtain ⟨hfirst, hrest⟩ := List.pairwise_cons.mp hsorted
    have hsplit := since_split hp (hge n List.mem_cons_self) (L := L) fun p hpL hle => by
      rcases List.mem_cons.mp (hall p hpL hle) with he | hin
      · exact Nat.le_of_eq he.symm
      · exact Nat.le_of_lt (hfirst _ hin)
    have hbn := hge n List.mem_cons_self
    rw [List.flatMap_cons, ih (n + 1) hrest (fun k hk => hfirst k hk), hsplit, Log.records_append]
    · rfl
    · intro p hpL hle
      rcases List.mem_cons.mp (hall p hpL (by omega)) with he | hin
      · omega
      · exact hin

/-! ### Reading the logs -/

/-- The logs `ns` are still to be read; no number from `next` on is in use. -/
structure Replaying (c : Prop) (H I : List WALBatchRecord) (e : VersionEdit) (log : Bytes)
    (T : List OpenTable) (L P : Log) (next : Nat) (ns : List Nat) (dir : Dir) : Prop where
  loaded : Loaded c H I e log T L P dir
  done : ∀ n, e.walFileNumber ≤ n → n ∉ ns → LogHolds c (dir.slot (.wal n)) (L.inLog n)
  unused : Unused next dir

section

variable {c : Prop} {H I : List WALBatchRecord} {e : VersionEdit} {log : Bytes}
  {T : List OpenTable} {L P : Log} {dir dir' : Dir} {C : Dir → Prop} {ns : List Nat} {n next : Nat}

theorem Unused.keeps {keep : FileName → Prop} (h : Unused next dir) (hk : Keeps keep dir dir')
    (hs : ∀ i, keep (.sst i)) (hw : ∀ i, next ≤ i → keep (.wal i)) : Unused next dir' := by
  intro i hi
  obtain ⟨hsst, hwal⟩ := h i hi
  exact ⟨by rw [hk.exists (hs i)]; exact hsst, emptyWal_of_data hwal (hk.data (hw i hi))⟩

theorem replaying_stable : Stable (openRely C) fun d => Replaying c H I e log T L P next ns d :=
  fun _ _ h hk => ⟨h.loaded.keeps hk, fun n hn hns => (h.done n hn hns).keeps hk trivial,
    h.unused.keeps hk (fun _ => trivial) fun _ _ => trivial⟩

theorem Backed.appendable (h : Backed c H I e T L P dir) (n : Nat) :
    ∀ r ∈ P.inLog n, Wal.Appendable r := by
  intro r hr
  obtain ⟨p, hp, rfl⟩ := List.mem_map.mp hr
  exact h.stored.history.appendable p (List.mem_append_right _ (List.mem_filter.mp hp).1)

theorem Backed.logReads (h : Backed c H I e T L P dir)
    (hlog : (dir'.slot (.wal n)).Exactly c (toCells (encodeAll Wal.encodeRecord (L.inLog n)))) :
    LogReads c (dir'.slot (.wal n)) (L.inLog n) (P.inLog n) := by
  match hP : P.inLog n with
  | [] => exact Or.inl ⟨rfl, Or.inr hlog⟩
  | [r] =>
    have hne := Wal.format.nonempty r (h.appendable n r (by rw [hP]; simp))
    exact Or.inr ⟨r, [], rfl, List.nil_prefix, hne.symm, by rwa [List.append_nil]⟩
  | r :: r' :: rest =>
    have hlen : (P.inLog n).length ≤ P.length := by
      rw [Log.inLog, Log.records, List.length_map]
      exact List.length_filter_le _ _
    have := h.stored.single
    rw [hP] at hlen
    simp only [List.length_cons] at hlen
    omega

theorem Stored.log_changed (h : Stored c dir e T L P) (hk : Keeps (fun m => m ≠ .wal n) dir dir')
    (hlog : WalHolds c (dir'.slot (.wal n)) (L.inLog n) (P.inLog n)) : Stored c dir' e T L P :=
  { h with
    tables := fun t ht o ho => h.tables t ht o (hk.outcome (by simp) ho)
    logs := by
      intro i hi
      by_cases hin : i = n
      · rw [hin]
        exact hlog
      · exact (h.logs i hi).of_outcome fun o ho => hk.outcome (by simpa using hin) ho }

theorem Loaded.log_changed (h : Loaded c H I e log T L P dir)
    (hk : Keeps (fun m => m ≠ .wal n) dir dir')
    (hlog : WalHolds c (dir'.slot (.wal n)) (L.inLog n) (P.inLog n)) :
    Recoverable c H I e.walFileNumber (T.map (·.fileNumber)) dir' := by
  refine recoverable_of_always h.logged (hk.exactly (by simp) h.manifest).always ?_
  exact ⟨Nat.le_refl _, T, L, P, h.backed.stored.log_changed hk hlog, h.backed.history,
    h.backed.pending, fun _ ht => List.mem_map_of_mem ht⟩

theorem Replaying.settle (h : Replaying c H I e log T L P next ns dir)
    (hk : Keeps (fun m => m ≠ .wal n) dir dir') (hn : n < next)
    (hlog : (dir'.slot (.wal n)).Exactly c (toCells (encodeAll Wal.encodeRecord (L.inLog n))))
    {rest : List Nat} (hrest : ∀ i, i ≠ n → i ∉ rest → i ∉ ns) :
    Replaying c H I e log T L P next rest dir' := by
  have hreads := h.loaded.backed.logReads hlog
  refine ⟨⟨h.loaded.logged, hk.exactly (by simp) h.loaded.manifest,
    h.loaded.backed.stored.log_changed hk hreads.walHolds, ?_, ?_, h.loaded.backed.history,
    h.loaded.backed.pending⟩, ?_, ?_⟩
  · exact fun t ht => hk.exactly (by simp) (h.loaded.backed.tables t ht)
  · intro i hi
    by_cases hin : i = n
    · rw [hin]
      exact hreads
    · exact (h.loaded.backed.reads i hi).keeps hk (by simpa using hin)
  · intro i hi hns
    by_cases hin : i = n
    · rw [hin]
      exact Or.inr hlog
    · exact (h.done i hi (hrest i hin hns)).keeps hk (by simpa using hin)
  · refine h.unused.keeps hk (by simp) ?_
    intro i hi heq
    have := FileName.wal.inj heq
    omega

theorem replayWal_safe
    (hC : ∀ d, (c → Recoverable c H I e.walFileNumber (T.map (·.fileNumber)) d) → C d)
    (hn : e.walFileNumber ≤ n) (hprop : 1 ≤ n ∧ n < maxUInt64) (hlt : n < next) {s s' : DB.Replay}
    (hrep : replay DB.replayBatch (L.inLog n) s = .ok s')
    (h : Replaying c H I e log T L P next (n :: ns) dir) :
    Safe (openRely C) (fun res d => res = .ok s' ∧ Replaying c H I e log T L P next ns d)
      (DB.replayWal n s) dir := by
  have hcr : ∀ d, Replaying c H I e log T L P next (n :: ns) d → C d :=
    fun d hd => hC d fun _ => hd.loaded.recoverable
  have hret : ∀ d, Replaying c H I e log T L P next ns d →
      Safe (openRely C) (fun (res : Except Status DB.Replay) d => res = .ok s' ∧
        Replaying c H I e log T L P next ns d) (.ret (.ok s')) d := fun d hd =>
    Safe.ret_intro replaying_stable hd fun d hd _ => ⟨hC d fun _ => hd.loaded.recoverable, rfl, hd⟩
  unfold DB.replayWal
  refine safe_attempt replaying_stable h (fun d hd _ => ⟨hcr d hd, trivial⟩) ?_ (fun hf => hf.elim)
  intro d hd _
  refine Safe.look_intro replaying_stable hd fun d hd _ => ⟨hcr d hd, ?_⟩
  obtain ⟨tail, htail, hcontents, hwhole, htorn⟩ :=
    (hd.loaded.backed.reads n hn).read (hd.loaded.backed.appendable n)
  have hv : ∀ r ∈ L.inLog n, Wal.Appendable r := by
    intro r hr
    obtain ⟨p, hp, rfl⟩ := List.mem_map.mp hr
    exact hd.loaded.backed.stored.history.appendable p
      (List.mem_append_left _ (List.mem_filter.mp hp).1)
  have hfuel : (L.inLog n).length <
      (encodeAll Wal.encodeRecord (L.inLog n) ++ tail).length + 1 := by
    have := Wal.format.length_le _ hv
    rw [List.length_append]
    omega
  have hcontents' : bytesOf ((d.read (.wal n)).getD []) =
      encodeAll Wal.encodeRecord (L.inLog n) ++ tail := hcontents
  simp only [hcontents', Wal.format.scan_log DB.replayBatch _ tail s _ hv htail hfuel, hrep]
  split
  · rename_i hnil
    refine hret d ⟨hd.loaded, fun i hi hns => ?_, hd.unused⟩
    by_cases hin : i = n
    · rw [hin]
      exact hwhole hnil
    · exact hd.done i hi (by simp [hin, hns])
  · rename_i hne
    obtain ⟨hexact, r, hr, hpart⟩ := htorn hne
    rw [toCells_append] at hexact
    have hF : Framed (fun m => m ≠ .wal n) fun d' => Keeps (fun m => m ≠ .wal n) d d' :=
      fun _ _ hk h => h.trans hk
    have hcut : Safe (openRely C)
        (fun st d' => st = .ok ∧ Replaying c H I e log T L P next ns d')
        (truncateTornTail n ((encodeAll Wal.encodeRecord (L.inLog n) ++ tail).length -
          tail.length)) d := by
      have hplain : (FileName.wal n).Plain := ⟨hprop, fun i => by simp, by simp⟩
      refine cut_safe hF (by simp) hplain ?_ ?_ ?_ (Keeps.refl _ d) hexact
      · rw [List.length_append, toCells_length]
        omega
      · intro d' hk hwithin
        refine hC d' fun _ => hd.loaded.log_changed hk ?_
        rw [hr]
        rw [← toCells_append] at hwithin
        exact within_wal hpart hwithin
      · intro d' hk hx
        refine Safe.ret_intro replaying_stable (hd.settle hk hlt hx fun i hin hns => ?_)
          fun d hd _ =>
          ⟨hC d fun _ => hd.loaded.recoverable, rfl, hd⟩
        simp [hin, hns]
    refine hcut.bind ?_
    rintro st d _ ⟨rfl, hd⟩
    exact hret d hd

theorem replayWals_safe
    (hC : ∀ d, (c → Recoverable c H I e.walFileNumber (T.map (·.fileNumber)) d) → C d)
    (ns : List Nat) (hns : ∀ n ∈ ns, e.walFileNumber ≤ n ∧ (1 ≤ n ∧ n < maxUInt64) ∧ n < next)
    {s s' : DB.Replay} (hrep : replay DB.replayBatch (ns.flatMap L.inLog) s = .ok s')
    (h : Replaying c H I e log T L P next ns dir) :
    Safe (openRely C) (fun res d => res = .ok s' ∧ Replaying c H I e log T L P next [] d)
      (DB.replayWals ns s) dir := by
  induction ns generalizing s dir with
  | nil =>
    cases hrep
    exact Safe.ret_intro replaying_stable h fun d hd _ =>
      ⟨hC d fun _ => hd.loaded.recoverable, rfl, hd⟩
  | cons n ns ih =>
    rw [List.flatMap_cons, replay_append] at hrep
    cases hfirst : replay DB.replayBatch (L.inLog n) s with
    | error err =>
      rw [hfirst] at hrep
      cases hrep
    | ok mid =>
      rw [hfirst] at hrep
      obtain ⟨hn, hprop, hlt⟩ := hns n List.mem_cons_self
      refine (replayWal_safe hC hn hprop hlt hfirst h).bind ?_
      rintro res d _ ⟨rfl, hd⟩
      exact ih (fun k hk => hns k (List.mem_cons_of_mem n hk)) hrep hd

end

end KvMem
