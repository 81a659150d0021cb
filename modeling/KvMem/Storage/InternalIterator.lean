import KvMem.Storage.SSTable

/-! # Iterators over one source

The memtable iterator walks a filtered copy of the versions. The table iterator
walks lazily from block to block. For both, the list of versions that are still
ahead is a proof view: the code only keeps positions.
-/

namespace KvMem

open Versions

structure MemTableIterator where
  entries : List VersionedEntry
  index : Nat
  status : Status

structure SSTableIterator where
  table : TableFile
  readSequence : Nat
  blockIndex : Nat
  entryIndex : Nat
  loadedBlock : Bool
  blockEntries : List VersionedEntry
  status : Status

inductive InternalIterator where
  | memtable (it : MemTableIterator)
  | sstable (it : SSTableIterator)

namespace MemTableIterator

def new (entries : List VersionedEntry) (readSequence : Nat) (status : Status) : MemTableIterator :=
  ⟨entries.filter fun e => e.sequence ≤ readSequence, 0, status⟩

def current? (it : MemTableIterator) : Option VersionedEntry :=
  if it.status = .ok then it.entries[it.index]? else none

def seekToFirst (it : MemTableIterator) : MemTableIterator := { it with index := 0 }

def seek (it : MemTableIterator) (target : Bytes) : MemTableIterator :=
  { it with index := (it.entries.takeWhile fun e => e.key < target).length }

def next (it : MemTableIterator) : MemTableIterator :=
  if it.current?.isSome then { it with index := it.index + 1 } else it

end MemTableIterator

namespace SSTableIterator

def new (table : TableFile) (readSequence : Nat) : SSTableIterator :=
  ⟨table, readSequence, 0, 0, false, [], .ok⟩

def current? (it : SSTableIterator) : Option VersionedEntry :=
  if it.status = .ok ∧ it.loadedBlock then it.blockEntries[it.entryIndex]? else none

variable (read : TableFile.Reader)

/-- `EnsureBlockLoaded`: load blocks until one has entries. -/
def ensureBlockLoaded : Nat → SSTableIterator → Bool × SSTableIterator
  | 0, it => (false, it)
  | fuel + 1, it =>
    if it.loadedBlock then (true, it)
    else if it.table.index.length ≤ it.blockIndex then (false, it)
    else
      match read it.table it.blockIndex with
      | .error e => (false, { it with blockEntries := [], status := e })
      | .ok es =>
        if es = [] then
          ensureBlockLoaded fuel
            { it with blockEntries := [], status := .ok, entryIndex := 0,
                      blockIndex := it.blockIndex + 1 }
        else
          (true, { it with blockEntries := es, status := .ok, loadedBlock := true,
                           entryIndex := 0 })

def advanceRaw (it : SSTableIterator) : SSTableIterator :=
  if ¬ it.loadedBlock then it
  else if it.blockEntries.length ≤ it.entryIndex + 1 then
    { it with loadedBlock := false, blockEntries := [], blockIndex := it.blockIndex + 1,
              entryIndex := 0 }
  else { it with entryIndex := it.entryIndex + 1 }

/-- `SkipUntilVisible`: leave behind keys before the target and versions after the
read sequence. -/
def skipUntilVisible (target : Bytes) : Nat → SSTableIterator → SSTableIterator
  | 0, it => it
  | fuel + 1, it =>
    match ensureBlockLoaded read (it.table.index.length + 1) it with
    | (false, it) => it
    | (true, it) =>
      match it.blockEntries[it.entryIndex]? with
      | none => it
      | some e =>
        if target ≠ [] ∧ e.key < target then skipUntilVisible target fuel it.advanceRaw
        else if e.sequence > it.readSequence then skipUntilVisible target fuel it.advanceRaw
        else it

/-- Every entry of the table is passed at most once. -/
def fuel (it : SSTableIterator) : Nat := it.table.entries.length + 1

def restartAt (it : SSTableIterator) (blockIndex : Nat) : SSTableIterator :=
  ⟨it.table, it.readSequence, blockIndex, 0, false, [], .ok⟩

def seekToFirst (it : SSTableIterator) : SSTableIterator :=
  skipUntilVisible read [] it.fuel (it.restartAt 0)

def seek (it : SSTableIterator) (target : Bytes) : SSTableIterator :=
  skipUntilVisible read target it.fuel
    (it.restartAt (TableFile.lowerBound it.table.index (encodeInternalKey target it.readSequence)))

def next (it : SSTableIterator) : SSTableIterator :=
  if it.current?.isSome then skipUntilVisible read [] it.fuel it.advanceRaw else it

end SSTableIterator

namespace InternalIterator

def current? : InternalIterator → Option VersionedEntry
  | .memtable it => it.current?
  | .sstable it => it.current?

def valid (c : InternalIterator) : Bool := c.current?.isSome

def key (c : InternalIterator) : Bytes := (c.current?.map (·.key)).getD []

def status : InternalIterator → Status
  | .memtable it => it.status
  | .sstable it => it.status

def capacity : InternalIterator → Nat
  | .memtable it => it.entries.length
  | .sstable it => it.table.entries.length

variable (read : TableFile.Reader)

def seekToFirst : InternalIterator → InternalIterator
  | .memtable it => .memtable it.seekToFirst
  | .sstable it => .sstable (it.seekToFirst read)

def seek (target : Bytes) : InternalIterator → InternalIterator
  | .memtable it => .memtable (it.seek target)
  | .sstable it => .sstable (it.seek read target)

def next : InternalIterator → InternalIterator
  | .memtable it => .memtable it.next
  | .sstable it => .sstable (it.next read)

end InternalIterator

/-! ## What is still ahead of a table iterator -/

namespace SSTableIterator

def remaining (it : SSTableIterator) : List VersionedEntry :=
  if it.loadedBlock then
    it.blockEntries.drop it.entryIndex ++ (it.table.blocks.drop (it.blockIndex + 1)).flatten
  else (it.table.blocks.drop it.blockIndex).flatten

structure Ok (it : SSTableIterator) : Prop where
  status : it.status = .ok
  table : it.table.Wf
  block : it.loadedBlock = true → it.table.blocks[it.blockIndex]? = some it.blockEntries
  entry : it.loadedBlock = true → it.entryIndex < it.blockEntries.length

variable {it : SSTableIterator}

theorem ok_of_unloaded (hs : it.status = .ok) (ht : it.table.Wf) (hl : it.loadedBlock = false) :
    it.Ok := by
  refine ⟨hs, ht, ?_, ?_⟩ <;> intro hc <;> rw [hl] at hc <;> cases hc

def hidden (target : Bytes) (r : Nat) (e : VersionedEntry) : Bool :=
  decide (e.key < target) || decide (r < e.sequence)

theorem drop_of_getElem? {α : Type} {xs : List α} {i : Nat} {x : α} (h : xs[i]? = some x) :
    xs.drop i = x :: xs.drop (i + 1) := by
  obtain ⟨hi, rfl⟩ := List.getElem?_eq_some_iff.mp h
  exact List.drop_eq_getElem_cons hi

theorem current_of_loaded (h : it.Ok) (hl : it.loadedBlock = true) :
    ∃ e, it.blockEntries[it.entryIndex]? = some e ∧ it.current? = some e ∧
      it.remaining.head? = some e := by
  obtain ⟨e, he⟩ : ∃ e, it.blockEntries[it.entryIndex]? = some e :=
    ⟨_, List.getElem?_eq_getElem (h.entry hl)⟩
  refine ⟨e, he, by simp [current?, h.status, hl, he], ?_⟩
  simp [remaining, hl, drop_of_getElem? he]

theorem entries_split (t : TableFile) (i : Nat) :
    t.entries = (t.blocks.take i).flatten ++ (t.blocks.drop i).flatten := by
  rw [← List.flatten_append, List.take_append_drop]
  rfl

theorem remaining_length_le
    (h : it.loadedBlock = true → it.table.blocks[it.blockIndex]? = some it.blockEntries) :
    it.remaining.length ≤ it.table.entries.length := by
  have hent := entries_split it.table it.blockIndex
  unfold remaining
  split
  · rename_i hl
    rw [hent, drop_of_getElem? (h hl), List.flatten_cons]
    simp only [List.length_append, List.length_drop]
    omega
  · rw [hent, List.length_append]
    omega

/-- What an iterator reads from does not change. -/
def Same (it it' : SSTableIterator) : Prop :=
  it'.table = it.table ∧ it'.readSequence = it.readSequence

theorem same_ensureBlockLoaded (read : TableFile.Reader) (fuel : Nat) (it : SSTableIterator) :
    Same it (ensureBlockLoaded read fuel it).2 := by
  induction fuel generalizing it with
  | zero => exact ⟨rfl, rfl⟩
  | succ fuel ih =>
    rw [ensureBlockLoaded]
    split
    · exact ⟨rfl, rfl⟩
    · split
      · exact ⟨rfl, rfl⟩
      · split
        · exact ⟨rfl, rfl⟩
        · split
          · exact ih _
          · exact ⟨rfl, rfl⟩

theorem same_advanceRaw (it : SSTableIterator) : Same it it.advanceRaw := by
  unfold advanceRaw
  split
  · exact ⟨rfl, rfl⟩
  · split
    · exact ⟨rfl, rfl⟩
    · exact ⟨rfl, rfl⟩

theorem same_skipUntilVisible (read : TableFile.Reader) (target : Bytes) (fuel : Nat)
    (it : SSTableIterator) : Same it (skipUntilVisible read target fuel it) := by
  induction fuel generalizing it with
  | zero => exact ⟨rfl, rfl⟩
  | succ fuel ih =>
    have hload := same_ensureBlockLoaded read (it.table.index.length + 1) it
    rw [skipUntilVisible]
    generalize ensureBlockLoaded read (it.table.index.length + 1) it = out at hload
    obtain ⟨found, it'⟩ := out
    have hraw := same_advanceRaw it'
    have hskip := ih it'.advanceRaw
    have hstep : Same it (skipUntilVisible read target fuel it'.advanceRaw) :=
      ⟨hskip.1.trans (hraw.1.trans hload.1), hskip.2.trans (hraw.2.trans hload.2)⟩
    cases found with
    | false => exact hload
    | true =>
      dsimp only
      split
      · exact hload
      · split
        · exact hstep
        · split
          · exact hstep
          · exact hload

theorem same_next (read : TableFile.Reader) (it : SSTableIterator) : Same it (it.next read) := by
  unfold next
  split
  · have hraw := same_advanceRaw it
    have hskip := same_skipUntilVisible read [] it.fuel it.advanceRaw
    exact ⟨hskip.1.trans hraw.1, hskip.2.trans hraw.2⟩
  · exact ⟨rfl, rfl⟩

/-- Loading a block changes the representation, not what is ahead. -/
theorem ensureBlockLoaded_spec (h : it.Ok) (fuel : Nat) :
    let out := ensureBlockLoaded TableFile.Reader.plain (fuel + 1) it
    out.2.Ok ∧ out.2.table = it.table ∧ out.2.readSequence = it.readSequence ∧
      out.2.remaining = it.remaining ∧ out.2.loadedBlock = out.1 ∧
      (out.1 = false → it.remaining = []) := by
  by_cases hl : it.loadedBlock = true
  · have hout : ensureBlockLoaded TableFile.Reader.plain (fuel + 1) it = (true, it) := by
      simp [ensureBlockLoaded, hl]
    rw [hout]
    exact ⟨h, rfl, rfl, rfl, hl, fun hf => by cases hf⟩
  · have hlf : it.loadedBlock = false := by simpa using hl
    by_cases hend : it.table.index.length ≤ it.blockIndex
    · have hout : ensureBlockLoaded TableFile.Reader.plain (fuel + 1) it = (false, it) := by
        simp [ensureBlockLoaded, hlf, hend]
      rw [hout]
      refine ⟨h, rfl, rfl, rfl, hlf, fun _ => ?_⟩
      have hnil : it.table.blocks.drop it.blockIndex = [] := by
        rw [List.drop_eq_nil_iff, ← h.table.index_length]
        exact hend
      simp [remaining, hlf, hnil]
    · have hlt : it.blockIndex < it.table.blocks.length := by
        rw [← h.table.index_length]
        omega
      obtain ⟨b, hb⟩ : ∃ b, it.table.blocks[it.blockIndex]? = some b :=
        ⟨_, List.getElem?_eq_getElem hlt⟩
      have hbne : b ≠ [] := h.table.nonempty b (List.mem_of_getElem? hb)
      have hread : TableFile.Reader.plain it.table it.blockIndex = .ok b := by
        simp [TableFile.Reader.plain, List.getD_eq_getElem?_getD, hb]
      have hout : ensureBlockLoaded TableFile.Reader.plain (fuel + 1) it =
          (true, { it with blockEntries := b, status := .ok, loadedBlock := true,
                           entryIndex := 0 }) := by
        simp [ensureBlockLoaded, hlf, hend, hread, hbne]
      rw [hout]
      refine ⟨⟨rfl, h.table, fun _ => hb, fun _ => List.length_pos_of_ne_nil hbne⟩, rfl, rfl, ?_,
        rfl, fun hf => by cases hf⟩
      simp [remaining, hlf, drop_of_getElem? hb]

theorem advanceRaw_spec (h : it.Ok) (hl : it.loadedBlock = true) :
    it.advanceRaw.Ok ∧ it.advanceRaw.table = it.table ∧
      it.advanceRaw.readSequence = it.readSequence ∧ it.advanceRaw.remaining = it.remaining.tail := by
  have hlt := h.entry hl
  obtain ⟨e, he⟩ : ∃ e, it.blockEntries[it.entryIndex]? = some e := ⟨_, List.getElem?_eq_getElem hlt⟩
  have hrem : it.remaining.tail = it.blockEntries.drop (it.entryIndex + 1) ++
      (it.table.blocks.drop (it.blockIndex + 1)).flatten := by
    simp [remaining, hl, drop_of_getElem? he]
  rw [hrem]
  simp only [advanceRaw, hl, not_true_eq_false, if_false]
  split
  · rename_i hend
    refine ⟨ok_of_unloaded h.status h.table rfl, rfl, rfl, ?_⟩
    have hnil : it.blockEntries.drop (it.entryIndex + 1) = [] := List.drop_eq_nil_of_le hend
    simp [remaining, hnil]
  · rename_i hmore
    refine ⟨⟨h.status, h.table, fun _ => h.block hl, fun _ => by simpa using hmore⟩, rfl, rfl, ?_⟩
    simp [remaining]

theorem skipUntilVisible_spec (target : Bytes) (fuel : Nat) (h : it.Ok)
    (hfuel : it.remaining.length < fuel) :
    let out := skipUntilVisible TableFile.Reader.plain target fuel it
    out.Ok ∧ out.table = it.table ∧ out.readSequence = it.readSequence ∧
      out.remaining = it.remaining.dropWhile (hidden target it.readSequence) ∧
      out.current? = out.remaining.head? := by
  induction fuel generalizing it with
  | zero => omega
  | succ fuel ih =>
    obtain ⟨hok, htab, hseq, hrem, hload, hnone⟩ :=
      ensureBlockLoaded_spec h it.table.index.length
    simp only [skipUntilVisible]
    generalize ensureBlockLoaded TableFile.Reader.plain (it.table.index.length + 1) it = out
      at hok htab hseq hrem hload hnone
    obtain ⟨flag, it'⟩ := out
    simp only at hok htab hseq hrem hload hnone
    cases flag with
    | false =>
      have hnil := hnone rfl
      refine ⟨hok, htab, hseq, by rw [hrem, hnil]; rfl, ?_⟩
      rw [hrem, hnil]
      simp [current?, hload]
    | true =>
      obtain ⟨e, he, hcur, hhead⟩ := current_of_loaded hok hload
      obtain ⟨rest, hrest⟩ : ∃ rest, it.remaining = e :: rest := by
        rw [hrem] at hhead
        exact List.head?_eq_some_iff.mp hhead
      obtain ⟨haok, hatab, haseq, harem⟩ := advanceRaw_spec hok hload
      have hlt : it'.advanceRaw.remaining.length < fuel := by
        rw [harem, hrem, hrest]
        rw [hrest] at hfuel
        simpa using hfuel
      have hstep := ih haok hlt
      simp only [he]
      by_cases hh : hidden target it.readSequence e = true
      · -- a hidden entry: one raw step, then the induction hypothesis
        have hgo : (if target ≠ [] ∧ e.key < target then
            skipUntilVisible TableFile.Reader.plain target fuel it'.advanceRaw
          else if e.sequence > it'.readSequence then
            skipUntilVisible TableFile.Reader.plain target fuel it'.advanceRaw
          else it') = skipUntilVisible TableFile.Reader.plain target fuel it'.advanceRaw := by
          simp only [hidden, Bool.or_eq_true, decide_eq_true_eq] at hh
          rcases hh with hk | hs
          · have hne : target ≠ [] := by
              rintro rfl
              exact List.not_lt_nil _ hk
            rw [if_pos ⟨hne, hk⟩]
          · rw [if_pos (by rw [hseq]; exact hs : e.sequence > it'.readSequence)]
            simp
        rw [hgo]
        obtain ⟨h1, h2, h3, h4, h5⟩ := hstep
        refine ⟨h1, h2.trans (hatab.trans htab), h3.trans (haseq.trans hseq), ?_, h5⟩
        rw [h4, harem, hrem, hrest, haseq, hseq, List.dropWhile_cons, hh]
        simp
      · have hstay : (if target ≠ [] ∧ e.key < target then
            skipUntilVisible TableFile.Reader.plain target fuel it'.advanceRaw
          else if e.sequence > it'.readSequence then
            skipUntilVisible TableFile.Reader.plain target fuel it'.advanceRaw
          else it') = it' := by
          simp only [hidden, Bool.or_eq_true, decide_eq_true_eq, not_or] at hh
          have hs : ¬ e.sequence > it'.readSequence := by
            rw [hseq]
            exact hh.2
          rw [if_neg (fun hc => hh.1 hc.2), if_neg hs]
        rw [hstay]
        refine ⟨hok, htab, hseq, ?_, hcur.trans hhead.symm⟩
        rw [hrem, hrest, List.dropWhile_cons]
        simp [hh]

end SSTableIterator

/-! ## Sources as sorted lists of visible versions -/

theorem dropWhile_filter (p q : VersionedEntry → Bool) (es : List VersionedEntry) :
    (es.filter p).dropWhile q = (es.dropWhile fun e => q e || !p e).filter p := by
  induction es with
  | nil => rfl
  | cons e es ih =>
    by_cases hp : p e = true
    · by_cases hq : q e = true
      · simp [hp, hq, ih]
      · simp [hp, hq]
    · simp [hp, ih]

theorem head?_filter_dropWhile (p q : VersionedEntry → Bool) (es : List VersionedEntry) :
    ((es.dropWhile fun e => q e || !p e).filter p).head? =
      (es.dropWhile fun e => q e || !p e).head? := by
  induction es with
  | nil => rfl
  | cons e es ih =>
    by_cases hc : (q e || !p e) = true
    · simp only [List.dropWhile_cons, hc, if_true]
      exact ih
    · have hp : p e = true := by
        simp only [Bool.or_eq_true, Bool.not_eq_true', not_or, Bool.not_eq_false] at hc
        exact hc.2
      rw [List.dropWhile_cons, if_neg hc, List.filter_cons, if_pos hp]
      rfl

namespace InternalIterator

/-- A source that can be positioned; `all` are its versions visible at `r`. -/
def Ready (c : InternalIterator) (r : Nat) (all : List VersionedEntry) : Prop :=
  match c with
  | .memtable it => it.status = .ok ∧ it.entries = all
  | .sstable it => it.Ok ∧ it.readSequence = r ∧
      all = it.table.entries.filter fun e => e.sequence ≤ r

/-- A source that stands before the visible versions `rest`. -/
def At (c : InternalIterator) (r : Nat) (all rest : List VersionedEntry) : Prop :=
  c.Ready r all ∧ c.current? = rest.head? ∧
  match c with
  | .memtable it => it.entries.drop it.index = rest
  | .sstable it => it.remaining.filter (fun e => e.sequence ≤ r) = rest

variable {c : InternalIterator} {r : Nat} {t : TableFile}

theorem At.status {all rest : List VersionedEntry} (h : c.At r all rest) : c.status = .ok := by
  cases c with
  | memtable it => exact h.1.1
  | sstable it => exact h.1.1.status

theorem ready_memtable (m : List VersionedEntry) (r : Nat) :
    (memtable (MemTableIterator.new m r .ok)).Ready r (m.filter fun e => e.sequence ≤ r) :=
  ⟨rfl, rfl⟩

theorem ready_sstable (h : t.Wf) (r : Nat) :
    (sstable (SSTableIterator.new t r)).Ready r (t.entries.filter fun e => e.sequence ≤ r) :=
  ⟨SSTableIterator.ok_of_unloaded rfl h rfl, rfl, rfl⟩

theorem At.capacity {all rest : List VersionedEntry} (h : c.At r all rest) :
    rest.length ≤ c.capacity := by
  cases c with
  | memtable it =>
    rw [← h.2.2]
    exact (List.drop_sublist _ _).length_le
  | sstable it =>
    rw [← h.2.2]
    exact (List.length_filter_le _ _).trans (SSTableIterator.remaining_length_le h.1.1.block)

theorem sstable_skip (it : SSTableIterator) (hok : it.Ok) {all : List VersionedEntry}
    (hr : it.readSequence = r) (hall : all = it.table.entries.filter fun e => e.sequence ≤ r)
    (target : Bytes) (fuel : Nat) (hfuel : it.remaining.length < fuel) :
    (sstable (it.skipUntilVisible TableFile.Reader.plain target fuel)).At r all
      ((it.remaining.filter fun e => e.sequence ≤ r).dropWhile fun e => e.key < target) := by
  obtain ⟨h1, h2, h3, h4, h5⟩ := SSTableIterator.skipUntilVisible_spec target fuel hok hfuel
  have hhidden : SSTableIterator.hidden target it.readSequence =
      fun e => decide (e.key < target) || !decide (e.sequence ≤ r) := by
    funext e
    simp only [SSTableIterator.hidden, hr]
    congr 1
    by_cases hs : e.sequence ≤ r
    · simp [hs]
    · simp [hs, Nat.lt_of_not_le hs]
  rw [hhidden] at h4
  refine ⟨⟨h1, h3.trans hr, by rw [hall, h2]⟩, ?_, ?_⟩
  · rw [dropWhile_filter, head?_filter_dropWhile, ← h4]
    exact h5
  · rw [dropWhile_filter, ← h4]

theorem dropWhile_lt_nil (es : List VersionedEntry) :
    es.dropWhile (fun e => decide (e.key < [])) = es := by
  cases es with
  | nil => rfl
  | cons e es => simp [List.not_lt_nil]

theorem seekToFirst_at {all : List VersionedEntry} (h : c.Ready r all) :
    (c.seekToFirst TableFile.Reader.plain).At r all all := by
  cases c with
  | memtable it =>
    have hent : it.entries = all := h.2
    refine ⟨h, ?_, hent⟩
    show (it.seekToFirst).current? = _
    have hs : it.status = .ok := h.1
    simp [MemTableIterator.current?, MemTableIterator.seekToFirst, hs, hent, List.head?_eq_getElem?]
  | sstable it =>
    obtain ⟨hok, hr, hall⟩ := h
    have hrem : (it.restartAt 0).remaining = it.table.entries := by
      simp [SSTableIterator.restartAt, SSTableIterator.remaining, TableFile.entries]
    have hat := sstable_skip (it.restartAt 0)
      (SSTableIterator.ok_of_unloaded rfl hok.table rfl) hr hall [] it.fuel
      (by rw [hrem]; exact Nat.lt_succ_self _)
    rw [dropWhile_lt_nil, hrem, ← hall] at hat
    exact hat

theorem drop_takeWhile_length {α : Type} (p : α → Bool) (xs : List α) :
    xs.drop (xs.takeWhile p).length = xs.dropWhile p := by
  induction xs with
  | nil => rfl
  | cons x xs ih =>
    by_cases hp : p x = true
    · simp [hp, ih]
    · simp [hp]

/-- The blocks an index seek passes over hold no visible version from the target on. -/
theorem key_lt_of_skipped (h : t.Wf) {target : Bytes} (hr : r ≤ maxUInt64) {e : VersionedEntry}
    (he : e ∈ (t.blocks.take (TableFile.lowerBound t.index (encodeInternalKey target r))).flatten)
    (hs : e.sequence ≤ r) : e.key < target := by
  obtain ⟨b, hb, heb⟩ := List.mem_flatten.mp he
  have hbm : b ∈ t.blocks := List.mem_of_mem_take hb
  have hem := TableFile.Wf.mem_entries hbm heb
  have hlast := TableFile.le_lastKeyOf (h.block_sorted hbm)
    (fun x hx => h.keys x (TableFile.Wf.mem_entries hbm hx))
    (fun x hx => h.sequences x (TableFile.Wf.mem_entries hbm hx)) heb
  have hlt := lt_of_le_of_lt hlast (TableFile.lastKeyOf_lt_of_take h hb)
  by_contra hge
  exact absurd hlt (not_lt_of_ge
    (encodeInternalKey_le_of_seek (h.keys e hem) (not_lt.mp hge) hr hs))

theorem seek_at {all : List VersionedEntry} (h : c.Ready r all) (hr : r ≤ maxUInt64)
    (target : Bytes) :
    (c.seek TableFile.Reader.plain target).At r all
      (all.dropWhile fun e => e.key < target) := by
  cases c with
  | memtable it =>
    have hdrop : it.entries.drop (it.entries.takeWhile fun e => decide (e.key < target)).length =
        all.dropWhile fun e => decide (e.key < target) := by
      rw [drop_takeWhile_length, h.2]
    refine ⟨h, ?_, hdrop⟩
    show (it.seek target).current? = _
    have hs : it.status = .ok := h.1
    rw [← hdrop, List.head?_drop]
    simp [MemTableIterator.current?, MemTableIterator.seek, hs]
  | sstable it =>
    obtain ⟨hok, hrs, hall⟩ := h
    subst hrs
    generalize hi : TableFile.lowerBound it.table.index
      (encodeInternalKey target it.readSequence) = i
    have hrem : (it.restartAt i).remaining = (it.table.blocks.drop i).flatten := by
      simp [SSTableIterator.restartAt, SSTableIterator.remaining]
    have hsplit := SSTableIterator.entries_split it.table i
    have hat := sstable_skip (it.restartAt i)
      (SSTableIterator.ok_of_unloaded rfl hok.table rfl) rfl hall target it.fuel (by
        rw [hrem, SSTableIterator.fuel, hsplit, List.length_append]
        omega)
    rw [hrem] at hat
    have hskip : (all.dropWhile fun e => decide (e.key < target)) =
        (((it.table.blocks.drop i).flatten.filter fun e => e.sequence ≤ it.readSequence).dropWhile
          fun e => decide (e.key < target)) := by
      rw [hall, hsplit, List.filter_append, List.dropWhile_append_of_pos]
      intro e he
      rw [List.mem_filter] at he
      rw [decide_eq_true_eq]
      exact key_lt_of_skipped hok.table hr (hi ▸ he.1) (by simpa using he.2)
    rw [hskip]
    show (sstable (it.seek TableFile.Reader.plain target)).At _ _ _
    rw [SSTableIterator.seek, hi]
    exact hat

theorem next_at {all rest : List VersionedEntry} (h : c.At r all rest) (hne : rest ≠ []) :
    (c.next TableFile.Reader.plain).At r all rest.tail := by
  obtain ⟨e, es, rfl⟩ := List.exists_cons_of_ne_nil hne
  cases c with
  | memtable it =>
    obtain ⟨hready, hcur, hrest⟩ := h
    have hsome : it.current?.isSome = true := by
      rw [show it.current? = some e from hcur]
      rfl
    have hdrop : it.entries.drop (it.index + 1) = es := by
      rw [← List.tail_drop, hrest]
      rfl
    have hnext : it.next = { it with index := it.index + 1 } := by
      simp [MemTableIterator.next, hsome]
    show (memtable it.next).At r all es
    rw [hnext]
    refine ⟨hready, ?_, hdrop⟩
    have hs : it.status = .ok := hready.1
    rw [← hdrop, List.head?_drop]
    simp [current?, MemTableIterator.current?, hs]
  | sstable it =>
    obtain ⟨⟨hok, hr, hall⟩, hcur, hrest⟩ := h
    have hcur' : it.current? = some e := hcur
    have hload : it.loadedBlock = true := by
      by_contra hl
      simp [SSTableIterator.current?, hl] at hcur'
    obtain ⟨e', _, hcure, hhead⟩ := SSTableIterator.current_of_loaded hok hload
    have hee : e' = e := Option.some.inj (hcure.symm.trans hcur')
    obtain ⟨haok, hatab, haseq, harem⟩ := SSTableIterator.advanceRaw_spec hok hload
    have hall' : all = it.advanceRaw.table.entries.filter fun x => x.sequence ≤ r := by
      rw [hatab, hall]
    have hat := sstable_skip it.advanceRaw haok (haseq.trans hr) hall' [] it.fuel (by
        have hle := SSTableIterator.remaining_length_le hok.block
        rw [harem, List.length_tail, SSTableIterator.fuel]
        omega)
    rw [dropWhile_lt_nil, harem] at hat
    obtain ⟨tl, htl⟩ := List.head?_eq_some_iff.mp hhead
    have hvis : ((it.remaining.tail).filter fun x => decide (x.sequence ≤ r)) = es := by
      replace hrest : it.remaining.filter (fun x => decide (x.sequence ≤ r)) = e :: es := hrest
      rw [htl] at hrest ⊢
      rw [hee] at hrest
      by_cases hs : e.sequence ≤ r
      · simpa [hs] using hrest
      · -- the entry the iterator stands on is visible
        exfalso
        have hmem : e ∈ tl.filter fun x => decide (x.sequence ≤ r) := by
          have : (e :: tl).filter (fun x => decide (x.sequence ≤ r)) =
              tl.filter fun x => decide (x.sequence ≤ r) := by simp [hs]
          rw [this] at hrest
          rw [hrest]
          exact List.mem_cons_self
        have := (List.mem_filter.mp hmem).2
        simp [hs] at this
    rw [hvis] at hat
    show (sstable (it.next TableFile.Reader.plain)).At r all es
    rw [SSTableIterator.next, if_pos (by rw [hcur']; rfl)]
    exact hat

end InternalIterator

end KvMem
