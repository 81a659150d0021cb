import KvMem.Foundation.TopK
import KvMem.Engine.Views
import KvMem.Vector.Index

/-! # Brute-force search

`VectorDB::BruteForceSearch` scans a view of the database and keeps the best results in a
heap, whose top is the worst of them. The heap is a sorted list here. The distance itself
is a floating-point sum that is an argument of the model; results are compared by its
value, in which both zeros are equal, and then by their keys.
-/

namespace KvMem

open Versions VectorValue MergingIterator

inductive IndexState where
  | closed
  | opening
  | ready
  | dirty
  | rebuilding
  deriving DecidableEq, Repr

/-- `ResultBetter`, for finite distances. -/
def resultBetter (lhs rhs : VectorResult Float32Bits) : Bool :=
  if lhs.distance.units ≠ rhs.distance.units then lhs.distance.units < rhs.distance.units
  else lhs.key < rhs.key

/-- The part of the object a brute-force search reads. -/
structure VectorDB where
  vectorDimension : Nat
  state : IndexState
  db : DB

namespace VectorDB

def checkOpen (v : VectorDB) : Status :=
  if v.state = .closed ∨ v.state = .opening then .ioError "vector database is not open" else .ok

section Distance

variable (unchecked : VectorDistanceMetric → FloatVector → FloatVector → Float32Bits)

def validateVector (v : VectorDB) (vector : FloatVector) (metric : VectorDistanceMetric) : Status :=
  if vector.length ≠ v.vectorDimension then
    .invalidArgument "vector dimension does not match configured dimension"
  else
    match computeVectorDistance unchecked vector vector metric with
    | .ok _ => .ok
    | .error e => e

def resultOf (v : VectorDB) (query : FloatVector) (metric : VectorDistanceMetric)
    (key value : Bytes) : Except Status (VectorResult Float32Bits) :=
  match decodeVectorValue value with
  | .error e => .error e
  | .ok record =>
    if record.vector.length ≠ v.vectorDimension then
      .error (.corruption "stored vector dimension does not match configured dimension")
    else
      match computeVectorDistance unchecked query record.vector metric with
      | .error e => .error e
      | .ok distance => .ok ⟨key, distance, record.metadata⟩

def searchLoop (v : VectorDB) (read : TableFile.Reader) (query : FloatVector) (topK : Nat)
    (metric : VectorDistanceMetric) :
    Nat → MergingIterator → List (VectorResult Float32Bits) →
      Except Status (MergingIterator × List (VectorResult Float32Bits))
  | 0, iterator, nearest => .ok (iterator, nearest)
  | fuel + 1, iterator, nearest =>
    if ¬ iterator.valid then .ok (iterator, nearest)
    else if ¬ isEncodedVectorValue iterator.value then
      searchLoop v read query topK metric fuel (iterator.next read) nearest
    else
      match v.resultOf unchecked query metric iterator.key iterator.value with
      | .error e => .error e
      | .ok candidate =>
        searchLoop v read query topK metric fuel (iterator.next read)
          (TopK.keep resultBetter topK nearest candidate)

/-- `BruteForceSearch`: the status and what `results` holds. -/
def bruteForceSearch (v : VectorDB) (read : TableFile.Reader) (query : FloatVector) (topK : Nat)
    (metric : VectorDistanceMetric) (snapshot : Option Nat) :
    Status × List (VectorResult Float32Bits) :=
  match v.checkOpen with
  | .ok =>
    match v.validateVector unchecked query metric with
    | .ok =>
      let iterator := v.db.newIterator snapshot
      if iterator.status ≠ .ok then (iterator.status, [])
      else if topK = 0 then (.ok, [])
      else
        match searchLoop unchecked v read query topK metric (v.db.versions.length + 1)
            (iterator.seekToFirst read) [] with
        | .error e => (e, [])
        | .ok (iterator, nearest) =>
          if iterator.status ≠ .ok then (iterator.status, [])
          else (.ok, TopK.sort resultBetter nearest.reverse)
    | e => (e, [])
  | e => (e, [])

end Distance

/-! ## The order of results -/

def rank (r : VectorResult Float32Bits) : Int ×ₗ Bytes := toLex (r.distance.units, r.key)

theorem resultBetter_iff (a b : VectorResult Float32Bits) :
    resultBetter a b = true ↔ rank a < rank b := by
  rw [rank, rank, Prod.Lex.toLex_lt_toLex, resultBetter]
  by_cases h : a.distance.units = b.distance.units
  · simp [h]
  · simp [h]

/-! ## The loop over a scan -/

section Loop

variable (unchecked : VectorDistanceMetric → FloatVector → FloatVector → Float32Bits)

def results (v : VectorDB) (query : FloatVector) (metric : VectorDistanceMetric)
    (entries : List (Bytes × Bytes)) : List (VectorResult Float32Bits) :=
  entries.filterMap fun p =>
    if isEncodedVectorValue p.2 then (v.resultOf unchecked query metric p.1 p.2).toOption else none

/-- A value without the magic, or one a result can be made of. -/
def Accepted (v : VectorDB) (query : FloatVector) (metric : VectorDistanceMetric)
    (p : Bytes × Bytes) : Prop :=
  isEncodedVectorValue p.2 = true → ∃ r, v.resultOf unchecked query metric p.1 p.2 = .ok r

theorem computeVectorDistance_error {lhs rhs : FloatVector} {metric : VectorDistanceMetric}
    {e : Status} (h : computeVectorDistance unchecked lhs rhs metric = .error e) : e ≠ .ok := by
  unfold computeVectorDistance at h
  split at h
  · split at h
    · split at h
      · cases h
        simp
      · split at h
        · cases h
          simp
        · dsimp only at h
          split at h
          · cases h
          · cases h
            simp
    · rename_i hne
      cases h
      exact hne
  · rename_i hne
    cases h
    exact hne

variable {v : VectorDB} {query : FloatVector} {metric : VectorDistanceMetric}

theorem resultOf_cases (v : VectorDB) (query : FloatVector) (metric : VectorDistanceMetric)
    (key value : Bytes) :
    (∃ e, v.resultOf unchecked query metric key value = .error e ∧ e ≠ .ok) ∨
      ∃ r, v.resultOf unchecked query metric key value = .ok r ∧ r.key = key := by
  unfold resultOf
  cases hd : decodeVectorValue value with
  | error e => exact Or.inl ⟨e, rfl, decodeVectorValue_error hd⟩
  | ok record =>
    dsimp only
    split
    · exact Or.inl ⟨_, rfl, by simp⟩
    · cases hc : computeVectorDistance unchecked query record.vector metric with
      | error e => exact Or.inl ⟨e, rfl, computeVectorDistance_error unchecked hc⟩
      | ok distance => exact Or.inr ⟨_, rfl, rfl⟩

theorem results_distinct {entries : List (Bytes × Bytes)}
    (h : entries.Pairwise fun a b => a.1 < b.1) :
    TopK.Distinct rank (v.results unchecked query metric entries) := by
  refine List.Pairwise.filterMap _ ?_ h
  intro a b hab r hr r' hr'
  have hkey : ∀ {p : Bytes × Bytes} {r : VectorResult Float32Bits},
      (if isEncodedVectorValue p.2 then (v.resultOf unchecked query metric p.1 p.2).toOption
        else none) = some r → r.key = p.1 := by
    intro p r hp
    split at hp
    · rcases resultOf_cases unchecked v query metric p.1 p.2 with
        ⟨e, hresult, _⟩ | ⟨r', hresult, hkey⟩
      · rw [hresult] at hp
        cases hp
      · rw [hresult] at hp
        cases hp
        exact hkey
    · cases hp
  intro heq
  have hpair := toLex.injective heq
  have hsame : r.key = r'.key := (Prod.mk.inj hpair).2
  rw [hkey hr, hkey hr'] at hsame
  exact absurd hab (by rw [hsame]; exact lt_irrefl _)

/-- How the loop ends when it starts at entry `n` of a view: it meets a value it does not
accept, or the iterator fails, or it has seen all entries. -/
def LoopEnds (v : VectorDB) (query : FloatVector) (metric : VectorDistanceMetric) (topK : Nat)
    (view : List (Bytes × Bytes)) (s : Nat → MergingIterator) (n : Nat)
    (nearest : List (VectorResult Float32Bits))
    (result : Except Status (MergingIterator × List (VectorResult Float32Bits))) : Prop :=
  (∃ e, result = .error e ∧ e ≠ .ok ∧ ∃ p ∈ view, ¬ v.Accepted unchecked query metric p) ∨
  (∃ j kept, result = .ok (s j, kept) ∧ (s j).status ≠ .ok) ∨
  ∃ j, result = .ok (s j, (v.results unchecked query metric (view.drop n)).foldl
      (TopK.keep resultBetter topK) nearest) ∧
    (s j).status = .ok ∧ view.length ≤ j ∧
    ∀ p ∈ view.drop n, v.Accepted unchecked query metric p

variable {read : TableFile.Reader} {topK : Nat} {view : List (Bytes × Bytes)}
  {s : Nat → MergingIterator}

theorem LoopEnds.step {n : Nat} {p : Bytes × Bytes} {nearest next : List (VectorResult Float32Bits)}
    {result : Except Status (MergingIterator × List (VectorResult Float32Bits))}
    (hdrop : view.drop n = p :: view.drop (n + 1)) (hp : v.Accepted unchecked query metric p)
    (hkept : (v.results unchecked query metric (view.drop n)).foldl
        (TopK.keep resultBetter topK) nearest =
      (v.results unchecked query metric (view.drop (n + 1))).foldl
        (TopK.keep resultBetter topK) next)
    (h : v.LoopEnds unchecked query metric topK view s (n + 1) next result) :
    v.LoopEnds unchecked query metric topK view s n nearest result := by
  rcases h with hbad | hfailed | ⟨j, hloop, hj, hle, hall⟩
  · exact Or.inl hbad
  · exact Or.inr (Or.inl hfailed)
  · refine Or.inr (Or.inr ⟨j, ?_, hj, hle, ?_⟩)
    · rw [hkept]
      exact hloop
    · rw [hdrop]
      intro q hq
      rcases List.mem_cons.mp hq with rfl | hq
      · exact hp
      · exact hall q hq

theorem LoopEnds.finished {n : Nat} {nearest : List (VectorResult Float32Bits)}
    (hn : view.length ≤ n) (hstatus : (s n).status = .ok) :
    v.LoopEnds unchecked query metric topK view s n nearest (.ok (s n, nearest)) := by
  refine Or.inr (Or.inr ⟨n, ?_, hstatus, hn, ?_⟩)
  · rw [List.drop_eq_nil_of_le hn]
    rfl
  · rw [List.drop_eq_nil_of_le hn]
    simp

theorem searchLoop_ends (hnext : ∀ n, s (n + 1) = (s n).next read)
    (hshows : ∀ n, (s n).status = .ok → ((s n).valid = true ↔ n < view.length) ∧
      ∀ k x, view[n]? = some (k, x) → (s n).key = k ∧ (s n).value = x)
    (fuel n : Nat) (nearest : List (VectorResult Float32Bits)) (hfuel : view.length < n + fuel) :
    v.LoopEnds unchecked query metric topK view s n nearest
      (v.searchLoop unchecked read query topK metric fuel (s n) nearest) := by
  induction fuel generalizing n nearest with
  | zero =>
    rw [searchLoop]
    by_cases hstatus : (s n).status = .ok
    · exact LoopEnds.finished unchecked (by omega) hstatus
    · exact Or.inr (Or.inl ⟨n, nearest, rfl, hstatus⟩)
  | succ fuel ih =>
    rw [searchLoop]
    by_cases hstatus : (s n).status = .ok
    · obtain ⟨hvalid, hentry⟩ := hshows n hstatus
      by_cases hn : n < view.length
      · obtain ⟨p, hget, hdrop⟩ : ∃ p, view[n]? = some p ∧ view.drop n = p :: view.drop (n + 1) :=
          ⟨view[n], List.getElem?_eq_getElem hn, List.drop_eq_getElem_cons hn⟩
        obtain ⟨hkey, hvalue⟩ := hentry p.1 p.2 hget
        rw [if_neg (by simp [hvalid.mpr hn]), hkey, hvalue, ← hnext]
        by_cases hencoded : isEncodedVectorValue p.2 = true
        · rw [if_neg (by simp [hencoded])]
          rcases resultOf_cases unchecked v query metric p.1 p.2 with
            ⟨e, hresult, hne⟩ | ⟨r, hresult, _⟩
          · rw [hresult]
            refine Or.inl ⟨e, rfl, hne, p, List.mem_of_getElem? hget, ?_⟩
            intro haccepted
            obtain ⟨r, hr⟩ := haccepted hencoded
            rw [hresult] at hr
            cases hr
          · rw [hresult]
            have hresults : v.results unchecked query metric (view.drop n) =
                r :: v.results unchecked query metric (view.drop (n + 1)) := by
              rw [hdrop]
              exact List.filterMap_cons_some (by rw [if_pos hencoded, hresult]; rfl)
            refine LoopEnds.step unchecked hdrop (fun _ => ⟨r, hresult⟩) ?_
              (ih (n + 1) (TopK.keep resultBetter topK nearest r) (by omega))
            rw [hresults, List.foldl_cons]
        · rw [if_pos (by simp [hencoded])]
          have hresults : v.results unchecked query metric (view.drop n) =
              v.results unchecked query metric (view.drop (n + 1)) := by
            rw [hdrop]
            exact List.filterMap_cons_none (if_neg hencoded)
          exact LoopEnds.step unchecked hdrop (fun henc => absurd henc hencoded) (by rw [hresults])
            (ih (n + 1) nearest (by omega))
      · have hinvalid : (s n).valid = false := by simpa using mt hvalid.mp hn
        rw [if_pos (by simp [hinvalid])]
        exact LoopEnds.finished unchecked (by omega) hstatus
    · have hinvalid : (s n).valid = false := by simp [MergingIterator.valid, hstatus]
      rw [if_pos (by simp [hinvalid])]
      exact Or.inr (Or.inl ⟨n, nearest, rfl, hstatus⟩)

section Search

variable (hdb : v.db.Readable) (hread : read.Damaged) {snapshot : Option Nat}
  (hsnapshot : v.db.validateReadOptions snapshot = .ok)

include hdb hread hsnapshot

theorem scan_view {n : Nat}
    (h : (scan read (v.db.newIterator snapshot) [] .first n).status = .ok) :
    ((scan read (v.db.newIterator snapshot) [] .first n).valid = true ↔
      n < (v.db.view snapshot).length) ∧
    ∀ k x, (v.db.view snapshot)[n]? = some (k, x) →
      (scan read (v.db.newIterator snapshot) [] .first n).key = k ∧
      (scan read (v.db.newIterator snapshot) [] .first n).value = x := by
  have htables : ∀ t ∈ v.db.sstables.map (·.table), t.Wf := by
    intro t ht
    obtain ⟨o, ho, rfl⟩ := List.mem_map.mp ht
    exact hdb.tables o ho
  rw [DB.newIterator_eq hsnapshot] at h ⊢
  exact scan_observe htables hdb.memtables hdb.functional hread [] .first (fun _ h => by cases h) h

/-- A scan that has shown everything has met no error and meets none later. -/
theorem scan_ok_of_end {j : Nat} (hj : (v.db.view snapshot).length ≤ j)
    (h : (scan read (v.db.newIterator snapshot) [] .first j).status = .ok) (n : Nat) :
    (scan read (v.db.newIterator snapshot) [] .first n).status = .ok := by
  rcases Nat.le_total n j with hle | hle
  · by_contra herr
    rw [scan_failed read _ [] .first herr hle] at h
    exact herr h
  · have hvalid := (scan_view hdb hread hsnapshot h).1
    have hinvalid : (scan read (v.db.newIterator snapshot) [] .first j).valid = false := by
      simpa using mt hvalid.mp (by omega)
    rw [scan_invalid read _ [] .first hinvalid hle]
    exact h

theorem bruteForceSearch_cases {topK : Nat} (htop : topK ≠ 0) (hopen : v.checkOpen = .ok)
    (hquery : v.validateVector unchecked query metric = .ok) :
    ((v.bruteForceSearch unchecked read query topK metric snapshot).1 ≠ .ok ∧
      (v.bruteForceSearch unchecked read query topK metric snapshot).2 = [] ∧
      ((∃ p ∈ v.db.view snapshot, ¬ v.Accepted unchecked query metric p) ∨
        ∃ n, (scan read (v.db.newIterator snapshot) [] .first n).status ≠ .ok)) ∨
    (v.bruteForceSearch unchecked read query topK metric snapshot =
        (.ok, TopK.sort resultBetter ((v.results unchecked query metric (v.db.view snapshot)).foldl
          (TopK.keep resultBetter topK) []).reverse) ∧
      (∀ p ∈ v.db.view snapshot, v.Accepted unchecked query metric p) ∧
      ∀ n, (scan read (v.db.newIterator snapshot) [] .first n).status = .ok) := by
  have hstatus : (v.db.newIterator snapshot).status = .ok := by
    rw [DB.newIterator_eq hsnapshot]
    rfl
  have hfuel := v.db.view_length_le snapshot
  have hfirst : (v.db.newIterator snapshot).seekToFirst read =
      scan read (v.db.newIterator snapshot) [] .first 0 := rfl
  have hloop := @searchLoop_ends unchecked v query metric read topK (v.db.view snapshot)
    (scan read (v.db.newIterator snapshot) [] .first) (fun _ => rfl)
    (fun _ hn => scan_view hdb hread hsnapshot hn) (v.db.versions.length + 1) 0 [] (by omega)
  rw [LoopEnds, List.drop_zero] at hloop
  rcases hloop with ⟨e, hrun, hne, hbad⟩ | ⟨j, kept, hrun, hfailed⟩ | ⟨j, hrun, hok, hj, hall⟩
  · left
    simp only [bruteForceSearch, hopen, hquery, hstatus, htop, hfirst, hrun, ne_eq,
      not_true_eq_false, if_false]
    exact ⟨hne, trivial, Or.inl hbad⟩
  · left
    simp only [bruteForceSearch, hopen, hquery, hstatus, htop, hfirst, hrun, ne_eq,
      not_true_eq_false, if_false, hfailed, not_false_eq_true, if_true]
    exact ⟨trivial, trivial, Or.inr ⟨j, hfailed⟩⟩
  · right
    refine ⟨?_, hall, scan_ok_of_end hdb hread hsnapshot hj hok⟩
    simp only [bruteForceSearch, hopen, hquery, hstatus, htop, hfirst, hrun, ne_eq,
      not_true_eq_false, if_false, hok]

end Search

theorem view_ascending (db : DB) (snapshot : Option Nat) :
    (db.view snapshot).Pairwise fun a b => a.1 < b.1 :=
  scanView_sorted _ _

/-- Brute-force search over a view, when every block of the tables reads as written or
fails. If all encoded values of the view decode to the configured dimension and have a
distance, and the scan meets no error, the results are the first `topK` of all of them in
the order of distance and key. Otherwise the search fails and returns nothing. -/
theorem bruteForceSearch_exact (v : VectorDB) (hdb : v.db.Readable) {read : TableFile.Reader}
    (hread : read.Damaged) (query : FloatVector) (topK : Nat) (metric : VectorDistanceMetric)
    (snapshot : Option Nat) (hopen : v.checkOpen = .ok)
    (hquery : v.validateVector unchecked query metric = .ok)
    (hsnapshot : v.db.validateReadOptions snapshot = .ok) :
    ((∀ p ∈ v.db.view snapshot, v.Accepted unchecked query metric p) →
      (∀ n, (scan read (v.db.newIterator snapshot) [] .first n).status = .ok) →
      ∃ sorted : List (VectorResult Float32Bits),
        sorted.Perm (v.results unchecked query metric (v.db.view snapshot)) ∧
        sorted.Pairwise (fun a b => resultBetter a b = true) ∧
        v.bruteForceSearch unchecked read query topK metric snapshot = (.ok, sorted.take topK)) ∧
    (0 < topK →
      ((∃ p ∈ v.db.view snapshot, ¬ v.Accepted unchecked query metric p) ∨
        ∃ n, (scan read (v.db.newIterator snapshot) [] .first n).status ≠ .ok) →
      (v.bruteForceSearch unchecked read query topK metric snapshot).1 ≠ .ok ∧
        (v.bruteForceSearch unchecked read query topK metric snapshot).2 = []) := by
  have hrank := resultBetter_iff
  have hdistinct : TopK.Distinct rank (v.results unchecked query metric (v.db.view snapshot)) :=
    results_distinct unchecked (view_ascending v.db snapshot)
  constructor
  · intro hall hok
    refine ⟨TopK.sort resultBetter (v.results unchecked query metric (v.db.view snapshot)),
      List.perm_insertionSort _ _, TopK.sort_sorted hrank hdistinct, ?_⟩
    by_cases htop : topK = 0
    · have hstatus : (v.db.newIterator snapshot).status = .ok := by
        rw [DB.newIterator_eq hsnapshot]
        rfl
      simp [bruteForceSearch, hopen, hquery, hstatus, htop]
    · rcases bruteForceSearch_cases unchecked hdb hread hsnapshot htop hopen hquery with
        ⟨_, _, ⟨p, hp, hbad⟩ | ⟨n, hfailed⟩⟩ | ⟨hrun, _⟩
      · exact absurd (hall p hp) hbad
      · exact absurd (hok n) hfailed
      · rw [hrun, TopK.foldl_keep_eq hrank topK hdistinct, TopK.sort_reverse hrank]
        exact (TopK.sort_sorted hrank hdistinct).sublist (List.take_sublist _ _)
  · intro htop hreason
    rcases bruteForceSearch_cases unchecked hdb hread hsnapshot (Nat.pos_iff_ne_zero.mp htop) hopen
      hquery with ⟨hne, hnil, _⟩ | ⟨_, hall, hok⟩
    · exact ⟨hne, hnil⟩
    · rcases hreason with ⟨p, hp, hbad⟩ | ⟨n, hfailed⟩
      · exact absurd (hall p hp) hbad
      · exact absurd (hok n) hfailed

end Loop

def tiedVectors : VectorDB :=
  { vectorDimension := 1
    state := .ready
    db := { DB.new { dbPath := ascii "v" } with
      closed := false
      mems := [[
        ⟨ascii "a", 4, kVectorValueMagic ++ kFloat32Type :: recordBytes ⟨[], [2#32], []⟩, false⟩,
        ⟨ascii "b", 3, kVectorValueMagic ++ kFloat32Type :: recordBytes ⟨[], [2#32], []⟩, false⟩,
        ⟨ascii "c", 2, kVectorValueMagic ++ kFloat32Type :: recordBytes ⟨[], [1#32], []⟩, false⟩,
        ⟨ascii "d", 1, ascii "plain", false⟩]]
      manifest := { edit := { lastSequence := 4 } } } }

/-- A distance that only tells equal vectors from different ones. -/
def discrete (_ : VectorDistanceMetric) (a b : FloatVector) : Float32Bits :=
  if a = b then 0#32 else 1#32

theorem bruteForceSearch_exact_tie :
    tiedVectors.bruteForceSearch discrete TableFile.Reader.plain [1#32] 2 .kL2 none =
      (.ok, [⟨ascii "c", 0#32, []⟩, ⟨ascii "a", 1#32, []⟩]) ∧
    ∃ sorted : List (VectorResult Float32Bits),
      sorted.Perm (tiedVectors.results discrete [1#32] .kL2 (tiedVectors.db.view none)) ∧
      sorted.Pairwise (fun a b => resultBetter a b = true) ∧
      tiedVectors.bruteForceSearch discrete TableFile.Reader.plain [1#32] 2 .kL2 none =
        (.ok, sorted.take 2) := by
  have hrun : StrictRun (tiedVectors.db.activeMemtable) := by
    unfold StrictRun
    decide +kernel
  have hdb : tiedVectors.db.Readable := by
    refine ⟨fun t ht => absurd ht List.not_mem_nil, ?_, ?_⟩
    · intro es hes
      rw [List.mem_singleton.mp hes]
      exact hrun.sorted
    · have hall : ∀ x ∈ tiedVectors.db.versions, ∀ y ∈ tiedVectors.db.versions,
          x.key = y.key → x.sequence = y.sequence → x = y := by
        decide +kernel
      exact hall
  have hread : TableFile.Reader.plain.Damaged := fun _ _ => Or.inl rfl
  have hall : ∀ p ∈ tiedVectors.db.view none,
      tiedVectors.Accepted discrete [1#32] .kL2 p := by
    have hsome : ∀ p ∈ tiedVectors.db.view none, isEncodedVectorValue p.2 = true →
        (tiedVectors.resultOf discrete [1#32] .kL2 p.1 p.2).toOption.isSome = true := by
      decide +kernel
    intro p hp hencoded
    have hp := hsome p hp hencoded
    cases hresult : tiedVectors.resultOf discrete [1#32] .kL2 p.1 p.2 with
    | error e =>
      rw [hresult] at hp
      cases hp
    | ok r => exact ⟨r, rfl⟩
  have hend : (scan TableFile.Reader.plain (tiedVectors.db.newIterator none) [] .first 4).status =
      .ok := by
    decide +kernel
  have hok := scan_ok_of_end hdb hread (by decide +kernel) (by decide +kernel) hend
  exact ⟨by decide +kernel,
    (bruteForceSearch_exact discrete tiedVectors hdb hread [1#32] 2 .kL2 none
      (by decide +kernel) (by decide +kernel) (by decide +kernel)).1 hall hok⟩

end VectorDB

end KvMem
