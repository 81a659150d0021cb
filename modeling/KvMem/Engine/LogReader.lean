import KvMem.Engine.Directory
import KvMem.Storage.WalDamage

/-! # The log reader

`WALReader` as an object that is asked for record after record. It opens the file
at the first call, remembers its offset, and cuts a torn tail off the file it is
reading. The answers over the bytes of the file are those of `RecordLog.readAll`.
-/

namespace KvMem

open CrashStore RecordLog

/-- One answer of `ReadNext`; a record comes with the offset behind it. -/
inductive ReadAnswer where
  | eof
  | failed (status : Status)
  | record (r : WALBatchRecord) (position : Nat)

/-- How a sequence of `ReadNext` calls ends. -/
inductive ReadEnd where
  | eof
  | failed (status : Status)
  | more
  deriving DecidableEq

namespace WALReader

def readFrom (number position : Nat) : Prog ReadAnswer :=
  .look fun dir =>
    let contents := bytesOf ((dir.read (.wal number)).getD [])
    match Wal.readNext (contents.drop position) with
    | .eof => .ret .eof
    | .torn =>
      truncateTornTail number position >>= fun status =>
        if status ≠ .ok then .ret (.failed status) else .ret .eof
    | .bad e => .ret (.failed e)
    | .record r rest => .ret (.record r (contents.length - rest.length))

/-- `ReadNext`; the stream of a reader without an offset is still closed. -/
def readNext (number : Nat) : Option Nat → Prog ReadAnswer
  | some position => readFrom number position
  | none =>
    .look fun dir =>
      if dir.exists (.wal number) then
        attempt (.probe (.wal number)) (.ret (.failed (.ioError "failed to open WAL for read"))) <|
        readFrom number 0
      else .ret .eof

/-- Call `ReadNext` until it returns no record, at most `fuel` times. -/
def readLog (number : Nat) : Nat → Option Nat → Prog (List WALBatchRecord × ReadEnd)
  | 0, _ => .ret ([], .more)
  | fuel + 1, position =>
    readNext number position >>= fun
      | .eof => .ret ([], .eof)
      | .failed status => .ret ([], .failed status)
      | .record r position =>
        readLog number fuel (some position) >>= fun (rs, e) => .ret (r :: rs, e)

end WALReader

/-- Append batches one after the other, as long as each append succeeds. -/
def appendBatches (number : Nat) : List WALBatchRecord → Prog Status
  | [] => .ret .ok
  | r :: rs =>
    appendBatch number r.batch r.sequence >>= fun status =>
      if status ≠ .ok then .ret status else appendBatches number rs

/-! ## Runs without a fault -/

def cutLog (number size : Nat) (dir : Dir) : Dir :=
  (Op.syncDir).exec ((Op.sync (.wal number)).exec ((Op.truncate (.wal number) size).exec dir))

variable {n : FileName} {xs : List Cell} {number : Nat}

theorem read_append (dir : Dir) (ys : List Cell) (h : dir.read n = some xs) :
    ((Op.append n ys).exec dir).read n = some (xs ++ ys) := by
  obtain ⟨d, hd, hx⟩ := Option.map_eq_some_iff.mp h
  rw [FS.read, Op.append_data ys hd, Option.map_some, hx]

theorem read_sync (dir : Dir) (h : dir.read n = some xs) :
    ((Op.sync n).exec dir).read n = some xs := by
  obtain ⟨d, hd, hx⟩ := Option.map_eq_some_iff.mp h
  rw [FS.read, Op.sync_data hd, Option.map_some, hx]

theorem read_truncate (dir : Dir) (size : Nat) (h : dir.read n = some xs) :
    ((Op.truncate n size).exec dir).read n = some (xs.take size) := by
  obtain ⟨d, hd, hx⟩ := Option.map_eq_some_iff.mp h
  have his : (dir.slot n).Is (some d) (fun _ => True) := ⟨hd, fun _ _ => trivial⟩
  rw [FS.read_of_is (Op.truncate_is size his), Option.map_some, hx]

theorem read_cutLog {file : Bytes} (dir : Dir) (size : Nat)
    (h : dir.read (.wal number) = some (toCells file)) :
    (cutLog number size dir).read (.wal number) = some (toCells (file.take size)) := by
  have ht := read_truncate dir size h
  rw [toCells_take] at ht
  have hs := read_sync _ ht
  rw [cutLog, Op.exec_read _ _ (by simp [Op.Touches])]
  exact hs

theorem runOk_appendBatches (rs : List WALBatchRecord) (file : Bytes) (dir : Dir)
    (hv : ∀ r ∈ rs, Wal.Appendable r) (h : dir.read (.wal number) = some (toCells file)) :
    (runOk (appendBatches number rs) dir).2 = .ok ∧
      (runOk (appendBatches number rs) dir).1.read (.wal number) =
        some (toCells (file ++ encodeAll Wal.encodeRecord rs)) := by
  induction rs generalizing file dir with
  | nil => exact ⟨rfl, by simpa [appendBatches] using h⟩
  | cons r rs ih =>
    have hr := hv r List.mem_cons_self
    have hcount : ¬ r.batch.count = 0 := fun h0 => hr.nonempty (List.length_eq_zero_iff.mp h0)
    have happ : runOk (appendBatch number r.batch r.sequence) dir =
        ((Op.sync (.wal number)).exec
          ((Op.append (.wal number) (toCells (Wal.encodeRecord r))).exec dir), .ok) := by
      simp only [appendBatch, if_neg hcount, Wal.checkAppend_of_appendable hr]
      rfl
    have hread := read_sync _ (read_append dir (toCells (Wal.encodeRecord r)) h)
    rw [← toCells_append] at hread
    have hrest := ih _ _ (fun r' hr' => hv r' (List.mem_cons_of_mem r hr')) hread
    rw [appendBatches, runOk_bind, happ]
    simpa [List.append_assoc] using hrest

namespace WALReader

variable {file : Bytes}

theorem runOk_readFrom {number : Nat} (dir : Dir) (position : Nat)
    (h : dir.read (.wal number) = some (toCells file)) :
    runOk (readFrom number position) dir =
      (match Wal.readNext (file.drop position) with
       | .eof => (dir, .eof)
       | .torn => (cutLog number position dir, .eof)
       | .bad e => (dir, .failed e)
       | .record r rest => (dir, .record r (file.length - rest.length))) := by
  simp only [readFrom, runOk_look, h, Option.getD_some, bytesOf_toCells]
  cases Wal.readNext (file.drop position) with
  | eof => rfl
  | torn => rfl
  | bad e => rfl
  | record r rest => rfl

theorem runOk_readNext_none {number : Nat} (dir : Dir)
    (h : dir.read (.wal number) = some (toCells file)) :
    runOk (readNext number none) dir = runOk (readNext number (some 0)) dir := by
  have hex : dir.exists (.wal number) = true := by
    rw [FS.exists_eq_read, h]
    rfl
  simp only [readNext, runOk_look, hex, if_true, attempt, runOk_op]
  rfl

/-- The reader object answers what reading the bytes of the file answers; a torn
tail is cut off where it begins. -/
theorem runOk_readLog {number : Nat} (dir : Dir) (fuel position : Nat)
    (h : dir.read (.wal number) = some (toCells file)) (hp : position ≤ file.length) :
    runOk (readLog number fuel (some position)) dir =
      (match readAll Wal.readNext fuel (file.drop position) with
       | (rs, .eof) => (dir, rs, .eof)
       | (rs, .torn tail) => (cutLog number (file.length - tail.length) dir, rs, .eof)
       | (rs, .bad e) => (dir, rs, .failed e)
       | (rs, .more _) => (dir, rs, .more)) := by
  induction fuel generalizing position with
  | zero => rfl
  | succ fuel ih =>
    simp only [readLog, readNext, runOk_bind, runOk_readFrom dir position h, readAll]
    cases hnext : Wal.readNext (file.drop position) with
    | eof => rfl
    | torn =>
      have hlen : file.length - (file.drop position).length = position := by
        rw [List.length_drop]
        omega
      simp only [hlen]
      rfl
    | bad e => rfl
    | record r rest =>
      obtain ⟨front, hfront⟩ := (Wal.readNext_suffix hnext).trans (List.drop_suffix _ _)
      have hpos : file.length - rest.length = front.length := by
        rw [← hfront, List.length_append]
        omega
      have hdrop : file.drop front.length = rest := by
        rw [← hfront]
        exact List.drop_left' rfl
      have hle : front.length ≤ file.length := by
        rw [← hfront, List.length_append]
        omega
      have hrest := ih front.length hle
      rw [hdrop] at hrest
      simp only [hpos, runOk_bind, hrest]
      cases hall : readAll Wal.readNext fuel rest with
      | mk rs e =>
        cases e <;> rfl

theorem runOk_readLog_none {number : Nat} (dir : Dir) (fuel : Nat)
    (h : dir.read (.wal number) = some (toCells file)) :
    runOk (readLog number fuel none) dir = runOk (readLog number fuel (some 0)) dir := by
  cases fuel with
  | zero => rfl
  | succ fuel => simp only [readLog, runOk_bind, runOk_readNext_none dir h]

theorem readLog_complete {number : Nat} (dir : Dir) (rs : List WALBatchRecord) (fuel : Nat)
    (hv : ∀ r ∈ rs, Wal.Appendable r) (hfuel : rs.length < fuel)
    (h : dir.read (.wal number) = some (toCells (encodeAll Wal.encodeRecord rs))) :
    runOk (readLog number fuel none) dir = (dir, rs, .eof) := by
  have hall := Wal.format.readAll_log rs [] fuel hv (Tail.nil _ _) hfuel
  rw [List.append_nil, if_pos rfl] at hall
  rw [runOk_readLog_none dir fuel h, runOk_readLog dir fuel 0 h (Nat.zero_le _), List.drop_zero,
    hall]

theorem readLog_torn {number : Nat} (dir : Dir) (rs : List WALBatchRecord) (tail : Bytes)
    (fuel : Nat) (hv : ∀ r ∈ rs, Wal.Appendable r)
    (ht : Tail Wal.encodeRecord Wal.Appendable tail) (hfuel : rs.length < fuel)
    (h : dir.read (.wal number) = some (toCells (encodeAll Wal.encodeRecord rs ++ tail))) :
    (runOk (readLog number fuel none) dir).2 = (rs, .eof) ∧
      (runOk (readLog number fuel none) dir).1.read (.wal number) =
        some (toCells (encodeAll Wal.encodeRecord rs)) := by
  by_cases hne : tail = []
  · subst hne
    rw [List.append_nil] at h
    rw [readLog_complete dir rs fuel hv hfuel h]
    exact ⟨rfl, h⟩
  · have hall := Wal.format.readAll_log rs tail fuel hv ht hfuel
    rw [if_neg hne] at hall
    rw [runOk_readLog_none dir fuel h, runOk_readLog dir fuel 0 h (Nat.zero_le _), List.drop_zero,
      hall]
    refine ⟨rfl, ?_⟩
    rw [read_cutLog dir _ h]
    have hlen : (encodeAll Wal.encodeRecord rs ++ tail).length - tail.length =
        (encodeAll Wal.encodeRecord rs).length := by
      rw [List.length_append]
      omega
    rw [hlen, List.take_left' rfl]

/-- Records appended to an empty log, the file cut at any byte `c`: the reader
returns exactly the records that end at or before `c`, then the end of the file,
and leaves a file of exactly these records, which the next reader does not touch. -/
theorem readLog_appended_cut (number : Nat) (dir : Dir) (rs : List WALBatchRecord) (c fuel : Nat)
    (hempty : dir.read (.wal number) = some []) (hv : ∀ r ∈ rs, Wal.Appendable r)
    (hfuel : rs.length < fuel) :
    let written := runOk (appendBatches number rs) dir
    let cut := (Op.truncate (.wal number) c).exec written.1
    let first := runOk (readLog number fuel none) cut
    written.2 = .ok ∧
    written.1.read (.wal number) = some (toCells (encodeAll Wal.encodeRecord rs)) ∧
    ∃ i, i ≤ rs.length ∧
      (∀ j, j < rs.length →
        (j < i ↔ (encodeAll Wal.encodeRecord (rs.take (j + 1))).length ≤ c)) ∧
      first.2 = (rs.take i, .eof) ∧
      first.1.read (.wal number) = some (toCells (encodeAll Wal.encodeRecord (rs.take i))) ∧
      runOk (readLog number fuel none) first.1 = (first.1, rs.take i, .eof) := by
  intro written cut first
  obtain ⟨hok, hwritten⟩ := runOk_appendBatches rs [] dir hv hempty
  rw [List.nil_append] at hwritten
  obtain ⟨i, hi, hends, tail, he, ht⟩ :=
    cut_split Wal.encodeRecord Wal.Appendable rs c hv
  have hcut : cut.read (.wal number) =
      some (toCells (encodeAll Wal.encodeRecord (rs.take i) ++ tail)) := by
    have h := read_truncate _ c hwritten
    rwa [toCells_take, he] at h
  have hvi : ∀ r ∈ rs.take i, Wal.Appendable r := fun r hr => hv r (List.mem_of_mem_take hr)
  have hfi : (rs.take i).length < fuel := by
    rw [List.length_take]
    omega
  obtain ⟨hfirst, hleft⟩ := readLog_torn cut (rs.take i) tail fuel hvi ht hfi hcut
  exact ⟨hok, hwritten, i, hi, hends, hfirst, hleft,
    readLog_complete first.1 (rs.take i) fuel hvi hfi hleft⟩

def logDir (number : Nat) (file : Bytes) : Dir :=
  (Op.append (.wal number) (toCells file)).exec ((Op.create (.wal number)).exec FS.empty)

theorem read_logDir (number : Nat) (file : Bytes) :
    (logDir number file).read (.wal number) = some (toCells file) := by
  have hcreate : ((Op.create (.wal number)).exec (FS.empty : Dir)).read (.wal number) = some [] := by
    simp [Op.exec, FS.empty, FS.read]
  exact read_append _ (toCells file) hcreate

def twoRecords : List WALBatchRecord := [⟨1, [.put [97] [98]]⟩, ⟨2, [.delete [97]]⟩]

theorem twoRecords_appendable : ∀ r ∈ twoRecords, Wal.Appendable r := by
  intro r hr
  simp only [twoRecords, List.mem_cons, List.not_mem_nil, or_false] at hr
  rcases hr with rfl | rfl
  · exact ⟨by decide, by decide, by decide, by decide⟩
  · exact ⟨by decide, by decide, by decide, by decide⟩

theorem readLog_appended_cut_second :
    (runOk (readLog 1 3 none) ((Op.truncate (.wal 1) 40).exec
      (runOk (appendBatches 1 twoRecords) (logDir 1 [])).1)).2 =
        ([⟨1, [.put [97] [98]]⟩], .eof) := by
  obtain ⟨_, _, i, hi, hends, hfirst, _⟩ := readLog_appended_cut 1 (logDir 1 []) twoRecords 40 3
    (read_logDir 1 []) twoRecords_appendable (by decide)
  have h0 := (hends 0 (by decide)).mpr (by decide +kernel)
  have h1 : ¬ 1 < i := fun hlt => absurd ((hends 1 (by decide)).mp hlt) (by decide +kernel)
  have hone : i = 1 := by omega
  rw [hfirst, hone]
  rfl

/-! ## A damaged log -/

/-- A log whose record behind `front` has one inverted bit: the records in front
are returned; then the reader reports a corruption and leaves the file alone,
except when the bit makes the payload size reach behind the end of the file. -/
theorem readLog_flip {number : Nat} (dir : Dir) (front back : List WALBatchRecord)
    (r : WALBatchRecord) (i : Nat) (bit : Fin 8) (fuel : Nat)
    (hv : ∀ r' ∈ front ++ r :: back, Wal.Appendable r')
    (hi : i < (Wal.encodeRecord r).length) (hfuel : front.length < fuel)
    (h : dir.read (.wal number) = some (toCells
      (flipBit ((encodeAll Wal.encodeRecord front).length + i) bit
        (encodeAll Wal.encodeRecord (front ++ r :: back))))) :
    (¬ Wal.SizeRunsPastEnd r (encodeAll Wal.encodeRecord back) i bit →
      ∃ message, runOk (readLog number fuel none) dir =
        (dir, front, .failed (.corruption message))) ∧
    (Wal.SizeRunsPastEnd r (encodeAll Wal.encodeRecord back) i bit →
      (runOk (readLog number fuel none) dir).2 = (front, .eof) ∧
      (runOk (readLog number fuel none) dir).1.read (.wal number) =
        some (toCells (encodeAll Wal.encodeRecord front))) := by
  have hfront : ∀ r' ∈ front, Wal.Appendable r' := fun r' hr' => hv r' (List.mem_append_left _ hr')
  have hr : Wal.Appendable r := hv r (List.mem_append_right _ List.mem_cons_self)
  rw [encodeAll_append, flipBit_append_right, encodeAll_cons, flipBit_append_left bit _ hi] at h
  obtain ⟨k, rfl⟩ := Nat.exists_eq_add_of_lt hfuel
  have hall := Wal.format.readAll_append front
    (flipBit i bit (Wal.encodeRecord r) ++ encodeAll Wal.encodeRecord back) (k + 1) hfront
  obtain ⟨htorn, hdetects⟩ := Wal.readNext_flip hr bit hi (encodeAll Wal.encodeRecord back)
  have hrun := runOk_readLog_none dir (front.length + k + 1) h
  rw [runOk_readLog dir _ 0 h (Nat.zero_le _), List.drop_zero, Nat.add_assoc, hall, readAll] at hrun
  rw [Nat.add_assoc]
  constructor
  · intro hpast
    obtain ⟨message, hbad⟩ := hdetects hpast
    refine ⟨message, ?_⟩
    rw [hrun, hbad]
    simp
  · intro hpast
    rw [hrun, htorn hpast]
    refine ⟨by simp, ?_⟩
    simp only
    rw [read_cutLog dir _ h]
    have hlen : (encodeAll Wal.encodeRecord front ++ (flipBit i bit (Wal.encodeRecord r) ++
        encodeAll Wal.encodeRecord back)).length - (flipBit i bit (Wal.encodeRecord r) ++
        encodeAll Wal.encodeRecord back).length = (encodeAll Wal.encodeRecord front).length := by
      rw [List.length_append]
      omega
    rw [hlen, List.take_left' rfl]

/-- The damage is reported, with the records in front returned and the file left
alone, exactly when the inverted bit does not make the payload size reach behind
the end of the file. -/
theorem readLog_flip_detected_iff (number : Nat) (dir : Dir) (front back : List WALBatchRecord)
    (r : WALBatchRecord) (i : Nat) (bit : Fin 8) (fuel : Nat)
    (hv : ∀ r' ∈ front ++ r :: back, Wal.Appendable r')
    (hi : i < (Wal.encodeRecord r).length) (hfuel : front.length < fuel)
    (h : dir.read (.wal number) = some (toCells
      (flipBit ((encodeAll Wal.encodeRecord front).length + i) bit
        (encodeAll Wal.encodeRecord (front ++ r :: back))))) :
    (∃ message, runOk (readLog number fuel none) dir =
      (dir, front, .failed (.corruption message))) ↔
      ¬ Wal.SizeRunsPastEnd r (encodeAll Wal.encodeRecord back) i bit := by
  obtain ⟨hdetects, htorn⟩ := readLog_flip dir front back r i bit fuel hv hi hfuel h
  refine ⟨fun ⟨message, hrun⟩ hpast => ?_, hdetects⟩
  have heof := (htorn hpast).1
  rw [hrun] at heof
  cases heof

theorem readLog_flip_detected_payload :
    ∃ message, runOk (readLog 1 3 none)
        (logDir 1 (flipBit 30 0 (encodeAll Wal.encodeRecord twoRecords))) =
      (logDir 1 (flipBit 30 0 (encodeAll Wal.encodeRecord twoRecords)), [],
        .failed (.corruption message)) :=
  (readLog_flip_detected_iff 1 _ [] [⟨2, [.delete [97]]⟩] ⟨1, [.put [97] [98]]⟩ 30 0 3
    twoRecords_appendable (by decide +kernel) (by decide) (read_logDir 1 _)).mpr (by decide +kernel)

/-- The top bit of the first payload size: the reader reports the end of the log and
cuts off both records. -/
theorem readLog_flip_size_drops_log :
    (runOk (readLog 1 3 none)
      (logDir 1 (flipBit 20 7 (encodeAll Wal.encodeRecord twoRecords)))).2 = ([], .eof) ∧
    (runOk (readLog 1 3 none)
      (logDir 1 (flipBit 20 7 (encodeAll Wal.encodeRecord twoRecords)))).1.read (.wal 1) =
        some [] :=
  (readLog_flip (logDir 1 (flipBit 20 7 (encodeAll Wal.encodeRecord twoRecords))) []
    [⟨2, [.delete [97]]⟩] ⟨1, [.put [97] [98]]⟩ 20 7 3 twoRecords_appendable (by decide +kernel)
    (by decide) (read_logDir 1 _)).2 (by decide +kernel)

end WALReader

end KvMem
