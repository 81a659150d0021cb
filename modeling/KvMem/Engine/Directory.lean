import KvMem.Foundation.FileProgram
import KvMem.Storage.Compaction
import KvMem.Storage.SSTable
import KvMem.Storage.Wal

/-! # The files of a database

The write-ahead logs, `MANIFEST` and `CURRENT` are byte files. A table file is
kept as one cell that holds the table: its bytes are computed by
`SSTable.fileBytes`, and it is written by one call and renamed into place only
when it is complete. Every function here is a program of elementary file steps,
with the failure branches of the source.
-/

namespace KvMem

open CrashStore RecordLog

/-- One unit of file content. -/
inductive Cell where
  | byte (b : Byte)
  | table (t : TableFile)
  deriving DecidableEq, Repr

abbrev Dir := FS FileName Cell

abbrev Prog := FileProg FileName Cell

def toCells (bytes : Bytes) : List Cell := bytes.map Cell.byte

def Cell.byte? : Cell → Option Byte
  | .byte b => some b
  | .table _ => none

def bytesOf (cells : List Cell) : Bytes := cells.filterMap Cell.byte?

def tableIn : List Cell → Option TableFile
  | [.table t] => some t
  | _ => none

/-- Perform one step; go on with `k` when it succeeds, with `fail` otherwise. -/
def attempt {ρ : Type} (o : Op FileName Cell) (fail k : Prog ρ) : Prog ρ :=
  .op o fun ok => if ok then k else fail

def sstNumbers (dir : Dir) : List Nat := dir.list.filterMap FileName.sstNumber?

def walNumbers (dir : Dir) : List Nat := dir.list.filterMap FileName.walNumber?

/-! ## Table files -/

def createFromEntries (number : Nat) (entries : List VersionedEntry)
    (blockSize bloomBitsPerKey : Nat) : Prog Status :=
  match SSTable.checkCreate entries bloomBitsPerKey with
  | .ok =>
    let table := SSTable.tableOf entries blockSize bloomBitsPerKey
    attempt (.reset (.sstTmp number)) (.ret (.ioError "failed to open SSTable temp file")) <|
    attempt (.append (.sstTmp number) [.table table])
      (.ret (.ioError "failed to flush SSTable temp file")) <|
    attempt (.sync (.sstTmp number))
      (.op (.remove (.sstTmp number)) fun _ => .ret (.ioError "failed to fsync file")) <|
    attempt (.rename (.sstTmp number) (.sst number))
      (.op (.remove (.sstTmp number)) fun _ =>
        .ret (.ioError "failed to rename SSTable temp file")) <|
    attempt .syncDir (.ret (.ioError "failed to fsync directory")) <|
    .ret .ok
  | status => .ret status

def openTable (path : FileName) : Prog (Except Status TableFile) :=
  attempt (.probe path) (.ret (.error (.ioError "failed to open SSTable"))) <|
  .look fun dir =>
    match dir.read path with
    | none => .ret (.error (.ioError "failed to open SSTable"))
    | some cells =>
      match tableIn cells with
      | none => .ret (.error (.corruption "SSTable too small"))
      | some t => .ret (.ok t)

/-! ## Write-ahead logs -/

def openWal (number : Nat) : Prog Status :=
  attempt (.create (.wal number)) (.ret (.ioError "failed to open WAL for append")) <|
  attempt .syncDir (.ret (.ioError "failed to fsync directory")) <|
  .ret .ok

def appendBatch (number : Nat) (batch : WriteBatch) (sequence : Nat) : Prog Status :=
  if batch.count = 0 then .ret .ok
  else
    match Wal.checkAppend batch sequence with
    | .ok =>
      attempt (.append (.wal number) (toCells (Wal.encodeRecord ⟨sequence, batch⟩)))
        (.ret (.ioError "failed to append WAL batch record")) <|
      attempt (.sync (.wal number)) (.ret (.ioError "failed to fsync file")) <|
      .ret .ok
    | status => .ret status

def truncateTornTail (number size : Nat) : Prog Status :=
  attempt (.truncate (.wal number) size) (.ret (.ioError "failed to truncate torn WAL")) <|
  attempt (.sync (.wal number)) (.ret (.ioError "failed to fsync file")) <|
  attempt .syncDir (.ret (.ioError "failed to fsync directory")) <|
  .ret .ok

/-- Remove logs one by one; a missing file is no error. -/
def removeWals : List Nat → Prog Status → Prog Status
  | [], k => k
  | n :: ns, k =>
    attempt (.remove (.wal n)) (.ret (.ioError "failed to remove file")) (removeWals ns k)

def removeObsoleteWALFiles (oldestLiveWal : Nat) : Prog Status :=
  .look fun dir =>
    let obsolete := (walNumbers dir).filter fun n => n < oldestLiveWal
    removeWals obsolete <|
      if obsolete = [] then .ret .ok
      else attempt .syncDir (.ret (.ioError "failed to fsync directory")) (.ret .ok)

/-! ## The edit log -/

/-- The state of a `Manifest` object: the file it writes, the current version and
the version its last successful save wrote. -/
structure ManifestState where
  path : FileName := .manifest
  edit : VersionEdit := {}
  persisted : VersionEdit := {}
  deriving DecidableEq

namespace Manifest

def currentBytes (path : FileName) : Bytes := path.bytes ++ [10]

/-- `PersistEditRecord`. A text longer than its size type can say cannot be built. -/
def persistEditRecord (path : FileName) (persisted edit : VersionEdit) : Prog Status :=
  let payload := buildEditPayload persisted edit
  if payload.length > maxUInt64 then .ret (.ioError "failed to write MANIFEST edit")
  else
    attempt (.create path) (.ret (.ioError "failed to open MANIFEST for write")) <|
    attempt (.append path (toCells (encodeRecord payload)))
      (.ret (.ioError "failed to write MANIFEST edit")) <|
    attempt (.sync path) (.ret (.ioError "failed to fsync file")) <|
    .ret .ok

def writeCurrentFile (path : FileName) : Prog Status :=
  attempt (.reset .currentTmp) (.ret (.ioError "failed to open CURRENT temp file")) <|
  attempt (.append .currentTmp (toCells (currentBytes path)))
    (.ret (.ioError "failed to write CURRENT temp file")) <|
  attempt (.sync .currentTmp)
    (.op (.remove .currentTmp) fun _ => .ret (.ioError "failed to fsync file")) <|
  attempt (.rename .currentTmp .current)
    (.op (.remove .currentTmp) fun _ => .ret (.ioError "failed to rename CURRENT temp file")) <|
  attempt .syncDir (.ret (.ioError "failed to fsync directory")) <|
  .ret .ok

def save (m : ManifestState) (edit : VersionEdit) : Prog (ManifestState × Status) :=
  .look fun dir =>
    let currentExists := dir.exists .current
    persistEditRecord m.path m.persisted edit >>= fun status =>
    if status ≠ .ok then .ret (m, status)
    else
      attempt .syncDir (.ret (m, .ioError "failed to fsync directory")) <|
      (if currentExists then .ret .ok else writeCurrentFile m.path) >>= fun status =>
      if status ≠ .ok then .ret (m, status)
      else .ret ({ m with edit := edit, persisted := edit }, .ok)

/-- `LoadEditLog`, on the file `path`. -/
def loadEditLog (path : FileName) : Prog (Except Status VersionEdit) :=
  attempt (.probe path) (.ret (.error (.ioError "failed to open MANIFEST"))) <|
  .look fun dir =>
    match dir.read path with
    | none => .ret (.error (.ioError "failed to open MANIFEST"))
    | some cells =>
      let contents := bytesOf cells
      match replayLog contents with
      | .error e => .ret (.error e)
      | .ok (edit, tail) =>
        let finish : Prog (Except Status VersionEdit) :=
          .look fun dir =>
            if edit.sstables.all fun f => dir.exists f.filePath then .ret (.ok edit)
            else .ret (.error (.ioError "MANIFEST references missing SSTable"))
        if tail = [] then finish
        else
          attempt (.truncate path (contents.length - tail.length))
            (.ret (.error (.ioError "failed to truncate torn MANIFEST"))) <|
          attempt (.sync path) (.ret (.error (.ioError "failed to fsync file"))) <|
          attempt .syncDir (.ret (.error (.ioError "failed to fsync directory"))) <|
          finish

/-- `Manifest::Load`; the answer carries the log file that `CURRENT` names. -/
def load : Prog (Except Status ManifestState) :=
  let withPath (path : FileName) : Prog (Except Status ManifestState) :=
    loadEditLog path >>= fun
      | .error e => .ret (.error e)
      | .ok edit => .ret (.ok ⟨path, edit, edit⟩)
  .look fun dir =>
    if dir.exists .current then
      attempt (.probe .current) (.ret (.error (.ioError "failed to open CURRENT"))) <|
      .look fun dir =>
        let contents := bytesOf ((dir.read .current).getD [])
        let (name, rest) := Text.splitLine contents
        if name = [] ∨ (Text.readToken (rest.getD [])).isSome then
          .ret (.error (.corruption "invalid CURRENT file"))
        else if 47 ∈ name ∨ 92 ∈ name then
          .ret (.error (.corruption "CURRENT must reference a local MANIFEST file"))
        else if dir.exists (FileName.ofBytes name) then withPath (FileName.ofBytes name)
        else .ret (.error (.ioError "CURRENT references missing MANIFEST"))
    else
      attempt (.probe .manifest) (.ret (.error (.ioError "failed to open MANIFEST"))) <|
      .look fun dir =>
        match dir.read .manifest with
        | none => .ret (.error (.ioError "failed to open MANIFEST"))
        | some cells =>
          if (bytesOf cells).take 7 ≠ ascii "record " then
            .ret (.error (.corruption "MANIFEST is not a record edit log"))
          else withPath .manifest

end Manifest

/-! ## Contents read back -/

@[simp] theorem bytesOf_toCells (bs : Bytes) : bytesOf (toCells bs) = bs := by
  induction bs with
  | nil => rfl
  | cons b bs ih =>
    rw [toCells, List.map_cons, bytesOf, List.filterMap_cons]
    exact congrArg (b :: ·) ih

@[simp] theorem toCells_nil : toCells [] = [] := rfl

@[simp] theorem toCells_append (xs ys : Bytes) : toCells (xs ++ ys) = toCells xs ++ toCells ys :=
  List.map_append

@[simp] theorem toCells_length (xs : Bytes) : (toCells xs).length = xs.length := List.length_map _

theorem toCells_take (xs : Bytes) (n : Nat) : (toCells xs).take n = toCells (xs.take n) := by
  simp [toCells]

theorem toCells_prefix {xs ys : Bytes} : toCells xs <+: toCells ys ↔ xs <+: ys := by
  constructor
  · rintro ⟨zs, hz⟩
    refine ⟨bytesOf zs, ?_⟩
    have h := congrArg bytesOf hz
    rw [bytesOf_toCells] at h
    rw [← h, bytesOf, bytesOf, List.filterMap_append]
    congr 1
    exact (bytesOf_toCells xs).symm
  · rintro ⟨zs, rfl⟩
    exact ⟨toCells zs, (toCells_append xs zs).symm⟩

theorem prefix_toCells {cells : List Cell} {bs : Bytes} (h : cells <+: toCells bs) :
    ∃ xs, cells = toCells xs ∧ xs <+: bs := by
  refine ⟨bs.take cells.length, ?_, List.take_prefix _ _⟩
  rw [← toCells_take]
  exact List.prefix_iff_eq_take.mp h

end KvMem
