import KvMem.Foundation.RecordLog
import KvMem.Storage.Format
import KvMem.Storage.Util

/-! # The text of the version edit log

`MANIFEST` is a log of text records. Each holds the scalar fields of one version
and the difference of its table set to the version saved before. Reading the log
replays the differences; a record that is not complete ends it.
-/

namespace KvMem

open RecordLog

structure SSTableMeta where
  fileNumber : Nat
  filePath : FileName
  level : Nat
  smallestKey : Bytes
  largestKey : Bytes
  fileSize : Nat
  deriving DecidableEq, Repr

structure VersionEdit where
  nextFileNumber : Nat := 1
  walFileNumber : Nat := 1
  lastSequence : Nat := 0
  sstables : List SSTableMeta := []
  deriving DecidableEq, Repr

namespace Manifest

/-! ## Writing -/

/-- Insert into the number-ordered map, replacing an entry of the same number. -/
def insertFile (file : SSTableMeta) : List SSTableMeta → List SSTableMeta
  | [] => [file]
  | f :: fs =>
    if file.fileNumber < f.fileNumber then file :: f :: fs
    else if file.fileNumber = f.fileNumber then file :: fs
    else f :: insertFile file fs

def fileMap (files : List SSTableMeta) : List SSTableMeta :=
  files.foldl (fun m f => insertFile f m) []

def hasNumber (files : List SSTableMeta) (n : Nat) : Bool :=
  files.any fun f => f.fileNumber = n

def field (tag : String) (value : Nat) : Bytes := ascii tag ++ 32 :: Text.decimal value

def addLine (file : SSTableMeta) : Bytes :=
  ascii "add_file" ++ 32 :: (Text.decimal file.fileNumber ++ 32 :: (file.filePath.bytes ++
    32 :: (Text.decimal file.level ++ 32 :: (Text.quoted file.smallestKey ++
      32 :: (Text.quoted file.largestKey ++ 32 :: Text.decimal file.fileSize)))))

def deletedFiles (persisted next : VersionEdit) : List SSTableMeta :=
  (fileMap persisted.sstables).filter fun f => !hasNumber (fileMap next.sstables) f.fileNumber

def addedFiles (persisted next : VersionEdit) : List SSTableMeta :=
  (fileMap next.sstables).filter fun f => !hasNumber (fileMap persisted.sstables) f.fileNumber

def editLines (persisted next : VersionEdit) : List Bytes :=
  [field "version_edit" 1, field "next_file_number" next.nextFileNumber,
    field "wal_file_number" next.walFileNumber, field "last_sequence" next.lastSequence] ++
  ((deletedFiles persisted next).map (fun f => field "delete_file" f.fileNumber) ++
    (addedFiles persisted next).map addLine)

def buildEditPayload (persisted next : VersionEdit) : Bytes :=
  (editLines persisted next).flatMap fun line => line ++ [10]

/-- The bytes one `PersistEditRecord` appends. -/
def encodeRecord (payload : Bytes) : Bytes :=
  ascii "record" ++ 32 :: (Text.decimal payload.length ++ 32 :: (Text.decimal (crc32 payload) ++
    10 :: payload))

/-! ## Reading -/

structure ParseState where
  edit : VersionEdit
  sawVersion : Bool := false
  sawNext : Bool := false
  sawWal : Bool := false
  sawSequence : Bool := false
  deriving DecidableEq

def ParseState.setTables (s : ParseState) (files : List SSTableMeta) : ParseState :=
  { s with edit := { s.edit with sstables := files } }

def eraseNumber (n : Nat) (files : List SSTableMeta) : List SSTableMeta :=
  files.filter fun f => f.fileNumber ≠ n

def finishLine (rest : Bytes) (s : ParseState) : Except Status ParseState :=
  if Text.skipSpace rest = [] then .ok s else .error (.corruption "trailing MANIFEST edit data")

def parseAddFile (rest : Bytes) (s : ParseState) : Except Status ParseState :=
  match Text.readUnsigned maxUInt64 rest with
  | none => .error (.corruption "invalid MANIFEST add_file entry")
  | some (number, rest) =>
    match Text.readToken rest with
    | none => .error (.corruption "invalid MANIFEST add_file entry")
    | some (name, rest) =>
      if 47 ∈ name ∨ 92 ∈ name then
        .error (.corruption "MANIFEST SSTable must have a local file name")
      else
        match Text.extractInt (2 ^ 31 - 1) rest with
        | none => .error (.corruption "invalid MANIFEST file metadata")
        | some (level, rest) =>
          match Text.readQuoted rest with
          | none => .error (.corruption "invalid MANIFEST file metadata")
          | some (smallest, rest) =>
            match Text.readQuoted rest with
            | none => .error (.corruption "invalid MANIFEST file metadata")
            | some (largest, rest) =>
              match Text.readUnsigned maxUInt64 rest with
              | none => .error (.corruption "invalid MANIFEST file metadata")
              | some (size, rest) =>
                if level < 0 ∨ level > 2 ∨ (smallest ≠ [] ∧ largest ≠ [] ∧ largest < smallest) then
                  .error (.corruption "invalid MANIFEST level or key range")
                else if parseSSTableFileName name ≠ some number then
                  .error (.corruption "invalid MANIFEST add_file name")
                else
                  let file : SSTableMeta :=
                    ⟨number, FileName.ofBytes name, level.toNat, smallest, largest, size⟩
                  finishLine rest (s.setTables (eraseNumber number s.edit.sstables ++ [file]))

def parseEditLine (s : ParseState) (line : Bytes) : Except Status ParseState :=
  if line = [] then .ok s
  else
    let (tag, rest) := (Text.readToken line).getD ([], [])
    if tag = ascii "version_edit" then
      match Text.extractInt (2 ^ 31 - 1) rest with
      | none => .error (.corruption "invalid MANIFEST edit version")
      | some (version, rest) =>
        if version ≠ 1 then .error (.corruption "invalid MANIFEST edit version")
        else finishLine rest { s with sawVersion := true }
    else if tag = ascii "next_file_number" then
      match Text.readUnsigned maxUInt64 rest with
      | none => .error (.corruption "invalid MANIFEST edit next_file_number")
      | some (v, rest) =>
        finishLine rest { s with edit := { s.edit with nextFileNumber := v }, sawNext := true }
    else if tag = ascii "wal_file_number" then
      match Text.readUnsigned maxUInt64 rest with
      | none => .error (.corruption "invalid MANIFEST edit wal_file_number")
      | some (v, rest) =>
        finishLine rest { s with edit := { s.edit with walFileNumber := v }, sawWal := true }
    else if tag = ascii "last_sequence" then
      match Text.readUnsigned maxUInt64 rest with
      | none => .error (.corruption "invalid MANIFEST edit last_sequence")
      | some (v, rest) =>
        finishLine rest { s with edit := { s.edit with lastSequence := v }, sawSequence := true }
    else if tag = ascii "delete_file" then
      match Text.readUnsigned maxUInt64 rest with
      | none => .error (.corruption "invalid MANIFEST delete_file entry")
      | some (v, rest) =>
        finishLine rest (s.setTables (eraseNumber v s.edit.sstables))
    else if tag = ascii "add_file" then parseAddFile rest s
    else .error (.corruption ("unknown MANIFEST edit tag: " ++ text tag))

def sortByNumber (files : List SSTableMeta) : List SSTableMeta :=
  files.insertionSort fun a b => a.fileNumber ≤ b.fileNumber

def parseEditPayload (edit : VersionEdit) (payload : Bytes) : Except Status VersionEdit :=
  match replay parseEditLine (Text.lines payload) { edit := edit } with
  | .error e => .error e
  | .ok s =>
    if ¬ s.sawVersion ∨ ¬ s.sawNext ∨ ¬ s.sawWal ∨ ¬ s.sawSequence ∨
        s.edit.nextFileNumber = 0 ∨ s.edit.walFileNumber = 0 then
      .error (.corruption "MANIFEST edit missing required fields or invalid file numbers")
    else .ok { s.edit with sstables := sortByNumber s.edit.sstables }

/-- One turn of the loop of `LoadEditLog`, up to the checksum. -/
def readRecord (bytes : Bytes) : Front Byte Bytes Status :=
  if bytes = [] then .eof
  else
    match Text.splitLine bytes with
    | (_, none) => .torn
    | (header, some body) =>
      if header = [] then .bad (.corruption "empty MANIFEST edit header")
      else
        match Text.readToken header with
        | none => .bad (.corruption "invalid MANIFEST edit header")
        | some (tag, rest) =>
          match Text.extractUnsigned maxUInt64 rest with
          | none => .bad (.corruption "invalid MANIFEST edit header")
          | some (payloadSize, rest) =>
            match Text.extractUnsigned maxUInt32 rest with
            | none => .bad (.corruption "invalid MANIFEST edit header")
            | some (expectedChecksum, rest) =>
              if tag ≠ ascii "record" then .bad (.corruption "invalid MANIFEST edit header")
              else if (Text.readToken rest).isSome then
                .bad (.corruption "trailing MANIFEST edit header data")
              else if payloadSize > body.length then .torn
              else
                let payload := body.take payloadSize
                if crc32 payload ≠ expectedChecksum then
                  .bad (.corruption "MANIFEST edit checksum mismatch")
                else .record payload (body.drop payloadSize)

def replayRecord (s : VersionEdit × Bool) (payload : Bytes) : Except Status (VersionEdit × Bool) :=
  match parseEditPayload s.1 payload with
  | .error e => .error e
  | .ok edit => .ok (edit, true)

/-- The record loop of `LoadEditLog`; the second component is the torn tail. -/
def replayLog (contents : Bytes) : Except Status (VersionEdit × Bytes) :=
  match scan readRecord replayRecord (contents.length + 1) contents ({}, false) with
  | .error e => .error e
  | .ok ((edit, saw), tail) =>
    if saw then .ok (edit, tail) else .error (.corruption "MANIFEST edit log is empty")

/-! ## Records read back -/

def FitsHeader (payload : Bytes) : Prop := payload.length ≤ maxUInt64

def headerLine (payload : Bytes) : Bytes :=
  ascii "record" ++ 32 :: (Text.decimal payload.length ++ 32 :: Text.decimal (crc32 payload))

theorem encodeRecord_eq (payload : Bytes) :
    encodeRecord payload = headerLine payload ++ 10 :: payload := by
  simp [encodeRecord, headerLine]

theorem newline_not_mem_decimal (n : Nat) : 10 ∉ Text.decimal n := by
  intro h
  have := (Text.isDigit_iff 10).mp (Text.decimal_digits n 10 h)
  exact absurd this.1 (by decide)

theorem newline_not_mem_headerLine (payload : Bytes) : 10 ∉ headerLine payload := by
  intro h
  simp only [headerLine, List.mem_append, List.mem_cons] at h
  rcases h with h | h | h | h | h
  · exact absurd h (by decide)
  · exact absurd h (by decide)
  · exact newline_not_mem_decimal _ h
  · exact absurd h (by decide)
  · exact newline_not_mem_decimal _ h

theorem headerLine_ne_nil (payload : Bytes) : headerLine payload ≠ [] := by
  intro h
  have := congrArg List.length h
  simp [headerLine, ascii] at this

variable {payload xs : Bytes} {file f : SSTableMeta} {files : List SSTableMeta} {tag : String}
  {v n : Nat} {b : Byte}

theorem readRecord_headerLine (h : FitsHeader payload) (body : Bytes) :
    readRecord (headerLine payload ++ 10 :: body) =
      if payload.length > body.length then .torn
      else if crc32 (body.take payload.length) ≠ crc32 payload then
        .bad (.corruption "MANIFEST edit checksum mismatch")
      else .record (body.take payload.length) (body.drop payload.length) := by
  have hne : headerLine payload ++ 10 :: body ≠ [] := by simp
  have htoken : Text.readToken (headerLine payload) = some (ascii "record",
      32 :: (Text.decimal payload.length ++ 32 :: Text.decimal (crc32 payload))) :=
    Text.readToken_append (by decide +kernel) (by decide +kernel) (Text.delimited_cons _ (by decide))
  have hsize : Text.extractUnsigned maxUInt64
      (32 :: (Text.decimal payload.length ++ 32 :: Text.decimal (crc32 payload))) =
      some (payload.length, 32 :: Text.decimal (crc32 payload)) :=
    Text.extractUnsigned_decimal h (Text.delimited_cons _ (by decide))
  have hcrc : Text.extractUnsigned maxUInt32 (32 :: Text.decimal (crc32 payload)) =
      some (crc32 payload, []) := by
    rw [← List.append_nil (Text.decimal (crc32 payload))]
    exact Text.extractUnsigned_decimal (crc32_le payload) Text.delimited_nil
  rw [readRecord, if_neg hne, Text.splitLine_line _ (newline_not_mem_headerLine payload)]
  simp only [headerLine_ne_nil, if_false, htoken, hsize, hcrc, ne_eq, not_true_eq_false]
  rfl

theorem readRecord_record (h : FitsHeader payload) (rest : Bytes) :
    readRecord (encodeRecord payload ++ rest) = .record payload rest := by
  have hle : ¬ payload.length > (payload ++ rest).length := by
    simp only [List.length_append]
    omega
  rw [encodeRecord_eq, List.append_assoc, List.cons_append, readRecord_headerLine h, if_neg hle,
    List.take_left' rfl, List.drop_left' rfl, if_neg (by simp)]

theorem readRecord_torn (h : FitsHeader payload) (hp : xs <+: encodeRecord payload) (hne : xs ≠ [])
    (hx : xs ≠ encodeRecord payload) : readRecord xs = .torn := by
  rw [encodeRecord_eq] at hp hx
  by_cases hlen : xs.length ≤ (headerLine payload).length
  · -- the header line itself is cut
    have hpre : xs <+: headerLine payload :=
      List.prefix_of_prefix_length_le hp (List.prefix_append _ _) hlen
    have hnl : 10 ∉ xs := fun hm => newline_not_mem_headerLine payload (hpre.subset hm)
    rw [readRecord, if_neg hne, Text.splitLine_none hnl]
  · obtain ⟨ys, rfl⟩ : headerLine payload <+: xs :=
      List.prefix_of_prefix_length_le (List.prefix_append _ _) hp (by omega)
    have hys : ys <+: 10 :: payload := (List.prefix_append_right_inj _).mp hp
    cases ys with
    | nil => simp at hlen
    | cons y body =>
      obtain ⟨rfl, hbody⟩ := List.cons_prefix_cons.mp hys
      have hlt : payload.length > body.length := by
        have hle := hbody.length_le
        have hneq : body.length ≠ payload.length := fun he => hx (by
          rw [hbody.eq_of_length he])
        omega
      rw [readRecord_headerLine h, if_pos hlt]

theorem format : Format encodeRecord readRecord FitsHeader where
  eof := by simp [readRecord]
  nonempty := by
    intro payload _ h
    rw [encodeRecord_eq] at h
    simp at h
  record := fun payload rest h => readRecord_record h rest
  torn := fun payload xs h hp hne hx => readRecord_torn h hp hne hx

/-! ## Edits read back -/

structure WfMeta (file : SSTableMeta) : Prop where
  number_pos : file.fileNumber ≠ 0
  number_le : file.fileNumber ≤ maxUInt64
  path : file.filePath = .sst file.fileNumber
  level_le : file.level ≤ 2
  size_le : file.fileSize ≤ maxUInt64
  smallest : 10 ∉ file.smallestKey
  largest : 10 ∉ file.largestKey
  ordered : file.smallestKey ≠ [] → file.largestKey ≠ [] → file.smallestKey ≤ file.largestKey

def Ordered (files : List SSTableMeta) : Prop :=
  files.Pairwise fun a b => a.fileNumber < b.fileNumber

structure WfEdit (e : VersionEdit) : Prop where
  next_pos : e.nextFileNumber ≠ 0
  next_le : e.nextFileNumber ≤ maxUInt64
  wal_pos : e.walFileNumber ≠ 0
  wal_le : e.walFileNumber ≤ maxUInt64
  sequence_le : e.lastSequence ≤ maxUInt64
  ordered : Ordered e.sstables
  files : ∀ f ∈ e.sstables, WfMeta f

theorem insertFile_of_lt (h : ∀ f ∈ files, f.fileNumber < file.fileNumber) :
    insertFile file files = files ++ [file] := by
  induction files with
  | nil => rfl
  | cons f fs ih =>
    have hf := h f List.mem_cons_self
    have hlt : ¬ file.fileNumber < f.fileNumber := by omega
    have hne : file.fileNumber ≠ f.fileNumber := by omega
    simp [insertFile, hlt, hne, ih fun g hg => h g (List.mem_cons_of_mem f hg)]

theorem fileMap_of_ordered (h : Ordered files) : fileMap files = files := by
  induction files using List.reverseRecOn with
  | nil => rfl
  | append_singleton fs f ih =>
    have hsplit := List.pairwise_append.mp h
    have hfs : fileMap fs = fs := ih hsplit.1
    unfold fileMap at hfs ⊢
    rw [List.foldl_append, hfs]
    exact insertFile_of_lt fun g hg => hsplit.2.2 g hg f List.mem_cons_self

/-- What replaying a record built from `persisted` and `next` makes of a version. -/
def applyEdit (persisted next replayed : VersionEdit) : VersionEdit :=
  let kept := (deletedFiles persisted next).foldl
    (fun files f => eraseNumber f.fileNumber files) replayed.sstables
  { next with sstables := sortByNumber ((addedFiles persisted next).foldl
      (fun files f => eraseNumber f.fileNumber files ++ [f]) kept) }

def editTags : List String :=
  ["version_edit", "next_file_number", "wal_file_number", "last_sequence", "delete_file", "add_file"]

theorem tag_word : ∀ tag ∈ editTags,
    ascii tag ≠ [] ∧ ∀ b ∈ ascii tag, Text.isSpace b = false := by
  decide +kernel

theorem tag_ne : ∀ tag ∈ editTags, ∀ other ∈ editTags, tag ≠ other → ascii tag ≠ ascii other := by
  simp [editTags, ascii]

theorem readToken_field (htag : tag ∈ editTags) (value : Nat) :
    Text.readToken (field tag value) = some (ascii tag, 32 :: Text.decimal value) :=
  Text.readToken_append (tag_word tag htag).1 (tag_word tag htag).2
    (Text.delimited_cons _ (by decide))

theorem field_ne_nil (tag : String) (value : Nat) : field tag value ≠ [] := by
  simp [field]

theorem readUnsigned_field {value : Nat} (h : value ≤ maxUInt64) :
    Text.readUnsigned maxUInt64 (32 :: Text.decimal value) = some (value, []) := by
  rw [Text.readUnsigned_blank]
  rw [← List.append_nil (Text.decimal value)]
  exact Text.readUnsigned_decimal h Text.delimited_nil

theorem parseEditLine_version (s : ParseState) :
    parseEditLine s (field "version_edit" 1) = .ok { s with sawVersion := true } := by
  have htag : "version_edit" ∈ editTags := by simp [editTags]
  have hread : Text.extractInt (2 ^ 31 - 1) (32 :: Text.decimal 1) = some (1, []) := by
    rw [← List.append_nil (Text.decimal 1)]
    exact Text.extractInt_decimal (by decide) Text.delimited_nil
  simp only [parseEditLine, field_ne_nil, if_false, readToken_field htag 1,
    Option.getD_some, if_true, hread, ne_eq, not_true_eq_false]
  rfl

theorem parseEditLine_next (s : ParseState) (h : v ≤ maxUInt64) :
    parseEditLine s (field "next_file_number" v) =
      .ok { s with edit := { s.edit with nextFileNumber := v }, sawNext := true } := by
  have htag : "next_file_number" ∈ editTags := by simp [editTags]
  have h1 := tag_ne _ htag "version_edit" (by simp [editTags]) (by simp)
  simp only [parseEditLine, field_ne_nil, if_false, readToken_field htag v,
    Option.getD_some, h1, if_true, readUnsigned_field h]
  rfl

theorem parseEditLine_wal (s : ParseState) (h : v ≤ maxUInt64) :
    parseEditLine s (field "wal_file_number" v) =
      .ok { s with edit := { s.edit with walFileNumber := v }, sawWal := true } := by
  have htag : "wal_file_number" ∈ editTags := by simp [editTags]
  have h1 := tag_ne _ htag "version_edit" (by simp [editTags]) (by simp)
  have h2 := tag_ne _ htag "next_file_number" (by simp [editTags]) (by simp)
  simp only [parseEditLine, field_ne_nil, if_false, readToken_field htag v,
    Option.getD_some, h1, h2, if_true, readUnsigned_field h]
  rfl

theorem parseEditLine_sequence (s : ParseState) (h : v ≤ maxUInt64) :
    parseEditLine s (field "last_sequence" v) =
      .ok { s with edit := { s.edit with lastSequence := v }, sawSequence := true } := by
  have htag : "last_sequence" ∈ editTags := by simp [editTags]
  have h1 := tag_ne _ htag "version_edit" (by simp [editTags]) (by simp)
  have h2 := tag_ne _ htag "next_file_number" (by simp [editTags]) (by simp)
  have h3 := tag_ne _ htag "wal_file_number" (by simp [editTags]) (by simp)
  simp only [parseEditLine, field_ne_nil, if_false, readToken_field htag v,
    Option.getD_some, h1, h2, h3, if_true, readUnsigned_field h]
  rfl

theorem parseEditLine_delete (s : ParseState) (h : v ≤ maxUInt64) :
    parseEditLine s (field "delete_file" v) =
      .ok (s.setTables (eraseNumber v s.edit.sstables)) := by
  have htag : "delete_file" ∈ editTags := by simp [editTags]
  have h1 := tag_ne _ htag "version_edit" (by simp [editTags]) (by simp)
  have h2 := tag_ne _ htag "next_file_number" (by simp [editTags]) (by simp)
  have h3 := tag_ne _ htag "wal_file_number" (by simp [editTags]) (by simp)
  have h4 := tag_ne _ htag "last_sequence" (by simp [editTags]) (by simp)
  simp only [parseEditLine, field_ne_nil, if_false, readToken_field htag v,
    Option.getD_some, h1, h2, h3, h4, if_true, readUnsigned_field h]
  rfl

theorem sstableFileName_bytes (hb : b ∈ sstableFileName n) :
    b ∈ ascii "sst_" ∨ Text.isDigit b = true ∨ b ∈ ascii ".data" := by
  simp only [sstableFileName, numberedName, List.mem_append] at hb
  rcases hb with hb | hb | hb
  · exact Or.inl hb
  · exact Or.inr (Or.inl (paddedDecimal_digits n b hb))
  · exact Or.inr (Or.inr hb)

theorem not_mem_sstableFileName (h1 : b ∉ ascii "sst_") (h2 : Text.isDigit b = false)
    (h3 : b ∉ ascii ".data") : b ∉ sstableFileName n := by
  intro hb
  rcases sstableFileName_bytes hb with h | h | h
  · exact h1 h
  · rw [h2] at h
    cases h
  · exact h3 h

theorem isSpace_sstableFileName (n : Nat) : ∀ b ∈ sstableFileName n, Text.isSpace b = false := by
  intro b hb
  rcases sstableFileName_bytes hb with h | h | h
  · have hall : ∀ c ∈ ascii "sst_", Text.isSpace c = false := by decide +kernel
    exact hall b h
  · exact Text.isSpace_of_isDigit h
  · have hall : ∀ c ∈ ascii ".data", Text.isSpace c = false := by decide +kernel
    exact hall b h

theorem parseAddFile_addLine (s : ParseState) (h : WfMeta file) :
    parseAddFile (32 :: (Text.decimal file.fileNumber ++ 32 :: (file.filePath.bytes ++
      32 :: (Text.decimal file.level ++ 32 :: (Text.quoted file.smallestKey ++
        32 :: (Text.quoted file.largestKey ++ 32 :: Text.decimal file.fileSize)))))) s =
      .ok (s.setTables (eraseNumber file.fileNumber s.edit.sstables ++ [file])) := by
  have hblank : Text.isSpace 32 = true := by decide
  have hpath : file.filePath.bytes = sstableFileName file.fileNumber := by
    rw [h.path]
    rfl
  have hne : sstableFileName file.fileNumber ≠ [] := by
    simp [sstableFileName, numberedName, ascii]
  have hlocal : ¬ (47 ∈ sstableFileName file.fileNumber ∨ 92 ∈ sstableFileName file.fileNumber) := by
    rintro (hm | hm)
    · exact not_mem_sstableFileName (by decide) (by decide) (by decide) hm
    · exact not_mem_sstableFileName (by decide) (by decide) (by decide) hm
  have hlevel : file.level ≤ 2 ^ 31 - 1 := h.level_le.trans (by decide)
  have hbad : ¬ ((file.level : Int) < 0 ∨ (file.level : Int) > 2 ∨ (file.smallestKey ≠ [] ∧
      file.largestKey ≠ [] ∧ file.largestKey < file.smallestKey)) := by
    have hl := h.level_le
    rintro (hlt | hgt | ⟨hs, hb, hlt⟩)
    · omega
    · omega
    · exact absurd hlt (not_lt_of_ge (h.ordered hs hb))
  have hparse : parseSSTableFileName (sstableFileName file.fileNumber) = some file.fileNumber :=
    parseNumberedName_numberedName _ _ h.number_pos h.number_le
  rw [parseAddFile, Text.readUnsigned_blank,
    Text.readUnsigned_decimal h.number_le (Text.delimited_cons _ hblank)]
  simp only
  rw [hpath, Text.readToken_blank, Text.readToken_append hne (isSpace_sstableFileName _)
    (Text.delimited_cons _ hblank)]
  simp only
  rw [if_neg hlocal, Text.extractInt_decimal hlevel (Text.delimited_cons _ hblank)]
  simp only [Text.readQuoted_quoted, readUnsigned_field h.size_le]
  rw [if_neg hbad, if_neg (by simp [hparse])]
  have hfile : (⟨file.fileNumber, FileName.ofBytes (sstableFileName file.fileNumber),
      (file.level : Int).toNat, file.smallestKey, file.largestKey, file.fileSize⟩ : SSTableMeta) =
      file := by
    rw [ofBytes_sstableFileName h.number_pos h.number_le, Int.toNat_natCast, ← h.path]
  rw [hfile]
  rfl

theorem parseEditLine_add (s : ParseState) (h : WfMeta file) :
    parseEditLine s (addLine file) =
      .ok (s.setTables (eraseNumber file.fileNumber s.edit.sstables ++ [file])) := by
  have hne : addLine file ≠ [] := by simp [addLine]
  have htag : "add_file" ∈ editTags := by simp [editTags]
  have h1 := tag_ne _ htag "version_edit" (by simp [editTags]) (by simp)
  have h2 := tag_ne _ htag "next_file_number" (by simp [editTags]) (by simp)
  have h3 := tag_ne _ htag "wal_file_number" (by simp [editTags]) (by simp)
  have h4 := tag_ne _ htag "last_sequence" (by simp [editTags]) (by simp)
  have h5 := tag_ne _ htag "delete_file" (by simp [editTags]) (by simp)
  have htoken : Text.readToken (addLine file) = some (ascii "add_file",
      32 :: (Text.decimal file.fileNumber ++ 32 :: (file.filePath.bytes ++
        32 :: (Text.decimal file.level ++ 32 :: (Text.quoted file.smallestKey ++
          32 :: (Text.quoted file.largestKey ++ 32 :: Text.decimal file.fileSize)))))) :=
    Text.readToken_append (tag_word _ htag).1 (tag_word _ htag).2 (Text.delimited_cons _ (by decide))
  rw [parseEditLine, if_neg hne, htoken]
  simp only [Option.getD_some, h1, h2, h3, h4, h5, if_false, if_true]
  exact parseAddFile_addLine s h

theorem replay_deletes (s : ParseState) (files : List SSTableMeta)
    (h : ∀ f ∈ files, f.fileNumber ≤ maxUInt64) :
    replay parseEditLine (files.map fun f => field "delete_file" f.fileNumber) s =
      .ok (s.setTables (files.foldl (fun fs f => eraseNumber f.fileNumber fs) s.edit.sstables)) := by
  induction files generalizing s with
  | nil => rfl
  | cons f fs ih =>
    simp only [List.map_cons, replay, parseEditLine_delete s (h f List.mem_cons_self)]
    rw [ih _ fun g hg => h g (List.mem_cons_of_mem f hg)]
    rfl

theorem replay_adds (s : ParseState) (files : List SSTableMeta) (h : ∀ f ∈ files, WfMeta f) :
    replay parseEditLine (files.map addLine) s =
      .ok (s.setTables
        (files.foldl (fun fs f => eraseNumber f.fileNumber fs ++ [f]) s.edit.sstables)) := by
  induction files generalizing s with
  | nil => rfl
  | cons f fs ih =>
    simp only [List.map_cons, replay, parseEditLine_add s (h f List.mem_cons_self)]
    rw [ih _ fun g hg => h g (List.mem_cons_of_mem f hg)]
    rfl

theorem newline_not_mem_field (htag : tag ∈ editTags) (v : Nat) : 10 ∉ field tag v := by
  intro hm
  simp only [field, List.mem_append, List.mem_cons] at hm
  rcases hm with hm | hm | hm
  · exact absurd ((tag_word tag htag).2 10 hm) (by decide)
  · exact absurd hm (by decide)
  · exact newline_not_mem_decimal v hm

theorem newline_not_mem_quoted (h : 10 ∉ xs) : 10 ∉ Text.quoted xs := by
  intro hm
  simp only [Text.quoted, List.mem_cons, List.mem_append, List.mem_flatMap] at hm
  rcases hm with hm | ⟨b, hb, hm⟩ | hm
  · exact absurd hm (by decide)
  · split at hm
    · simp only [List.mem_cons] at hm
      rcases hm with hm | hm | hm
      · exact absurd hm (by decide)
      · exact h (hm ▸ hb)
      · cases hm
    · rw [List.mem_singleton] at hm
      exact h (hm ▸ hb)
  · exact absurd hm (by decide)

theorem newline_not_mem_addLine (h : WfMeta file) : 10 ∉ addLine file := by
  intro hm
  simp only [addLine, List.mem_append, List.mem_cons] at hm
  rcases hm with hm | hm | hm | hm | hm | hm | hm | hm | hm | hm | hm | hm | hm
  · exact absurd hm (by decide)
  · exact absurd hm (by decide)
  · exact newline_not_mem_decimal _ hm
  · exact absurd hm (by decide)
  · rw [h.path] at hm
    exact not_mem_sstableFileName (by decide) (by decide) (by decide) hm
  · exact absurd hm (by decide)
  · exact newline_not_mem_decimal _ hm
  · exact absurd hm (by decide)
  · exact newline_not_mem_quoted h.smallest hm
  · exact absurd hm (by decide)
  · exact newline_not_mem_quoted h.largest hm
  · exact absurd hm (by decide)
  · exact newline_not_mem_decimal _ hm

theorem lines_flatMap (ls : List Bytes) (h : ∀ l ∈ ls, 10 ∉ l) :
    Text.lines (ls.flatMap fun line => line ++ [10]) = ls := by
  induction ls with
  | nil => rfl
  | cons l ls ih =>
    rw [List.flatMap_cons, List.append_assoc, List.singleton_append,
      Text.lines_line _ (h l List.mem_cons_self),
      ih fun l' hl' => h l' (List.mem_cons_of_mem l hl')]

theorem mem_deletedFiles {persisted next : VersionEdit} (hp : Ordered persisted.sstables)
    (hf : f ∈ deletedFiles persisted next) : f ∈ persisted.sstables := by
  rw [deletedFiles, fileMap_of_ordered hp] at hf
  exact List.mem_of_mem_filter hf

theorem mem_addedFiles {persisted next : VersionEdit} (hn : Ordered next.sstables)
    (hf : f ∈ addedFiles persisted next) : f ∈ next.sstables := by
  rw [addedFiles, fileMap_of_ordered hn] at hf
  exact List.mem_of_mem_filter hf

theorem newline_not_mem_editLines {persisted next : VersionEdit} (hn : WfEdit next) :
    ∀ l ∈ editLines persisted next, 10 ∉ l := by
  intro l hl
  simp only [editLines, List.mem_append, List.mem_cons, List.mem_map, List.not_mem_nil,
    or_false] at hl
  rcases hl with (rfl | rfl | rfl | rfl) | ⟨f, _, rfl⟩ | ⟨f, hf, rfl⟩
  · exact newline_not_mem_field (by simp [editTags]) _
  · exact newline_not_mem_field (by simp [editTags]) _
  · exact newline_not_mem_field (by simp [editTags]) _
  · exact newline_not_mem_field (by simp [editTags]) _
  · exact newline_not_mem_field (by simp [editTags]) _
  · exact newline_not_mem_addLine (hn.files f (mem_addedFiles hn.ordered hf))

/-- Replaying the record of a save applies its difference, to whatever version
the log replayed to before. -/
theorem parseEditPayload_build {persisted next : VersionEdit} (hp : WfEdit persisted)
    (hn : WfEdit next) (replayed : VersionEdit) :
    parseEditPayload replayed (buildEditPayload persisted next) =
      .ok (applyEdit persisted next replayed) := by
  have hdel : ∀ f ∈ deletedFiles persisted next, f.fileNumber ≤ maxUInt64 :=
    fun f hf => (hp.files f (mem_deletedFiles hp.ordered hf)).number_le
  have hadd : ∀ f ∈ addedFiles persisted next, WfMeta f :=
    fun f hf => hn.files f (mem_addedFiles hn.ordered hf)
  have hlines : Text.lines (buildEditPayload persisted next) = editLines persisted next :=
    lines_flatMap _ (newline_not_mem_editLines hn)
  have hreplay : replay parseEditLine (editLines persisted next) { edit := replayed } =
      .ok (ParseState.setTables ⟨next, true, true, true, true⟩
        ((addedFiles persisted next).foldl (fun fs f => eraseNumber f.fileNumber fs ++ [f])
          ((deletedFiles persisted next).foldl
            (fun fs f => eraseNumber f.fileNumber fs) replayed.sstables))) := by
    simp only [editLines, List.cons_append, List.nil_append, replay, parseEditLine_version,
      parseEditLine_next _ hn.next_le, parseEditLine_wal _ hn.wal_le,
      parseEditLine_sequence _ hn.sequence_le]
    rw [replay_append, replay_deletes _ _ hdel]
    simp only
    rw [replay_adds _ _ hadd]
    rfl
  rw [parseEditPayload, hlines, hreplay]
  simp [ParseState.setTables, hn.next_pos, hn.wal_pos, applyEdit]

/-! ## The difference takes the old tables to the new ones -/

theorem hasNumber_iff : hasNumber files n = true ↔ ∃ f ∈ files, f.fileNumber = n := by
  simp [hasNumber]

theorem foldl_erase_eq (gone files : List SSTableMeta) :
    gone.foldl (fun fs f => eraseNumber f.fileNumber fs) files =
      files.filter fun f => !hasNumber gone f.fileNumber := by
  induction gone generalizing files with
  | nil => simp [hasNumber]
  | cons g gs ih =>
    rw [List.foldl_cons, ih, eraseNumber, List.filter_filter]
    apply List.filter_congr
    intro f _
    by_cases h : f.fileNumber = g.fileNumber
    · simp [hasNumber, h]
    · have h' : ¬ g.fileNumber = f.fileNumber := fun he => h he.symm
      simp [hasNumber, h, h']

theorem foldl_add_eq (added files : List SSTableMeta)
    (hnew : ∀ a ∈ added, ∀ f ∈ files, f.fileNumber ≠ a.fileNumber)
    (hord : added.Pairwise fun a b => a.fileNumber ≠ b.fileNumber) :
    added.foldl (fun fs f => eraseNumber f.fileNumber fs ++ [f]) files = files ++ added := by
  induction added generalizing files with
  | nil => simp
  | cons a as ih =>
    have herase : eraseNumber a.fileNumber files = files := by
      rw [eraseNumber, List.filter_eq_self]
      intro f hf
      simpa using hnew a List.mem_cons_self f hf
    obtain ⟨ha, has⟩ := List.pairwise_cons.mp hord
    rw [List.foldl_cons, herase, ih _ ?_ has, List.append_assoc, List.singleton_append]
    intro b hb f hf
    rcases List.mem_append.mp hf with hf | hf
    · exact hnew b (List.mem_cons_of_mem a hb) f hf
    · rw [List.mem_singleton.mp hf]
      exact ha b hb

theorem ordered_ext {xs ys : List SSTableMeta} (hx : Ordered xs) (hy : Ordered ys)
    (h : ∀ f, f ∈ xs ↔ f ∈ ys) : xs = ys := by
  have hnx : xs.Nodup := hx.imp fun hlt he => by rw [he] at hlt; omega
  have hny : ys.Nodup := hy.imp fun hlt he => by rw [he] at hlt; omega
  have hperm : xs.Perm ys := (List.perm_ext_iff_of_nodup hnx hny).mpr h
  exact hperm.eq_of_pairwise (fun a b _ _ h₁ h₂ => by omega) hx hy

theorem sortByNumber_of_ordered (h : Ordered files) : sortByNumber files = files := by
  apply List.Pairwise.insertionSort_eq
  exact h.imp fun hlt => Nat.le_of_lt hlt

/-- In the order `SetCurrentEdit` gives them. -/
def Sorted (files : List SSTableMeta) : Prop := sortByNumber files = files

theorem sorted_sortByNumber (files : List SSTableMeta) : Sorted (sortByNumber files) :=
  (List.pairwise_insertionSort _ files).insertionSort_eq

theorem sortByNumber_perm (files : List SSTableMeta) : (sortByNumber files).Perm files :=
  List.perm_insertionSort _ files

theorem sortByNumber_ordered (h : files.Pairwise fun a b => a.fileNumber ≠ b.fileNumber) :
    Ordered (sortByNumber files) := by
  have hle : (sortByNumber files).Pairwise fun a b => a.fileNumber ≤ b.fileNumber :=
    List.pairwise_insertionSort _ files
  have hne : (sortByNumber files).Pairwise fun a b => a.fileNumber ≠ b.fileNumber :=
    (List.Perm.pairwise_iff (fun h' => h'.symm) (sortByNumber_perm files)).mpr h
  exact (hle.and hne).imp fun ⟨h₁, h₂⟩ => by omega

theorem eq_of_number (h : Ordered files) {g : SSTableMeta} (hf : f ∈ files) (hg : g ∈ files)
    (he : f.fileNumber = g.fileNumber) : f = g := by
  induction files with
  | nil => cases hf
  | cons x xs ih =>
    obtain ⟨hx, hxs⟩ := List.pairwise_cons.mp h
    rcases List.mem_cons.mp hf with rfl | hf'
    · rcases List.mem_cons.mp hg with rfl | hg'
      · rfl
      · have := hx g hg'
        omega
    · rcases List.mem_cons.mp hg with rfl | hg'
      · have := hx f hf'
        omega
      · exact ih hxs hf' hg'

theorem mem_applyEdit {persisted next replayed : VersionEdit} (hp : Ordered persisted.sstables)
    (hn : Ordered next.sstables)
    (hr : ∀ f ∈ replayed.sstables, ∀ a ∈ next.sstables, f.fileNumber = a.fileNumber →
      hasNumber persisted.sstables a.fileNumber = true) :
    f ∈ (applyEdit persisted next replayed).sstables ↔
      (f ∈ replayed.sstables ∧ ¬ (hasNumber persisted.sstables f.fileNumber = true ∧
        hasNumber next.sstables f.fileNumber = false)) ∨
      (f ∈ next.sstables ∧ hasNumber persisted.sstables f.fileNumber = false) := by
  have hadded : addedFiles persisted next =
      next.sstables.filter fun f => !hasNumber persisted.sstables f.fileNumber := by
    rw [addedFiles, fileMap_of_ordered hp, fileMap_of_ordered hn]
  have hdeleted : deletedFiles persisted next =
      persisted.sstables.filter fun f => !hasNumber next.sstables f.fileNumber := by
    rw [deletedFiles, fileMap_of_ordered hp, fileMap_of_ordered hn]
  have hgone : ∀ n, hasNumber (deletedFiles persisted next) n = true ↔
      (hasNumber persisted.sstables n = true ∧ hasNumber next.sstables n = false) := by
    intro n
    rw [hdeleted, hasNumber_iff, hasNumber_iff]
    constructor
    · rintro ⟨g, hg, rfl⟩
      rw [List.mem_filter] at hg
      exact ⟨⟨g, hg.1, rfl⟩, by simpa using hg.2⟩
    · rintro ⟨⟨g, hg, rfl⟩, hno⟩
      exact ⟨g, List.mem_filter.mpr ⟨hg, by simp [hno]⟩, rfl⟩
  have hord : (addedFiles persisted next).Pairwise fun a b => a.fileNumber ≠ b.fileNumber := by
    rw [hadded]
    exact (hn.imp fun hlt => Nat.ne_of_lt hlt).filter _
  have hnew : ∀ a ∈ addedFiles persisted next,
      ∀ f ∈ replayed.sstables.filter (fun f => !hasNumber (deletedFiles persisted next) f.fileNumber),
        f.fileNumber ≠ a.fileNumber := by
    intro a ha g hg he
    rw [hadded, List.mem_filter] at ha
    have := hr g (List.mem_of_mem_filter hg) a ha.1 he
    simp [this] at ha
  simp only [applyEdit]
  rw [(sortByNumber_perm _).mem_iff, foldl_erase_eq, foldl_add_eq _ _ hnew hord, List.mem_append,
    List.mem_filter, hadded, List.mem_filter]
  constructor
  · rintro (⟨hf, hno⟩ | ⟨hf, hno⟩)
    · left
      refine ⟨hf, fun hg => ?_⟩
      rw [(hgone f.fileNumber).mpr hg] at hno
      cases hno
    · exact Or.inr ⟨hf, by simpa using hno⟩
  · rintro (⟨hf, hno⟩ | ⟨hf, hno⟩)
    · left
      refine ⟨hf, ?_⟩
      cases hb : hasNumber (deletedFiles persisted next) f.fileNumber with
      | false => rfl
      | true => exact absurd ((hgone f.fileNumber).mp hb) hno
    · exact Or.inr ⟨hf, by simp [hno]⟩

/-- The record of a save takes the saved version to the next one. -/
theorem applyEdit_self {persisted next replayed : VersionEdit} (hp : Ordered persisted.sstables)
    (hn : Ordered next.sstables) (hr : replayed.sstables = persisted.sstables)
    (hsame : ∀ f ∈ persisted.sstables, ∀ g ∈ next.sstables, f.fileNumber = g.fileNumber → f = g) :
    applyEdit persisted next replayed = next := by
  have hr' : ∀ f ∈ replayed.sstables, ∀ a ∈ next.sstables, f.fileNumber = a.fileNumber →
      hasNumber persisted.sstables a.fileNumber = true := by
    intro f hf a _ he
    exact hasNumber_iff.mpr ⟨f, hr ▸ hf, he⟩
  have hmem : ∀ f, f ∈ (applyEdit persisted next replayed).sstables ↔ f ∈ next.sstables := by
    intro f
    rw [mem_applyEdit hp hn hr', hr]
    constructor
    · rintro (⟨hf, hno⟩ | ⟨hf, _⟩)
      · have hin : hasNumber next.sstables f.fileNumber = true := by
          by_contra hc
          exact hno ⟨hasNumber_iff.mpr ⟨f, hf, rfl⟩, by simpa using hc⟩
        obtain ⟨g, hg, he⟩ := hasNumber_iff.mp hin
        exact hsame f hf g hg he.symm ▸ hg
      · exact hf
    · intro hf
      cases hb : hasNumber persisted.sstables f.fileNumber with
      | false => exact Or.inr ⟨hf, rfl⟩
      | true =>
        obtain ⟨g, hg, he⟩ := hasNumber_iff.mp hb
        have hgf : g = f := hsame g hg f hf he
        refine Or.inl ⟨hgf ▸ hg, fun hc => ?_⟩
        rw [hasNumber_iff.mpr ⟨f, hf, rfl⟩] at hc
        cases hc.2
  have hord : Ordered (applyEdit persisted next replayed).sstables := by
    apply sortByNumber_ordered
    rw [foldl_erase_eq, foldl_add_eq]
    · rw [List.pairwise_append]
      refine ⟨?_, ?_, ?_⟩
      · rw [hr]
        exact (hp.imp fun hlt => Nat.ne_of_lt hlt).filter _
      · rw [addedFiles, fileMap_of_ordered hn]
        exact (hn.imp fun hlt => Nat.ne_of_lt hlt).filter _
      · intro f hf a ha he
        rw [addedFiles, fileMap_of_ordered hn, fileMap_of_ordered hp, List.mem_filter] at ha
        simp [hr' f (List.mem_of_mem_filter hf) a ha.1 he] at ha
    · intro a ha f hf he
      rw [addedFiles, fileMap_of_ordered hn, fileMap_of_ordered hp, List.mem_filter] at ha
      simp [hr' f (List.mem_of_mem_filter hf) a ha.1 he] at ha
    · rw [addedFiles, fileMap_of_ordered hn]
      exact (hn.imp fun hlt => Nat.ne_of_lt hlt).filter _
  have htables := ordered_ext hord hn hmem
  have hscalars : applyEdit persisted next replayed =
      { next with sstables := (applyEdit persisted next replayed).sstables } := rfl
  rw [hscalars, htables]

/-! ## Replaying a log of saves -/

/-- The payloads that saving `edits` one after the other writes, from the version
saved before. -/
def logPayloads : VersionEdit → List VersionEdit → List Bytes
  | _, [] => []
  | persisted, edit :: edits => buildEditPayload persisted edit :: logPayloads edit edits

/-- A number that stays in the version keeps its metadata. -/
def KeepsMeta (persisted next : VersionEdit) : Prop :=
  ∀ f ∈ persisted.sstables, ∀ g ∈ next.sstables, f.fileNumber = g.fileNumber → f = g

@[simp] theorem logPayloads_length (persisted : VersionEdit) (edits : List VersionEdit) :
    (logPayloads persisted edits).length = edits.length := by
  induction edits generalizing persisted with
  | nil => rfl
  | cons e es ih => simp [logPayloads, ih]

theorem logPayloads_take (persisted : VersionEdit) (edits : List VersionEdit) (i : Nat) :
    (logPayloads persisted edits).take i = logPayloads persisted (edits.take i) := by
  induction edits generalizing persisted i with
  | nil => simp [logPayloads]
  | cons e es ih =>
    cases i with
    | zero => rfl
    | succ i => simp [logPayloads, ih]

theorem wfEdit_empty : WfEdit {} where
  next_pos := by decide
  next_le := by decide
  wal_pos := by decide
  wal_le := by decide
  sequence_le := by decide
  ordered := List.Pairwise.nil
  files := by simp

theorem replayRecord_build {persisted next : VersionEdit} (hp : WfEdit persisted)
    (hn : WfEdit next) (hk : KeepsMeta persisted next) (saw : Bool) :
    replayRecord (persisted, saw) (buildEditPayload persisted next) = .ok (next, true) := by
  rw [replayRecord, parseEditPayload_build hp hn]
  simp only
  rw [applyEdit_self hp.ordered hn.ordered rfl hk]

/-- Replaying the records of a run of saves ends in the version saved last. -/
theorem replay_logPayloads (persisted : VersionEdit) (edits : List VersionEdit) (saw : Bool)
    (hp : WfEdit persisted) (he : ∀ e ∈ edits, WfEdit e)
    (hk : (persisted :: edits).IsChain KeepsMeta) :
    replay replayRecord (logPayloads persisted edits) (persisted, saw) =
      .ok ((persisted :: edits).getLast (List.cons_ne_nil _ _), saw || !edits.isEmpty) := by
  induction edits generalizing persisted saw with
  | nil => simp [logPayloads, replay]
  | cons e es ih =>
    rw [List.isChain_cons_cons] at hk
    have hwf := he e List.mem_cons_self
    have hrest := ih e true hwf (fun e' he' => he e' (List.mem_cons_of_mem e he')) hk.2
    rw [logPayloads, replay, replayRecord_build hp hwf hk.1]
    simp only
    rw [hrest]
    simp

theorem replayLog_saves (edits : List VersionEdit) (tail : Bytes) (hne : edits ≠ [])
    (he : ∀ e ∈ edits, WfEdit e) (hk : edits.IsChain KeepsMeta)
    (hfits : ∀ payload ∈ logPayloads {} edits, FitsHeader payload)
    (ht : Tail encodeRecord FitsHeader tail) :
    replayLog (encodeAll encodeRecord (logPayloads {} edits) ++ tail) =
      .ok (edits.getLast hne, tail) := by
  have hchain : (({} : VersionEdit) :: edits).IsChain KeepsMeta := by
    cases edits with
    | nil => exact absurd rfl hne
    | cons e es =>
      refine List.isChain_cons_cons.mpr ⟨?_, hk⟩
      intro f hf
      cases hf
  have hreplay := replay_logPayloads {} edits false wfEdit_empty he hchain
  have hfuel : (logPayloads {} edits).length <
      (encodeAll encodeRecord (logPayloads {} edits) ++ tail).length + 1 := by
    have := format.length_le _ hfits
    rw [List.length_append]
    omega
  have hlast : (({} : VersionEdit) :: edits).getLast (List.cons_ne_nil _ _) = edits.getLast hne :=
    List.getLast_cons hne
  have hflag : (false || !edits.isEmpty) = true := by
    cases edits with
    | nil => exact absurd rfl hne
    | cons e es => rfl
  rw [replayLog, format.scan_log replayRecord _ tail ({}, false) _ hfits ht hfuel, hreplay, hlast,
    hflag]
  rfl

end Manifest

end KvMem
