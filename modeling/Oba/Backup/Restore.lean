import Oba.Storage.Names

/-! # Restoring backups

A restore writes the data file, or the files of a backup of a whole directory under the names that
the backup gives them. Only the first kind of backup is ever verified.
-/

namespace Oba.Backup

open List ByteCodec
open Storage (Bytes ascii)

/-! ## Paths -/

/-- A path as `filepath.Clean` leaves it, with its last name first. -/
structure Path where
  rooted : Bool
  names : List Bytes
  deriving DecidableEq, Repr

/-- One name further. -/
def Path.follow (path : Path) (name : Bytes) : Path :=
  if name = [] ∨ name = ascii "." then path
  else if name = ascii ".." then
    match path.names with
    | [] => if path.rooted then path else { path with names := [name] }
    | last :: above =>
      if last = ascii ".." then { path with names := name :: path.names }
      else { path with names := above }
  else { path with names := name :: path.names }

def slash : UInt8 := 0x2F

/-- The names up to each slash, one after the other. -/
def Path.walk (path : Path) (name : Bytes) : Bytes → Path
  | [] => path.follow name
  | b :: text =>
    if b = slash then (path.follow name).walk [] text else path.walk (name ++ [b]) text

def clean (text : Bytes) : Path := Path.walk ⟨text.head? = some slash, []⟩ [] text

/-- The path of a file in a directory whose text is not empty. -/
def join (dataDir name : Bytes) : Path :=
  if name = [] then clean dataDir else clean (dataDir ++ slash :: name)

/-- The path lies directly inside the directory. -/
def DirectlyInside (dir path : Path) : Prop :=
  ∃ name, name ≠ ascii ".." ∧ path = { dir with names := name :: dir.names }

lemma walk_slash (path : Path) (name first rest : Bytes) :
    path.walk name (first ++ slash :: rest) = (path.walk name first).walk [] rest := by
  induction first generalizing path name with
  | nil => exact if_pos rfl
  | cons b first ih =>
    rw [cons_append, Path.walk, Path.walk]
    split
    · exact ih _ _
    · exact ih _ _

/-- A name is followed from the directory on. -/
lemma join_eq {dataDir : Bytes} (hdir : dataDir ≠ []) (name : Bytes) :
    join dataDir name = (clean dataDir).walk [] name := by
  unfold join
  split
  next hname =>
    rw [hname, Path.walk, Path.follow, if_pos (.inl rfl)]
  · unfold clean
    rw [walk_slash, head?_append_of_ne_nil _ hdir]

def dataFile : Bytes := ascii "data.oba"

lemma directlyInside_dataFile {dataDir : Bytes} (hdir : dataDir ≠ []) :
    DirectlyInside (clean dataDir) (join dataDir dataFile) := by
  refine ⟨dataFile, by decide +kernel, ?_⟩
  rw [join_eq hdir]
  rfl

/-! ## Restore -/

inductive RestoreError
  | restoreFailed
  | dataDirEmpty
  | unknownBackupType
  | unsupportedFormat
  | checksumMismatch
  deriving DecidableEq, Repr

/-- What a reader gives, and whether it then fails instead of ending. -/
structure Stream where
  bytes : Bytes
  broken : Bool

/-- The system that a restore runs on: the checksum, the reader of compressed data, and whether
files can be created and opened. -/
structure System where
  checksum : Bytes → Nat
  decompress : Bytes → Stream
  create : Path → Bool
  openFile : Path → Bool

/-- The files that were created or opened for writing, and how the restore ends if it does. -/
structure Outcome where
  written : List Path
  result : Option (Except RestoreError Unit)

def failing (err : RestoreError) : Outcome := ⟨[], some (.error err)⟩

def backupMagic : Bytes := ascii "OBAB"
def incrementalMagic : Bytes := ascii "OBAI"

section

variable (input : Bytes)

/-- A field of a header. -/
def field (start width : Nat) : Nat := getUint ((input.drop start).take width)

def version : Nat := field input 4 4
def isCompressed : Bool := (field input 16 4).testBit 0
def isMultiFile : Bool := (field input 16 4).testBit 2
def pageSize : Nat := field input 20 4

end

variable (sys : System)

/-- The data after a header of a size. -/
def body (input : Bytes) (headerSize : Nat) : Stream :=
  if isCompressed input then sys.decompress (input.drop headerSize)
  else ⟨input.drop headerSize, false⟩

/-- The files of a backup of a directory, one after the other. A negative size copies nothing. -/
def restoreFiles (dataDir : Bytes) : Nat → Bytes → Outcome
  | 0, _ => ⟨[], some (.ok ())⟩
  | count + 1, s =>
    match readBlock 2 s with
    | none => failing .restoreFailed
    | some (name, s) =>
      match readUint 8 s with
      | none => failing .restoreFailed
      | some (size, s) =>
        let outPath := join dataDir name
        if sys.create outPath then
          match readBytes (if size < 2 ^ 63 then size else 0) s with
          | none => ⟨[outPath], some (.error .restoreFailed)⟩
          | some (_, s) =>
            let rest := restoreFiles dataDir count s
            ⟨outPath :: rest.written, rest.result⟩
        else failing .restoreFailed

def restoreMultiFile (dataDir : Bytes) (s : Stream) : Outcome :=
  match readUint 4 s.bytes with
  | none => failing .restoreFailed
  | some (fileCount, rest) => restoreFiles sys dataDir fileCount rest

/-- Reading page by page to the end; with pages of size zero the end does not come. -/
def readPages (pageSize : Nat) (broken : Bool) :
    Nat → Bytes → Bytes → Option (Except RestoreError Bytes)
  | 0, _, _ => none
  | fuel + 1, s, done =>
    match readBytes pageSize s with
    | some (page, s) => readPages pageSize broken fuel s (done ++ page)
    | none => some (if broken then .error .restoreFailed else .ok (done ++ s))

def readAll (pageSize : Nat) (s : Stream) : Option (Except RestoreError Bytes) :=
  readPages pageSize s.broken (s.bytes.length + 1) s.bytes []

/-- Up to a number of entries of an incremental backup, and the part of one at the end. -/
def readEntries (entrySize : Nat) (broken : Bool) :
    Nat → Bytes → List Bytes → Except RestoreError (List Bytes × Bytes)
  | 0, _, done => .ok (done, [])
  | count + 1, s, done =>
    match readBytes entrySize s with
    | some (entry, s) => readEntries entrySize broken count s (done ++ [entry])
    | none => if broken then .error .restoreFailed else .ok (done, s)

def incrementalEntries (input : Bytes) : Except RestoreError (List Bytes × Bytes) :=
  let s := body sys input 80
  readEntries (8 + pageSize input) s.broken (field input 40 8) s.bytes []

def compareChecksum (expected : Nat) (bytes : Bytes) : Except RestoreError Unit :=
  if sys.checksum bytes = expected then .ok () else .error .checksumMismatch

def verifyFullBackupChecksum (input : Bytes) : Option (Except RestoreError Unit) :=
  (readAll (pageSize input) (body sys input 64)).map
    (Except.bind · (compareChecksum sys (field input 40 4)))

def verifyIncrementalBackupChecksum (input : Bytes) : Except RestoreError Unit :=
  (incrementalEntries sys input).bind fun (entries, part) =>
    compareChecksum sys (field input 56 4) (entries.flatten ++ part)

/-- The data file is created and filled. -/
def writeFull (dataDir input : Bytes) : Outcome :=
  if sys.create (join dataDir dataFile) then
    ⟨[join dataDir dataFile], (readAll (pageSize input) (body sys input 64)).map
      fun read => read.map fun _ => ()⟩
  else failing .restoreFailed

/-- Pages at offsets that are negative as 64-bit numbers cannot be written. -/
def writeIncremental (dataDir input : Bytes) : Outcome :=
  if sys.openFile (join dataDir dataFile) then
    ⟨[join dataDir dataFile], some do
      let (entries, _) ← incrementalEntries sys input
      if entries.any fun entry => 2 ^ 63 ≤ getUint (entry.take 8) * pageSize input % 2 ^ 64 then
        .error .restoreFailed⟩
  else failing .restoreFailed

section

variable (verify : Bool) (dataDir input : Bytes)

def restoreFull : Outcome :=
  if input.length < 64 then failing .restoreFailed
  else if version input ≠ 1 then failing .unsupportedFormat
  else if isMultiFile input then restoreMultiFile sys dataDir (body sys input 64)
  else match if verify then verifyFullBackupChecksum sys input else some (.ok ()) with
    | none => ⟨[], none⟩
    | some (.error err) => failing err
    | some (.ok _) => writeFull sys dataDir input

def restoreIncremental : Outcome :=
  if input.length < 80 then failing .restoreFailed
  else if version input ≠ 1 then failing .unsupportedFormat
  else match if verify then verifyIncrementalBackupChecksum sys input else .ok () with
    | .error err => failing err
    | .ok _ => writeIncremental sys dataDir input

/-- `Restore` of an input file that can be opened. -/
def restore : Outcome :=
  if dataDir = [] then failing .dataDirEmpty
  else if input.length < 4 then failing .restoreFailed
  else if input.take 4 = backupMagic then restoreFull sys verify dataDir input
  else if input.take 4 = incrementalMagic then restoreIncremental sys verify dataDir input
  else failing .unknownBackupType

end

/-! ## Where files are written -/

/-- The names in a backup of a directory, as far as it can be read. -/
def storedNames : Nat → Bytes → List Bytes
  | 0, _ => []
  | count + 1, s =>
    match readBlock 2 s with
    | none => []
    | some (name, s) =>
      match readUint 8 s with
      | none => []
      | some (size, s) =>
        name :: match readBytes (if size < 2 ^ 63 then size else 0) s with
          | none => []
          | some (_, s) => storedNames count s

/-- The names that an input file gives; there are some only in a valid backup of a directory. -/
def fileNames (input : Bytes) : List Bytes :=
  if input.take 4 = backupMagic ∧ 64 ≤ input.length ∧ version input = 1 ∧ isMultiFile input then
    match readUint 4 (body sys input 64).bytes with
    | none => []
    | some (fileCount, rest) => storedNames fileCount rest
  else []

variable (dataDir : Bytes)

/-- The names for which files are created. -/
def createdNames (input : Bytes) : List Bytes :=
  (fileNames sys input).takeWhile fun name => sys.create (join dataDir name)

lemma written_restoreFiles (count : Nat) (s : Bytes) :
    (restoreFiles sys dataDir count s).written =
      ((storedNames count s).takeWhile fun name => sys.create (join dataDir name)).map
        (join dataDir) := by
  induction count generalizing s with
  | zero => rfl
  | succ count ih =>
    rw [restoreFiles, storedNames]
    cases readBlock 2 s with
    | none => rfl
    | some block =>
      dsimp only
      cases readUint 8 block.2 with
      | none => rfl
      | some size =>
        dsimp only
        rw [takeWhile_cons]
        cases sys.create (join dataDir block.1) with
        | false => rfl
        | true =>
          cases readBytes (if size.1 < 2 ^ 63 then size.1 else 0) size.2 with
          | none => rfl
          | some read => exact congrArg (join dataDir block.1 :: ·) (ih read.2)

/-- At most the data file is written. -/
def Outcome.OnlyData (outcome : Outcome) : Prop :=
  ∀ path ∈ outcome.written, path = join dataDir dataFile

lemma onlyData_writeFull (input : Bytes) : (writeFull sys dataDir input).OnlyData dataDir := by
  unfold writeFull
  split <;> simp [Outcome.OnlyData, failing]

lemma written_restoreFull (verify : Bool) {input : Bytes} (hmagic : input.take 4 = backupMagic) :
    (restoreFull sys verify dataDir input).written =
        (createdNames sys dataDir input).map (join dataDir) ∨
      fileNames sys input = [] ∧ (restoreFull sys verify dataDir input).OnlyData dataDir := by
  unfold restoreFull createdNames fileNames
  by_cases hlength : input.length < 64
  · simp [hlength, failing, not_le.mpr hlength]
  by_cases hversion : version input = 1
  · cases hmulti : isMultiFile input with
    | true =>
      left
      simp only [hlength, hversion, hmagic, not_lt.mp hlength, restoreMultiFile]
      cases readUint 4 (body sys input 64).bytes with
      | none => rfl
      | some read => exact written_restoreFiles sys dataDir read.1 read.2
    | false =>
      right
      have hwritten := onlyData_writeFull sys dataDir input
      simp only [hlength, hversion]
      rcases if verify then verifyFullBackupChecksum sys input else some (.ok ()) with _ | _ | _
      · simp [Outcome.OnlyData]
      · simp [Outcome.OnlyData, failing]
      · simpa using hwritten
  · simp [hlength, hversion, failing]

lemma onlyData_restoreIncremental (verify : Bool) (input : Bytes) :
    (restoreIncremental sys verify dataDir input).OnlyData dataDir := by
  have hwritten : (writeIncremental sys dataDir input).OnlyData dataDir := by
    unfold writeIncremental
    split <;> simp [Outcome.OnlyData, failing]
  unfold restoreIncremental
  split
  · simp [Outcome.OnlyData, failing]
  · split
    · simp [Outcome.OnlyData, failing]
    · split
      · simp [Outcome.OnlyData, failing]
      · exact hwritten

/-- A restore writes directly inside the data directory exactly if the names that it creates files
for lead from that directory to places directly inside it. -/
theorem restore_inside_iff (verify : Bool) (input : Bytes) :
    (∀ path ∈ (restore sys verify dataDir input).written, DirectlyInside (clean dataDir) path) ↔
      (dataDir ≠ [] → ∀ name ∈ createdNames sys dataDir input,
        DirectlyInside (clean dataDir) ((clean dataDir).walk [] name)) := by
  by_cases hdir : dataDir = []
  · simp [restore, hdir, failing]
  have honly : ∀ outcome : Outcome, fileNames sys input = [] → outcome.OnlyData dataDir →
      ((∀ path ∈ outcome.written, DirectlyInside (clean dataDir) path) ↔
        (dataDir ≠ [] → ∀ name ∈ createdNames sys dataDir input,
          DirectlyInside (clean dataDir) ((clean dataDir).walk [] name))) := by
    intro outcome hnames hdata
    have hpaths : ∀ path ∈ outcome.written, DirectlyInside (clean dataDir) path :=
      fun path hpath => hdata path hpath ▸ directlyInside_dataFile hdir
    simpa [createdNames, hnames] using hpaths
  by_cases hmagic : input.take 4 = backupMagic
  · have hlength : ¬ input.length < 4 := by
      intro hlt
      have hshort := congrArg length hmagic
      rw [length_take] at hshort
      have hfour : backupMagic.length = 4 := by decide +kernel
      omega
    rw [restore, if_neg hdir, if_neg hlength, if_pos hmagic]
    rcases written_restoreFull sys dataDir verify hmagic with hwritten | ⟨hnames, hdata⟩
    · simp [hwritten, hdir, join_eq hdir]
    · exact honly _ hnames hdata
  · have hnames : fileNames sys input = [] := if_neg fun h => hmagic h.1
    refine honly _ hnames ?_
    rw [restore, if_neg hdir, if_neg hmagic]
    split
    · simp [Outcome.OnlyData, failing]
    · split
      · exact onlyData_restoreIncremental sys dataDir verify input
      · simp [Outcome.OnlyData, failing]

/-- A system where every file can be created and nothing is compressed. -/
def plain : System := ⟨fun _ => 0, fun bytes => ⟨bytes, false⟩, fun _ => true, fun _ => true⟩

/-- A backup of a directory with one empty file. -/
def backupOf (name : Bytes) : Bytes :=
  backupMagic ++ putUint 4 1 ++ putUint 8 0 ++ putUint 4 4 ++ putUint 44 0 ++ putUint 4 1 ++
    putBlock 2 name ++ putUint 8 0

theorem written_above_directory :
    (restore plain true (ascii "data") (backupOf (ascii "../x"))).written = [clean (ascii "x")] ∧
      ¬DirectlyInside (clean (ascii "data")) (clean (ascii "x")) := by
  refine ⟨by decide +kernel, fun ⟨name, _, heq⟩ => ?_⟩
  have htail : (clean (ascii "x")).names.tail = (clean (ascii "data")).names :=
    congrArg (·.names.tail) heq
  exact absurd htail (by decide +kernel)

/-! ## Damaged backups -/

/-- A valid full backup whose body does not have the checksum of its header. -/
def DamagedFull (input : Bytes) : Prop :=
  input.take 4 = backupMagic ∧ 64 ≤ input.length ∧ version input = 1 ∧
    ¬((body sys input 64).broken = false ∧
      sys.checksum (body sys input 64).bytes = field input 40 4)

/-- A valid incremental backup whose entries do not have the checksum of its header. -/
def DamagedIncremental (input : Bytes) : Prop :=
  input.take 4 = incrementalMagic ∧ 80 ≤ input.length ∧ version input = 1 ∧
    ¬∃ entries part, incrementalEntries sys input = .ok (entries, part) ∧
      sys.checksum (entries.flatten ++ part) = field input 56 4

/-- The restore ends with an error and has written nothing. -/
def Outcome.Refused (outcome : Outcome) : Prop :=
  outcome.written = [] ∧ ∃ err, outcome.result = some (.error err)

lemma readPages_eq {pageSize : Nat} (hpos : 0 < pageSize) (broken : Bool) {fuel : Nat} {s : Bytes}
    (hfuel : s.length < fuel) (done : Bytes) :
    readPages pageSize broken fuel s done =
      some (if broken then .error .restoreFailed else .ok (done ++ s)) := by
  induction fuel generalizing s done with
  | zero => exact absurd hfuel (Nat.not_lt_zero _)
  | succ fuel ih =>
    rw [readPages]
    unfold readBytes
    split
    next page rest hread =>
      obtain ⟨hlong, hread⟩ := Option.ite_none_left_eq_some.mp hread
      cases hread
      rw [ih (by rw [length_drop]; omega), append_assoc, take_append_drop]
    · rfl

lemma readPages_zero (broken : Bool) (fuel : Nat) (s done : Bytes) :
    readPages 0 broken fuel s done = none := by
  induction fuel generalizing s done with
  | zero => rfl
  | succ fuel ih => exact ih _ _

lemma refused_failing (err : RestoreError) : (failing err).Refused := ⟨rfl, err, rfl⟩

lemma refused_restoreFiles_iff (count : Nat) (s : Bytes) :
    (restoreFiles sys dataDir count s).Refused ↔
      (restoreFiles sys dataDir count s).written = [] ∧ count ≠ 0 := by
  cases count with
  | zero => simp [restoreFiles, Outcome.Refused]
  | succ count =>
    refine and_congr_right fun hwritten => iff_of_true ?_ (Nat.succ_ne_zero count)
    rw [restoreFiles] at hwritten ⊢
    split at hwritten
    · exact ⟨_, rfl⟩
    · split at hwritten
      · exact ⟨_, rfl⟩
      · dsimp only at hwritten ⊢
        split at hwritten
        · split at hwritten <;> cases hwritten
        next hcreate =>
          rw [if_neg hcreate]
          exact ⟨_, rfl⟩

/-- No file of a backup of a directory is created, and there should be one. -/
def NoFirstFile (input : Bytes) : Prop :=
  createdNames sys dataDir input = [] ∧ (readUint 4 (body sys input 64).bytes).map Prod.fst ≠ some 0

lemma refused_restoreFull_iff {input : Bytes} (h : DamagedFull sys input) :
    (restoreFull sys true dataDir input).Refused ↔
      if isMultiFile input then NoFirstFile sys dataDir input else pageSize input ≠ 0 := by
  obtain ⟨hmagic, hlength, hversion, hdamaged⟩ := h
  rw [restoreFull, if_neg (not_lt.mpr hlength), if_neg (not_not.mpr hversion)]
  cases hmulti : isMultiFile input with
  | true =>
    simp only [if_true, restoreMultiFile, NoFirstFile, createdNames, fileNames]
    rw [if_pos ⟨hmagic, hlength, hversion, hmulti⟩]
    cases readUint 4 (body sys input 64).bytes with
    | none => simp [refused_failing]
    | some read => simp [refused_restoreFiles_iff, written_restoreFiles]
  | false =>
    rw [if_neg Bool.false_ne_true, if_neg Bool.false_ne_true, if_pos rfl]
    unfold verifyFullBackupChecksum readAll
    rcases Nat.eq_zero_or_pos (pageSize input) with hzero | hpos
    · rw [hzero, readPages_zero]
      simp [Outcome.Refused]
    · rw [readPages_eq hpos _ (lt_add_one _)]
      cases hbroken : (body sys input 64).broken with
      | true => exact iff_of_true (refused_failing _) hpos.ne'
      | false =>
        have hsum : compareChecksum sys (field input 40 4) (body sys input 64).bytes =
            .error .checksumMismatch := if_neg fun heq => hdamaged ⟨hbroken, heq⟩
        simp only [Option.map_some, if_neg Bool.false_ne_true, nil_append, Except.bind, hsum]
        exact iff_of_true (refused_failing _) hpos.ne'

lemma refused_restoreIncremental {input : Bytes} (h : DamagedIncremental sys input) :
    (restoreIncremental sys true dataDir input).Refused := by
  obtain ⟨-, hlength, hversion, hdamaged⟩ := h
  rw [restoreIncremental, if_neg (not_lt.mpr hlength), if_neg (not_not.mpr hversion),
    if_pos rfl]
  unfold verifyIncrementalBackupChecksum
  cases hentries : incrementalEntries sys input with
  | error err => exact refused_failing err
  | ok read =>
    have hsum : compareChecksum sys (field input 56 4) (read.1.flatten ++ read.2) =
        .error .checksumMismatch := if_neg fun heq => hdamaged ⟨read.1, read.2, hentries, heq⟩
    simp only [Except.bind, hsum]
    exact refused_failing _

/-- A verified restore refuses a damaged backup, except that it does not verify backups of
directories and does not end for pages of size zero. -/
theorem refuses_damage_iff (input : Bytes) :
    (DamagedFull sys input ∨ DamagedIncremental sys input →
        (restore sys true dataDir input).Refused) ↔
      (DamagedFull sys input → dataDir ≠ [] →
        if isMultiFile input then NoFirstFile sys dataDir input else pageSize input ≠ 0) := by
  by_cases hdir : dataDir = []
  · simp [restore, hdir, refused_failing]
  have hfull : DamagedFull sys input →
      restore sys true dataDir input = restoreFull sys true dataDir input := fun h => by
    have hlong := h.2.1
    rw [restore, if_neg hdir, if_neg (by omega), if_pos h.1]
  have hincremental : DamagedIncremental sys input → (restore sys true dataDir input).Refused := by
    intro h
    have hlong := h.2.1
    have hother : input.take 4 ≠ backupMagic := by
      rw [h.1]
      decide +kernel
    rw [restore, if_neg hdir, if_neg (by omega), if_neg hother, if_pos h.1]
    exact refused_restoreIncremental sys dataDir h
  constructor
  · intro hrefused h _
    rw [← refused_restoreFull_iff sys dataDir h, ← hfull h]
    exact hrefused (.inl h)
  · rintro hcond (h | h)
    · rw [hfull h, refused_restoreFull_iff sys dataDir h]
      exact hcond h hdir
    · exact hincremental h

/-- The body has the checksum zero, the header another one. -/
theorem damaged_directory_restored :
    let input := backupMagic ++ putUint 4 1 ++ putUint 8 0 ++ putUint 4 4 ++ putUint 20 0 ++
      putUint 4 1 ++ putUint 20 0 ++ putUint 4 1 ++ putBlock 2 dataFile ++ putUint 8 0
    DamagedFull plain input ∧ restore plain true (ascii "data") input =
      ⟨[join (ascii "data") dataFile], some (.ok ())⟩ := by
  refine ⟨⟨by decide +kernel, by decide +kernel, by decide +kernel, fun h => ?_⟩, rfl⟩
  exact absurd h.2 (by decide +kernel)

end Oba.Backup
