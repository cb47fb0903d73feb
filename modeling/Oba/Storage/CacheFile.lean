import Oba.Storage.WALRecord

/-! # Cache files

`cache/file.go` and `cache/header.go`: a file with data that can be computed again, behind a
header of 48 bytes. A file is read only if its checksums are right and it was written at the
log position that the reader expects.
-/

namespace Oba.Storage.Cache

open ByteCodec Option List

def typeRadix : UInt8 := 1
def typeEntry : UInt8 := 3

/-- The header without its own checksum. The magic number is `OBAC`, the version is 1. -/
structure Header where
  magic : Bytes
  version : Nat
  cacheType : Bytes
  entryCount : Nat
  lastTxID : Nat
  dataCRC32 : Nat
  dataLength : Nat

def newHeader (cacheType : UInt8) (entryCount lastTxID : Nat) (data : Bytes) : Header :=
  { magic := ascii "OBAC"
    version := 1
    cacheType := [cacheType]
    entryCount := entryCount
    lastTxID := lastTxID
    dataCRC32 := (checksumIEEE data).toNat
    dataLength := data.length }

namespace Header

def fields (h : Header) : Bytes :=
  h.magic ++ putUint 4 h.version ++ h.cacheType ++ List.replicate 7 0 ++ putUint 8 h.entryCount ++
    putUint 8 h.lastTxID ++ putUint 4 h.dataCRC32 ++ putUint 8 h.dataLength

def serialize (h : Header) : Bytes := h.fields ++ putUint 4 (checksumIEEE h.fields).toNat

/-- Read a header and its checksum. -/
def deserialize (s : Bytes) : Option (Header × Nat × Bytes) := do
  let (magic, s) ← readBytes 4 s
  let (version, s) ← readUint 4 s
  let (cacheType, s) ← readBytes 1 s
  let (_, s) ← readBytes 7 s
  let (entryCount, s) ← readUint 8 s
  let (lastTxID, s) ← readUint 8 s
  let (dataCRC32, s) ← readUint 4 s
  let (dataLength, s) ← readUint 8 s
  let (headerCRC32, s) ← readUint 4 s
  some (⟨magic, version, cacheType, entryCount, lastTxID, dataCRC32, dataLength⟩, headerCRC32, s)

/-- `Validate` -/
def isValid (h : Header) (expectedType : UInt8) (expectedTxID : Nat) : Bool :=
  h.magic = ascii "OBAC" ∧ h.version = 1 ∧ h.cacheType = [expectedType] ∧ h.lastTxID = expectedTxID

end Header

def writeFile (cacheType : UInt8) (data : Bytes) (entryCount lastTxID : Nat) : Bytes :=
  (newHeader cacheType entryCount lastTxID data).serialize ++ data

/-- The data of a file and the count in its header, unless the file is stale or corrupt. -/
def readFile (file : Bytes) (expectedType : UInt8) (expectedTxID : Nat) : Option (Bytes × Nat) := do
  let (header, headerCRC32, s) ← Header.deserialize file
  if headerCRC32 ≠ (checksumIEEE (file.take 44)).toNat then none
  else if ¬ header.isValid expectedType expectedTxID then none
  else do
    let (data, _) ← readBytes header.dataLength s
    if (checksumIEEE data).toNat ≠ header.dataCRC32 then none else some (data, header.entryCount)

/-- The numbers of a header fit their fields. -/
structure Header.Fits (h : Header) : Prop where
  magic : h.magic.length = 4
  version : h.version < 256 ^ 4
  cacheType : h.cacheType.length = 1
  entryCount : h.entryCount < 256 ^ 8
  lastTxID : h.lastTxID < 256 ^ 8
  dataCRC32 : h.dataCRC32 < 256 ^ 4
  dataLength : h.dataLength < 256 ^ 8

lemma Header.length_fields {h : Header} (hfits : h.Fits) : h.fields.length = 44 := by
  simp [Header.fields, hfits.magic, hfits.cacheType]

lemma Header.deserialize_serialize {h : Header} (hfits : h.Fits) (rest : Bytes) :
    Header.deserialize (h.serialize ++ rest) = some (h, (checksumIEEE h.fields).toNat, rest) := by
  have hmagic := readBytes_append h.magic
  have htype := readBytes_append h.cacheType
  have hreserved := readBytes_append (replicate 7 0)
  rw [hfits.magic] at hmagic
  rw [hfits.cacheType] at htype
  rw [length_replicate] at hreserved
  have hcrc : (checksumIEEE h.fields).toNat < 256 ^ 4 := UInt32.toNat_lt _
  rw [Header.serialize]
  generalize hchecksum : (checksumIEEE h.fields).toNat = checksum at hcrc ⊢
  simp only [Header.deserialize, Header.fields, append_assoc, hmagic, htype, hreserved,
    readUint_putUint, Nat.mod_eq_of_lt hfits.version, Nat.mod_eq_of_lt hfits.entryCount,
    Nat.mod_eq_of_lt hfits.lastTxID, Nat.mod_eq_of_lt hfits.dataCRC32,
    Nat.mod_eq_of_lt hfits.dataLength, Nat.mod_eq_of_lt hcrc, bind_eq_bind,
    bind_some]

section

variable {cacheType : UInt8} {entryCount lastTxID : Nat} {data : Bytes}
  (hcount : entryCount < 256 ^ 8) (htx : lastTxID < 256 ^ 8) (hdata : data.length < 256 ^ 8)
include hcount htx hdata

lemma newHeader_fits : (newHeader cacheType entryCount lastTxID data).Fits :=
  { magic := rfl
    version := Nat.one_lt_pow (by decide) (by decide)
    cacheType := rfl
    entryCount := hcount
    lastTxID := htx
    dataCRC32 := UInt32.toNat_lt _
    dataLength := hdata }

/-- A file is read back at the position at which it was written. -/
lemma readFile_writeFile :
    readFile (writeFile cacheType data entryCount lastTxID) cacheType lastTxID =
      some (data, entryCount) := by
  have hfits : (newHeader cacheType entryCount lastTxID data).Fits :=
    newHeader_fits hcount htx hdata
  have hread := readBytes_append data []
  rw [append_nil] at hread
  have hfront : (writeFile cacheType data entryCount lastTxID).take 44 =
      (newHeader cacheType entryCount lastTxID data).fields := by
    rw [← Header.length_fields hfits]
    exact take_left
  have hvalid : (newHeader cacheType entryCount lastTxID data).isValid cacheType lastTxID := by
    simp [Header.isValid, newHeader]
  rw [readFile, hfront, writeFile, Header.deserialize_serialize hfits]
  simp only [bind_eq_bind, bind_some, ne_eq, not_true_eq_false, if_false, hvalid]
  simp only [newHeader, hread, bind_some, not_true_eq_false, if_false]

end

end Oba.Storage.Cache
