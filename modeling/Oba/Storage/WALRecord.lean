import Oba.Library.ByteCodec
import Oba.Storage.Entry

/-! # WAL records

`wal_record.go`: a record is a header of 35 bytes, the before image and the after image. The
checksum covers the whole record, with zeros in its own place.
-/

namespace Oba.Storage

open ByteCodec List

/-- One bit of the reflected CRC-32 of IEEE 802.3. -/
def crc32Bit (crc : UInt32) : UInt32 :=
  if crc &&& 1 = 1 then (crc >>> 1) ^^^ 0xEDB88320 else crc >>> 1

/-- `crc32.ChecksumIEEE` -/
def checksumIEEE (data : Bytes) : UInt32 :=
  let crc := data.foldl (fun crc byte => Nat.repeat crc32Bit 8 (crc ^^^ byte.toUInt32)) 0xFFFFFFFF
  crc ^^^ 0xFFFFFFFF

example : checksumIEEE (ascii "123456789") = 0xCBF43926 := by decide +kernel

def walBegin : UInt8 := 0
def walCommit : UInt8 := 1
def walAbort : UInt8 := 2
def walUpdate : UInt8 := 3
def walCheckpoint : UInt8 := 4

structure WALRecord where
  lsn : Nat
  txID : UInt64
  type : UInt8
  pageID : UInt64
  offset : UInt16
  oldData : Bytes
  newData : Bytes
  checksum : UInt32
  deriving DecidableEq, Repr

def newWALRecord (lsn : Nat) (txID : UInt64) (type : UInt8) : WALRecord :=
  ⟨lsn, txID, type, 0, 0, [], [], 0⟩

def newWALUpdateRecord (lsn : Nat) (txID pageID : UInt64) (offset : UInt16)
    (oldData newData : Bytes) : WALRecord :=
  ⟨lsn, txID, walUpdate, pageID, offset, oldData, newData, 0⟩

def walRecordHeaderSize : Nat := 35

def maxWALDataSize : Nat := 65535

namespace WALRecord

section

variable (r : WALRecord)

def size : Nat := walRecordHeaderSize + r.oldData.length + r.newData.length

/-- The header in front of the checksum. -/
def fields : Bytes :=
  putUint 8 r.lsn ++ putUint 8 r.txID.toNat ++ [r.type] ++ putUint 8 r.pageID.toNat ++
    putUint 2 r.offset.toNat ++ putUint 2 r.oldData.length ++ putUint 2 r.newData.length

/-- The bytes of a record with a given checksum. -/
def encode (checksum : UInt32) : Bytes :=
  r.fields ++ putUint 4 checksum.toNat ++ r.oldData ++ r.newData

def calculateChecksum : UInt32 := checksumIEEE (r.encode 0)

/-- `SerializeTo` sets the checksum of the record it writes; `none` is `ErrWALDataTooLarge`. -/
def serialize : Option (WALRecord × Bytes) :=
  if r.oldData.length > maxWALDataSize ∨ r.newData.length > maxWALDataSize then none
  else some ({ r with checksum := r.calculateChecksum }, r.encode r.calculateChecksum)

end

end WALRecord

/-- `Deserialize`; `none` is `ErrWALRecordTooSmall`. -/
def deserializeWALRecord (buf : Bytes) : Option WALRecord :=
  if buf.length < walRecordHeaderSize then none
  else
    let oldDataLen := getUint ((buf.drop 27).take 2)
    let newDataLen := getUint ((buf.drop 29).take 2)
    if buf.length < walRecordHeaderSize + oldDataLen + newDataLen then none
    else some
      { lsn := getUint (buf.take 8)
        txID := UInt64.ofNat (getUint ((buf.drop 8).take 8))
        type := buf.getD 16 0
        pageID := UInt64.ofNat (getUint ((buf.drop 17).take 8))
        offset := UInt16.ofNat (getUint ((buf.drop 25).take 2))
        oldData := (buf.drop walRecordHeaderSize).take oldDataLen
        newData := (buf.drop (walRecordHeaderSize + oldDataLen)).take newDataLen
        checksum := UInt32.ofNat (getUint ((buf.drop 31).take 4)) }

/-- The checksum of a record as it lies in a buffer. -/
def checksumFromBuffer (buf : Bytes) : UInt32 :=
  checksumIEEE (buf.take 31 ++ putUint 4 0 ++ buf.drop 35)

/-- `DeserializeAndValidate` -/
def deserializeAndValidate (buf : Bytes) : Option WALRecord :=
  (deserializeWALRecord buf).bind fun r =>
    if r.checksum = checksumFromBuffer (buf.take r.size) then some r else none

namespace WALRecord

/-- A record as `Append` leaves it: its images have 16-bit lengths, its LSN has 64 bits and its
checksum is that of its bytes. -/
structure Sealed (r : WALRecord) : Prop where
  oldData : r.oldData.length ≤ maxWALDataSize
  newData : r.newData.length ≤ maxWALDataSize
  lsn : r.lsn < 256 ^ 8
  checksum : r.checksum = r.calculateChecksum

@[simp]
lemma length_fields (r : WALRecord) : r.fields.length = 31 := by
  simp [fields]

@[simp]
lemma length_encode (r : WALRecord) (checksum : UInt32) :
    (r.encode checksum).length = r.size := by
  simp only [encode, size, walRecordHeaderSize, length_append, length_fields, length_putUint]

lemma drop_encode (r : WALRecord) (checksum : UInt32) :
    (r.encode checksum).drop walRecordHeaderSize = r.oldData ++ r.newData := by
  rw [encode, append_assoc]
  exact drop_left' (by simp [walRecordHeaderSize])

lemma deserialize_encode {r : WALRecord} (hsealed : r.Sealed) :
    deserializeWALRecord (r.encode r.checksum) = some r := by
  obtain ⟨hold, hnew, hlsn, -⟩ := hsealed
  unfold maxWALDataSize at hold hnew
  have holdLen : getUint (((r.encode r.checksum).drop 27).take 2) = r.oldData.length :=
    getUint_slice 2 (by simp [encode, fields, drop_append, drop_putUint]) (by omega)
  have hnewLen : getUint (((r.encode r.checksum).drop 29).take 2) = r.newData.length :=
    getUint_slice 2 (by simp [encode, fields, drop_append, drop_putUint]) (by omega)
  have hlsnField : getUint ((r.encode r.checksum).take 8) = r.lsn :=
    getUint_slice 8 (by simp [encode, fields]) hlsn
  have htxID : getUint (((r.encode r.checksum).drop 8).take 8) = r.txID.toNat :=
    getUint_slice 8 (by simp [encode, fields]) r.txID.toNat_lt
  have hpageID : getUint (((r.encode r.checksum).drop 17).take 8) = r.pageID.toNat :=
    getUint_slice 8 (by simp [encode, fields, drop_append, drop_putUint]) r.pageID.toNat_lt
  have hoffset : getUint (((r.encode r.checksum).drop 25).take 2) = r.offset.toNat :=
    getUint_slice 2 (by simp [encode, fields, drop_append, drop_putUint]) r.offset.toNat_lt
  have hchecksum : getUint (((r.encode r.checksum).drop 31).take 4) = r.checksum.toNat :=
    getUint_slice 4 (by simp [encode]) r.checksum.toNat_lt
  have htype : (r.encode r.checksum).getD 16 0 = r.type := by
    simp [encode, fields, getD_eq_getElem?_getD, getElem?_append]
  unfold deserializeWALRecord
  rw [if_neg (by rw [length_encode, size]; omega)]
  rw [holdLen, hnewLen, if_neg (by rw [length_encode, size]; omega), hlsnField, htxID, hpageID,
    hoffset, hchecksum, htype, ← drop_drop, drop_encode]
  simp

lemma checksumFromBuffer_encode (r : WALRecord) (checksum : UInt32) :
    checksumFromBuffer (r.encode checksum) = r.calculateChecksum := by
  rfl

/-- What `Append` writes for a record is read back as the record. -/
lemma deserializeAndValidate_encode {r : WALRecord} (hsealed : r.Sealed) :
    deserializeAndValidate (r.encode r.checksum) = some r := by
  rw [deserializeAndValidate, deserialize_encode hsealed, Option.bind_some,
    take_of_length_le (by rw [length_encode]), checksumFromBuffer_encode,
    if_pos hsealed.checksum]

end WALRecord

end Oba.Storage
