import Oba.Library.OrderedMap
import Oba.Storage.WALRecord

/-! # The write-ahead log

`wal.go`: records are framed by their length and collected in a buffer of 64 KiB that is
written to the end of the file. An index gives the place of every record. Opening a log
scans the file for records; truncating it rewrites the file.
-/

namespace Oba.Storage

open ByteCodec UnorderedMap

def walBufferSize : Nat := 64 * 1024

/-- The write position of the file is at its end whenever the log writes. `buffer` is what was
put into the write buffer, of which the array of `walBufferSize` bytes holds the front. -/
structure WAL where
  file : Bytes
  currentLSN : Nat
  buffer : Bytes
  lsnIndex : Std.ExtTreeMap Nat Nat

/-- A call that returns an error, or that slices the buffer behind its end. -/
inductive WALFault
  | dataTooLarge
  | panic
  deriving DecidableEq, Repr

/-- Read the frame in front of `s`; a length of zero is refused. -/
def readFrame (s : Bytes) : Option (Bytes × Bytes) := do
  let (recordLen, s) ← readUint 4 s
  if recordLen = 0 then none else readBytes recordLen s

/-- The loop that rebuilds the index: the LSN and the place of every record in front of the
first frame that is cut short or not accepted, and the place of that frame. -/
def scanRecords (accept : Bytes → Option WALRecord) : Nat → Bytes → Nat → List (Nat × Nat) × Nat
  | 0, _, offset => ([], offset)
  | fuel + 1, s, offset =>
    match readFrame s with
    | none => ([], offset)
    | some (recordBuf, s) =>
      match accept recordBuf with
      | none => ([], offset)
      | some record =>
        let (rest, stop) := scanRecords accept fuel s (offset + 4 + recordBuf.length)
        ((record.lsn, offset) :: rest, stop)

/-- What `recover` accepts as a record. -/
def acceptRecovered (recordBuf : Bytes) : Option WALRecord :=
  if recordBuf.length > walBufferSize then none else deserializeAndValidate recordBuf

/-- `OpenWAL` on a file with the given bytes. -/
def openWAL (file : Bytes) : WAL :=
  let (places, stop) := scanRecords acceptRecovered file.length file 0
  { file := file.take stop
    currentLSN := if places = [] then 1 else (places.map Prod.fst).foldl max 0 + 1
    buffer := []
    lsnIndex := insertAll ∅ places }

namespace WAL

section

variable (w : WAL)

def flushBuffer : Except WALFault WAL :=
  if w.buffer = [] then .ok w
  else if w.buffer.length > walBufferSize then .error .panic
  else .ok { w with file := w.file ++ w.buffer, buffer := [] }

/-- `Append` of a record: its LSN and the log behind it. -/
def append (record : WALRecord) : Except WALFault (Nat × WAL) :=
  match { record with lsn := w.currentLSN }.serialize with
  | none => .error .dataTooLarge
  | some (_, recordBuf) => do
    let w ← if w.buffer.length + (4 + recordBuf.length) > walBufferSize then w.flushBuffer
      else .ok w
    .ok (w.currentLSN, { w with
        buffer := w.buffer ++ putBlock 4 recordBuf
        lsnIndex := w.lsnIndex.insert w.currentLSN (w.file.length + w.buffer.length)
        currentLSN := w.currentLSN + 1 })

def sync : Except WALFault WAL := w.flushBuffer

/-- `Truncate` behind the flush: keep the bytes from the first record behind `lsn` on, and scan
them again. -/
def dropUpTo (lsn : Nat) : WAL :=
  match ((w.lsnIndex.toList.filter fun place => lsn < place.1).map Prod.snd).min? with
  | none => { w with file := [], lsnIndex := ∅ }
  | some truncateOffset =>
    let remaining := w.file.drop truncateOffset
    let (places, _) := scanRecords deserializeWALRecord remaining.length remaining 0
    { w with file := remaining, lsnIndex := insertAll ∅ places }

def truncate (lsn : Nat) : Except WALFault WAL := w.flushBuffer.map (dropUpTo · lsn)

/-- `Close` leaves the file. -/
def close : Except WALFault Bytes := w.flushBuffer.map file

/-- `Iterator.Next`: the record with the LSN, or the one with the least LSN behind it. -/
def next (currentLSN : Nat) : Option (Nat × Nat) :=
  match w.lsnIndex[currentLSN]? with
  | some offset => some (currentLSN, offset)
  | none => w.lsnIndex.toList.find? fun place => currentLSN ≤ place.1

/-- `Iterator.Record` -/
def recordAt (offset : Nat) : Option WALRecord :=
  (readFrame (w.file.drop offset)).bind fun frame => deserializeAndValidate frame.1

end

/-- `Next` and `Record` until either of them fails. -/
def records (w : WAL) : Nat → Nat → List WALRecord
  | 0, _ => []
  | fuel + 1, currentLSN =>
    match w.next currentLSN with
    | none => []
    | some (_, offset) =>
      match w.recordAt offset with
      | none => []
      | some record => record :: w.records fuel (record.lsn + 1)

/-- Flush the buffer and read all records from an LSN on. Every turn of the loop reads another
place of the index. -/
def iterate (w : WAL) (startLSN : Nat) : Except WALFault (List WALRecord) :=
  w.flushBuffer.map fun w => w.records w.lsnIndex.size startLSN

end WAL

end Oba.Storage
