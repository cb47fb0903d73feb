import Mathlib.Data.List.Basic
import Mathlib.Order.Nat
import Oba.Library.ByteCodec

/-! # The Raft log and its file

`log.go`: log entries and their byte format, the in-memory log with its dummy entry
at index 0, and the append-only file behind it. Terms and indices are natural
numbers: a 64-bit counter that moves by one per election or per append does not wrap
in a run that can take place. Where bytes are written, or a request may bring any term
to a node, the width is explicit.
-/

namespace Oba.Raft

open ByteCodec

/-- Kinds of log entry. `LogEntry.type` is a byte, as on disk. -/
def logEntryCommand : UInt8 := 0
def logEntryNoop : UInt8 := 2

structure LogEntry where
  index : Nat
  term : Nat
  type : UInt8
  command : List UInt8
  deriving DecidableEq, Repr

inductive LogError
  | corrupted
  | unexpectedEOF
  | indexOutOfRange
  deriving DecidableEq, Repr

/-- `[Index:8][Term:8][Type:1][CommandLen:4][Command:N]` -/
def LogEntry.serialize (e : LogEntry) : List UInt8 :=
  putUint 8 e.index ++ putUint 8 e.term ++ [e.type] ++ putUint 4 e.command.length ++ e.command

def deserializeLogEntry (data : List UInt8) : Except LogError LogEntry :=
  if data.length < 21 then .error .corrupted
  else
    let cmdLen := getUint ((data.drop 17).take 4)
    if data.length < 21 + cmdLen then .error .corrupted
    else .ok
      { index := getUint (data.take 8)
        term := getUint ((data.drop 8).take 8)
        type := data.getD 16 0
        command := (data.drop 21).take cmdLen }

/-! ## The log file -/

/-- An open file: its bytes and the position the next write goes to. -/
structure LogFile where
  bytes : List UInt8
  pos : Nat
  deriving DecidableEq, Repr

def LogFile.empty : LogFile := ⟨[], 0⟩

/-- Overwrite from the current position on and advance. -/
def LogFile.write (f : LogFile) (data : List UInt8) : LogFile :=
  { bytes := f.bytes.take f.pos ++ data ++ f.bytes.drop (f.pos + data.length)
    pos := f.pos + data.length }

def LogFile.persistEntry (f : LogFile) (e : LogEntry) : LogFile :=
  (f.write (putUint 4 e.serialize.length)).write e.serialize

/-- The reading loop of `loadFromDisk`: decoded entries in file order and the position
after the last byte read. A record takes at least five bytes, so the number of bytes
left bounds the number of rounds. -/
def readRecords : Nat → List UInt8 → Nat → Except LogError (List LogEntry × Nat)
  | 0, _, pos => .ok ([], pos)
  | fuel + 1, data, pos =>
    if data.length = 0 then .ok ([], pos)
    else if data.length < 4 then .error .unexpectedEOF
    else
      let entryLen := getUint (data.take 4)
      if entryLen = 0 ∨ entryLen > 10 * 1024 * 1024 then .ok ([], pos + 4)
      else if (data.drop 4).length < entryLen then .error .unexpectedEOF
      else
        match deserializeLogEntry ((data.drop 4).take entryLen) with
        | .error err => .error err
        | .ok entry =>
          match readRecords fuel (data.drop (4 + entryLen)) (pos + 4 + entryLen) with
          | .error err => .error err
          | .ok (entries, stop) => .ok (entry :: entries, stop)

/-- `entryMap`: the last record of each positive index. -/
def entryMap (records : List LogEntry) : Nat → Option LogEntry :=
  records.foldl
    (fun table e => if e.index > 0 then Function.update table e.index (some e) else table)
    (fun _ => none)

def maxIndex (records : List LogEntry) : Nat :=
  records.foldl (fun top e => if e.index > top then e.index else top) 0

/-- The entry every log starts with. -/
def dummyEntry : LogEntry := ⟨0, 0, logEntryNoop, []⟩

/-- The slice `loadFromDisk` builds from the map; an index without a record is `nil`. -/
def buildEntries (records : List LogEntry) : List (Option LogEntry) :=
  some dummyEntry :: (List.range (maxIndex records)).map fun i => entryMap records (i + 1)

/-- A log as `NewRaftLogWithDir` leaves it: the slice may hold `nil` pointers. -/
structure StoredLog where
  entries : List (Option LogEntry)
  file : LogFile
  deriving DecidableEq, Repr

def newRaftLogWithDir (bytes : List UInt8) : Except LogError StoredLog :=
  match readRecords bytes.length bytes 0 with
  | .error err => .error err
  | .ok (records, pos) => .ok ⟨buildEntries records, ⟨bytes, pos⟩⟩

/-! ## The log in memory -/

/-- `file` is `none` for a log without a data directory. -/
structure RaftLog where
  entries : List LogEntry
  file : Option LogFile
  deriving DecidableEq, Repr

namespace RaftLog

def new : RaftLog := ⟨[dummyEntry], none⟩

/-- A log over a fresh data directory. -/
def newInDir : RaftLog := ⟨[dummyEntry], some LogFile.empty⟩

section

variable (l : RaftLog)

def append (e : LogEntry) : RaftLog :=
  { entries := l.entries ++ [e], file := l.file.map (·.persistEntry e) }

/-- Only the slice is cut; the file is left as it is. -/
def truncateFrom (index : Nat) : RaftLog :=
  if index < l.entries.length then { l with entries := l.entries.take index } else l

/-- The entries from `index` on become the whole slice, without a dummy entry. -/
def truncateBefore (index : Nat) : RaftLog :=
  if index > 0 ∧ index ≤ l.entries.length then { l with entries := l.entries.drop index }
  else if index > l.entries.length then { l with entries := [] }
  else l

def get (index : Nat) : Except LogError LogEntry :=
  match l.entries[index]? with
  | some e => .ok e
  | none => .error .indexOutOfRange

/-- `uint64(len(l.entries) - 1)`, which wraps on a log without its dummy entry. -/
def lastIndex : Nat :=
  if l.entries.length = 0 then 2 ^ 64 - 1 else l.entries.length - 1

def lastTerm : Nat :=
  match l.entries.getLast? with
  | some e => e.term
  | none => 0

def termAt (index : Nat) : Nat :=
  match l.entries[index]? with
  | some e => e.term
  | none => 0

def getFrom (index : Nat) : List LogEntry :=
  l.entries.drop index

@[simp]
lemma append_entries (e : LogEntry) : (l.append e).entries = l.entries ++ [e] := rfl

@[simp]
lemma truncateFrom_entries (index : Nat) :
    (l.truncateFrom index).entries = l.entries.take index := by
  unfold truncateFrom
  split
  · rfl
  next hge => rw [List.take_of_length_le (by omega)]

@[simp]
lemma truncateFrom_file (index : Nat) : (l.truncateFrom index).file = l.file := by
  unfold truncateFrom
  split <;> rfl

end

lemma lastIndex_eq {l : RaftLog} (hpos : 0 < l.entries.length) :
    l.lastIndex = l.entries.length - 1 := by
  rw [lastIndex, if_neg (by omega)]

lemma termAt_eq {l : RaftLog} {index : Nat} {e : LogEntry} (he : l.entries[index]? = some e) :
    l.termAt index = e.term := by
  rw [termAt, he]

lemma termAt_eq_zero {l : RaftLog} {index : Nat} (hlen : l.entries.length ≤ index) :
    l.termAt index = 0 := by
  rw [termAt, List.getElem?_eq_none hlen]

end RaftLog

end Oba.Raft
