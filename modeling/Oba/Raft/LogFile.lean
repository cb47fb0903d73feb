import Mathlib.Data.List.Induction
import Mathlib.Data.List.TakeDrop
import Oba.Raft.Log

/-! # The log file as a refinement of the log

`Append` writes a record behind the last one and `TruncateFrom` writes nothing. Replaying the
file gives back the log in memory after every call exactly when the calls never cut the log
and number their entries without gaps.
-/

namespace Oba.Raft

open ByteCodec List RaftLog

/-- The largest record `loadFromDisk` reads. -/
def maxRecord : Nat := 10 * 1024 * 1024

/-- The index and term are 64-bit numbers. -/
def LogEntry.Fits (e : LogEntry) : Prop := e.index < 2 ^ 64 ∧ e.term < 2 ^ 64

/-! ## Records -/

@[simp]
lemma LogEntry.length_serialize (e : LogEntry) : e.serialize.length = 21 + e.command.length := by
  simp only [LogEntry.serialize, length_append, length_putUint, length_singleton]

variable {e : LogEntry} {records : List LogEntry} {fuel pos : Nat} {data : List UInt8}

lemma deserializeLogEntry_serialize_of_lt (hfits : e.Fits) (hsize : e.command.length < 256 ^ 4) :
    deserializeLogEntry e.serialize = .ok e := by
  have hlen : getUint ((e.serialize.drop 17).take 4) = e.command.length :=
    getUint_slice 4 (by simp [LogEntry.serialize, drop_append, drop_putUint]) hsize
  have hindex : getUint (e.serialize.take 8) = e.index :=
    getUint_slice 8 (by simp [LogEntry.serialize]) hfits.1
  have hterm : getUint ((e.serialize.drop 8).take 8) = e.term :=
    getUint_slice 8 (by simp [LogEntry.serialize]) hfits.2
  have htype : e.serialize.getD 16 0 = e.type := by
    simp [LogEntry.serialize, getD_eq_getElem?_getD, getElem?_append]
  have hcommand : (e.serialize.drop 21).take e.command.length = e.command := by
    simp [LogEntry.serialize, drop_append, drop_putUint]
  unfold deserializeLogEntry
  rw [if_neg (by rw [LogEntry.length_serialize]; omega)]
  rw [hlen, if_neg (by rw [LogEntry.length_serialize]; omega), hindex, hterm, htype, hcommand]

lemma deserializeLogEntry_serialize (hfits : e.Fits) (hsize : e.serialize.length ≤ maxRecord) :
    deserializeLogEntry e.serialize = .ok e := by
  rw [LogEntry.length_serialize, maxRecord] at hsize
  exact deserializeLogEntry_serialize_of_lt hfits (by omega)

/-- One record of the file. -/
def frame (e : LogEntry) : List UInt8 := putUint 4 e.serialize.length ++ e.serialize

def frames (records : List LogEntry) : List UInt8 := records.flatMap frame

lemma frames_append_singleton (records : List LogEntry) (e : LogEntry) :
    frames (records ++ [e]) = frames records ++ frame e := by
  simp [frames]

/-- `persistEntry` appends a record when the file is at its end. -/
lemma LogFile.persistEntry_eq {f : LogFile} (hpos : f.pos = f.bytes.length) (e : LogEntry) :
    f.persistEntry e = ⟨f.bytes ++ frame e, (f.bytes ++ frame e).length⟩ := by
  have hwrite : ∀ {f : LogFile} (data : List UInt8), f.pos = f.bytes.length →
      f.write data = ⟨f.bytes ++ data, (f.bytes ++ data).length⟩ := by
    intro f data hpos
    simp [LogFile.write, hpos, drop_of_length_le]
  rw [LogFile.persistEntry, hwrite _ hpos, hwrite _ rfl, frame, append_assoc]

/-- Replaying records that were written one after the other gives them back. -/
lemma readRecords_frames (hfuel : records.length ≤ fuel)
    (hok : ∀ e ∈ records, e.Fits ∧ e.serialize.length ≤ maxRecord) :
    readRecords fuel (frames records) pos = .ok (records, pos + (frames records).length) := by
  induction records generalizing fuel pos with
  | nil => cases fuel <;> simp [readRecords, frames]
  | cons e rest ih =>
    obtain ⟨hfits, hsize⟩ := hok e mem_cons_self
    obtain ⟨fuel, rfl⟩ : ∃ n, fuel = n + 1 := ⟨fuel - 1, by simp at hfuel; omega⟩
    have hlen : getUint (putUint 4 e.serialize.length) = e.serialize.length := by
      rw [getUint_putUint]
      exact Nat.mod_eq_of_lt (by unfold maxRecord at hsize; omega)
    have hrest : readRecords fuel (frames rest) (pos + 4 + e.serialize.length) =
        .ok (rest, pos + 4 + e.serialize.length + (frames rest).length) :=
      ih (by simpa using hfuel) fun other hmem => hok other (mem_cons_of_mem _ hmem)
    have hdata : frames (e :: rest) =
        putUint 4 e.serialize.length ++ (e.serialize ++ frames rest) := by simp [frames, frame]
    have htake : (frames (e :: rest)).take 4 = putUint 4 e.serialize.length := by simp [hdata]
    have hdrop : (frames (e :: rest)).drop 4 = e.serialize ++ frames rest := by simp [hdata]
    have htotal : (frames (e :: rest)).length = 4 + e.serialize.length + (frames rest).length := by
      rw [hdata]
      simp only [length_append, length_putUint]
      omega
    have hpos := e.length_serialize
    unfold readRecords
    rw [if_neg (by omega), if_neg (by omega)]
    rw [htake, hlen, if_neg (by unfold maxRecord at hsize; omega), hdrop,
      take_left,
      deserializeLogEntry_serialize hfits hsize, ← drop_drop, hdrop, drop_left]
    rw [hrest, htotal]
    simp [add_assoc]

lemma size_of_deserializeLogEntry (hread : deserializeLogEntry data = .ok e) :
    e.serialize.length ≤ data.length := by
  unfold deserializeLogEntry at hread
  split at hread
  · cases hread
  · dsimp only at hread
    split at hread
    · cases hread
    next hlong =>
      cases hread
      rw [LogEntry.length_serialize, length_take]
      omega

/-- Every record that was read is small. -/
lemma size_of_readRecords {stop : Nat} (hread : readRecords fuel data pos = .ok (records, stop)) :
    ∀ e ∈ records, e.serialize.length ≤ maxRecord := by
  induction fuel generalizing data pos stop records with
  | zero =>
    cases hread
    simp
  | succ fuel ih =>
    unfold readRecords at hread
    split at hread
    · cases hread
      simp
    · split at hread
      · cases hread
      · dsimp only at hread
        split at hread
        · cases hread
          simp
        next hsmall =>
          split at hread
          · cases hread
          · split at hread
            · cases hread
            next entry hentry =>
              split at hread
              · cases hread
              next rest end' hrest =>
                obtain ⟨rfl, _⟩ := Prod.mk.inj (Except.ok.inj hread)
                intro e he
                rcases mem_cons.mp he with rfl | hmem
                · have hsize := size_of_deserializeLogEntry hentry
                  rw [length_take] at hsize
                  unfold maxRecord
                  omega
                · exact ih hrest e hmem

/-! ## Replaying -/

/-- The entries carry their positions, counted from one. -/
def Numbered (records : List LogEntry) : Prop :=
  ∀ (i : Nat) (e : LogEntry), records[i]? = some e → e.index = i + 1

lemma numbered_append_singleton :
    Numbered (records ++ [e]) ↔ Numbered records ∧ e.index = records.length + 1 := by
  constructor
  · intro hnum
    refine ⟨fun i other hget => hnum i other ?_, hnum records.length e (by simp)⟩
    rw [List.getElem?_append_left (List.getElem?_eq_some_iff.mp hget).1, hget]
  · rintro ⟨hnum, hindex⟩ i other hget
    rw [List.getElem?_append] at hget
    split at hget
    · exact hnum i other hget
    next hge =>
      obtain ⟨hlt, rfl⟩ := List.getElem?_eq_some_iff.mp hget
      simp only [length_singleton] at hlt
      simp only [getElem_singleton]
      omega

lemma maxIndex_append_singleton (records : List LogEntry) (e : LogEntry) :
    maxIndex (records ++ [e]) = max (maxIndex records) e.index := by
  simp only [maxIndex, foldl_append, foldl_cons, foldl_nil]
  split <;> omega

lemma maxIndex_of_numbered (hnum : Numbered records) : maxIndex records = records.length := by
  induction records using reverseRecOn with
  | nil => rfl
  | append_singleton earlier e ih =>
    obtain ⟨hearlier, hindex⟩ := numbered_append_singleton.mp hnum
    rw [maxIndex_append_singleton, ih hearlier, hindex]
    simp

lemma entryMap_of_numbered (hnum : Numbered records) (i : Nat) :
    entryMap records (i + 1) = records[i]? := by
  induction records using reverseRecOn with
  | nil => rfl
  | append_singleton earlier e ih =>
    obtain ⟨hearlier, hindex⟩ := numbered_append_singleton.mp hnum
    have hmap : entryMap (earlier ++ [e]) =
        Function.update (entryMap earlier) e.index (some e) := by
      simp [entryMap, hindex]
    rw [hmap, hindex, Function.update_apply, getElem?_append, ih hearlier]
    rcases Nat.lt_trichotomy i earlier.length with hlt | rfl | hgt
    · rw [if_neg (by omega), if_pos hlt]
    · simp
    · rw [if_neg (by omega), if_neg (by omega), getElem?_eq_none (by omega),
        getElem?_eq_none (by simp; omega)]

lemma buildEntries_of_numbered (hnum : Numbered records) :
    buildEntries records = (dummyEntry :: records).map some := by
  rw [buildEntries, maxIndex_of_numbered hnum]
  congr 1
  refine ext_getElem? fun i => ?_
  rw [getElem?_map, getElem?_map]
  rcases lt_or_ge i records.length with hlt | hge
  · rw [getElem?_range hlt, Option.map_some, entryMap_of_numbered hnum,
      getElem?_eq_getElem hlt, Option.map_some]
  · rw [getElem?_eq_none (by simpa using hge), getElem?_eq_none hge]
    rfl

lemma of_entryMap {i : Nat} (hget : entryMap records i = some e) : e ∈ records ∧ e.index = i := by
  induction records using reverseRecOn with
  | nil => cases hget
  | append_singleton earlier last ih =>
    simp only [entryMap, foldl_append, foldl_cons, foldl_nil] at hget
    split at hget
    · rw [Function.update_apply] at hget
      split at hget
      next heq =>
        cases hget
        exact ⟨by simp, heq.symm⟩
      · exact (ih hget).imp_left (mem_append_left _)
    · exact (ih hget).imp_left (mem_append_left _)

lemma mem_of_buildEntries (hmem : some e ∈ buildEntries records) :
    e = dummyEntry ∨ e ∈ records := by
  simp only [buildEntries, mem_cons, Option.some.injEq, mem_map] at hmem
  rcases hmem with hdummy | ⟨i, _, hget⟩
  · exact Or.inl hdummy
  · exact Or.inr (of_entryMap hget).1

lemma length_buildEntries (records : List LogEntry) :
    (buildEntries records).length = maxIndex records + 1 := by
  simp [buildEntries]

/-! ## Calls -/

inductive LogOp
  | append (e : LogEntry)
  | truncateFrom (index : Nat)
  deriving DecidableEq, Repr

def LogOp.Fits : LogOp → Prop
  | .append e => e.Fits
  | .truncateFrom _ => True

def LogOp.run (l : RaftLog) : LogOp → RaftLog
  | .append e => l.append e
  | .truncateFrom index => l.truncateFrom index

/-- The slice a new process finds in the data directory. -/
def RaftLog.reopened (l : RaftLog) : Except LogError (List (Option LogEntry)) :=
  (newRaftLogWithDir ((l.file.map (·.bytes)).getD [])).map (·.entries)

/-- Reopening gives exactly the entries the log holds. -/
def RaftLog.Reopens (l : RaftLog) : Prop := l.reopened = .ok (l.entries.map some)

/-- The call keeps file and log in step: an append continues the numbering with a record that
can be read back, a truncation cuts nothing. -/
def KeepsStep (l : RaftLog) : LogOp → Prop
  | .append e => e.index = l.lastIndex + 1 ∧ e.serialize.length ≤ maxRecord
  | .truncateFrom index => l.entries.length ≤ index

def KeepsSteps : RaftLog → List LogOp → Prop
  | _, [] => True
  | l, op :: rest => KeepsStep l op ∧ KeepsSteps (op.run l) rest

/-- The log and its file hold the same numbered records. -/
structure InStep (l : RaftLog) (records : List LogEntry) : Prop where
  entries : l.entries = dummyEntry :: records
  file : l.file = some ⟨frames records, (frames records).length⟩
  numbered : Numbered records
  readable : ∀ e ∈ records, e.Fits ∧ e.serialize.length ≤ maxRecord

namespace InStep

variable {l : RaftLog} {records : List LogEntry} {op : LogOp}

lemma length_le_frames (records : List LogEntry) : records.length ≤ (frames records).length := by
  induction records with
  | nil => exact Nat.zero_le _
  | cons e rest ih =>
    have hcons : (frames (e :: rest)).length = (frame e).length + (frames rest).length := by
      simp [frames]
    rw [hcons, frame, length_append, length_cons, LogEntry.length_serialize]
    omega

lemma reopened_of_file {file : LogFile} (hfile : l.file = some file)
    (hbytes : file.bytes = frames records)
    (hreadable : ∀ e ∈ records, e.Fits ∧ e.serialize.length ≤ maxRecord) :
    l.reopened = .ok (buildEntries records) := by
  rw [reopened, hfile]
  simp only [Option.map_some, Option.getD_some, hbytes, newRaftLogWithDir,
    readRecords_frames (length_le_frames records) hreadable]
  rfl

lemma reopens (h : InStep l records) : l.Reopens := by
  rw [RaftLog.Reopens, reopened_of_file h.file rfl h.readable, buildEntries_of_numbered h.numbered,
    h.entries]

lemma append_file (h : InStep l records) (e : LogEntry) :
    (l.append e).file = some ⟨frames (records ++ [e]), (frames (records ++ [e])).length⟩ := by
  rw [append, h.file, Option.map_some, LogFile.persistEntry_eq rfl, frames_append_singleton]

lemma append (h : InStep l records) {e : LogEntry} (hfits : e.Fits)
    (hkeep : KeepsStep l (.append e)) : InStep (l.append e) (records ++ [e]) := by
  refine ⟨by simp [h.entries], h.append_file e, ?_, ?_⟩
  · have hlast := hkeep.1
    rw [lastIndex_eq (by simp [h.entries]), h.entries] at hlast
    exact numbered_append_singleton.mpr ⟨h.numbered, by simpa using hlast⟩
  · exact forall_mem_append.mpr ⟨h.readable, (forall_mem_singleton ..).mpr ⟨hfits, hkeep.2⟩⟩

/-- A log that holds a record too large to be read does not reopen. -/
lemma not_reopens_of_large {l : RaftLog} {e : LogEntry} (hmem : e ∈ l.entries)
    (hlarge : maxRecord < e.serialize.length) : ¬ l.Reopens := by
  intro hreopens
  unfold RaftLog.Reopens reopened newRaftLogWithDir at hreopens
  split at hreopens
  · cases hreopens
  next records pos hread =>
    have hentries : buildEntries records = l.entries.map some := Except.ok.inj hreopens
    have hsome : some e ∈ buildEntries records := hentries ▸ mem_map.mpr ⟨e, hmem, rfl⟩
    rcases mem_of_buildEntries hsome with rfl | hrecord
    · exact absurd hlarge (by decide)
    · exact absurd (size_of_readRecords hread e hrecord) (Nat.not_le_of_lt hlarge)

lemma keeps_of_reopens_append (h : InStep l records) {e : LogEntry} (hfits : e.Fits)
    (hreopens : (l.append e).Reopens) : KeepsStep l (.append e) := by
  have hsize : e.serialize.length ≤ maxRecord := by
    by_contra hlarge
    have hmem : e ∈ (l.append e).entries := by simp
    exact not_reopens_of_large hmem (Nat.lt_of_not_le hlarge) hreopens
  refine ⟨?_, hsize⟩
  have hreadable : ∀ other ∈ records ++ [e], other.Fits ∧ other.serialize.length ≤ maxRecord :=
    forall_mem_append.mpr ⟨h.readable, (forall_mem_singleton ..).mpr ⟨hfits, hsize⟩⟩
  -- the number of slots the replay builds is the highest index it has seen
  unfold RaftLog.Reopens at hreopens
  rw [reopened_of_file (h.append_file e) rfl hreadable] at hreopens
  have hlength := congrArg length (Except.ok.inj hreopens)
  rw [length_buildEntries, maxIndex_append_singleton, maxIndex_of_numbered h.numbered] at hlength
  rw [lastIndex_eq (by simp [h.entries])]
  simp only [append_entries, h.entries, length_map, length_append,
    length_cons, length_nil] at hlength ⊢
  omega

lemma keeps_of_reopens_truncateFrom (h : InStep l records) {index : Nat}
    (hreopens : (l.truncateFrom index).Reopens) : KeepsStep l (.truncateFrom index) := by
  have hfile : (l.truncateFrom index).file = some ⟨frames records, (frames records).length⟩ := by
    rw [truncateFrom_file, h.file]
  unfold RaftLog.Reopens at hreopens
  rw [reopened_of_file hfile rfl h.readable] at hreopens
  have hlength := congrArg length (Except.ok.inj hreopens)
  rw [length_buildEntries, maxIndex_of_numbered h.numbered] at hlength
  show l.entries.length ≤ index
  simp only [truncateFrom_entries, h.entries, length_map, length_take,
    length_cons] at hlength ⊢
  omega

lemma run (h : InStep l records) (hfits : op.Fits) (hkeep : KeepsStep l op) :
    ∃ records, InStep (op.run l) records := by
  cases op with
  | append e => exact ⟨_, h.append hfits hkeep⟩
  | truncateFrom index =>
    have hsame : l.truncateFrom index = l := if_neg (not_lt.mpr hkeep)
    exact ⟨records, by rw [LogOp.run, hsame]; exact h⟩

lemma keeps_of_reopens (h : InStep l records) (hfits : op.Fits) (hreopens : (op.run l).Reopens) :
    KeepsStep l op := by
  cases op with
  | append e => exact h.keeps_of_reopens_append hfits hreopens
  | truncateFrom index => exact h.keeps_of_reopens_truncateFrom hreopens

end InStep

lemma inStep_newInDir : InStep newInDir [] :=
  ⟨rfl, rfl, fun i e hget => by simp at hget, by simp⟩

/-- From a log in step with its file, reopening gives the log after every one of the calls
exactly when every call keeps the step. -/
lemma InStep.reopens_iff {l : RaftLog} {records : List LogEntry} (h : InStep l records)
    {ops : List LogOp} (hfits : ∀ op ∈ ops, op.Fits) :
    (∀ done, done <+: ops → (done.foldl LogOp.run l).Reopens) ↔ KeepsSteps l ops := by
  induction ops generalizing l records with
  | nil =>
    refine ⟨fun _ => trivial, fun _ done hdone => ?_⟩
    obtain rfl := prefix_nil.mp hdone
    exact h.reopens
  | cons op rest ih =>
    have hop := hfits op mem_cons_self
    have hrest : ∀ other ∈ rest, other.Fits := fun other hmem =>
      hfits other (mem_cons_of_mem _ hmem)
    constructor
    · intro hall
      have hkeep := h.keeps_of_reopens hop (hall [op] (by simp))
      obtain ⟨records', hnext⟩ := h.run hop hkeep
      refine ⟨hkeep, (ih hnext hrest).mp fun done hdone => ?_⟩
      exact hall (op :: done) (prefix_cons_inj op |>.mpr hdone)
    · rintro ⟨hkeep, hkeeps⟩ done hdone
      obtain ⟨records', hnext⟩ := h.run hop hkeep
      rcases done with _ | ⟨first, done⟩
      · exact h.reopens
      · obtain ⟨rfl, htail⟩ := cons_prefix_cons.mp hdone
        exact (ih hnext hrest).mpr hkeeps done htail

/-- On a log in a new data directory, reopening the directory gives exactly the entries of the
log after every one of a sequence of calls if and only if every append continues the
numbering with a record of at most 10 MiB and every truncation cuts nothing. -/
theorem log_persistence (ops : List LogOp) (hfits : ∀ op ∈ ops, op.Fits) :
    (∀ done, done <+: ops → (done.foldl LogOp.run RaftLog.newInDir).Reopens) ↔
      KeepsSteps RaftLog.newInDir ops :=
  inStep_newInDir.reopens_iff hfits

/-- Two appends of a leader of term 1. -/
def twoAppends : List LogOp :=
  [.append ⟨1, 1, logEntryNoop, []⟩, .append ⟨2, 1, logEntryCommand, [7]⟩]

theorem log_persistence_twoAppends :
    (∀ op ∈ twoAppends, op.Fits) ∧ KeepsSteps RaftLog.newInDir twoAppends ∧
      (twoAppends.foldl LogOp.run RaftLog.newInDir).Reopens := by
  have hfits : ∀ op ∈ twoAppends, op.Fits := by
    simp [twoAppends, LogOp.Fits, LogEntry.Fits]
  have hkeeps : KeepsSteps RaftLog.newInDir twoAppends :=
    ⟨⟨rfl, by decide⟩, ⟨rfl, by decide⟩, trivial⟩
  exact ⟨hfits, hkeeps, (log_persistence twoAppends hfits).mpr hkeeps _ (prefix_refl _)⟩

/-- A follower cuts the second entry off, and the file brings it back. -/
theorem truncated_entry_returns :
    let l := (twoAppends ++ [LogOp.truncateFrom 2]).foldl LogOp.run RaftLog.newInDir
    l.entries = [dummyEntry, ⟨1, 1, logEntryNoop, []⟩] ∧
      l.reopened = .ok [some dummyEntry, some ⟨1, 1, logEntryNoop, []⟩,
        some ⟨2, 1, logEntryCommand, [7]⟩] := by
  decide

end Oba.Raft
