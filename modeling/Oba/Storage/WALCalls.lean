import Oba.Storage.WALRefinement

/-! # Runs of the log

A run of `Append`, `Sync` and `Truncate` calls, followed by closing and opening the log again,
leaves the records that were appended and not truncated. A record that does not fit the
buffer ends the run, and a log without records starts again with the first LSN.
-/

namespace Oba.Storage

open List

inductive WALCall
  | append (record : WALRecord)
  | sync
  | truncate (lsn : Nat)

def WALCall.isAppend : WALCall → Bool
  | .append _ => true
  | _ => false

def WAL.call (w : WAL) : WALCall → Except WALFault WAL
  | .append record => (w.append record).map Prod.snd
  | .sync => w.sync
  | .truncate lsn => w.truncate lsn

/-- The calls one after the other; the first one that fails ends the run. -/
def WAL.run (w : WAL) : List WALCall → Except WALFault WAL
  | [] => .ok w
  | c :: rest =>
    match w.call c with
    | .error fault => .error fault
    | .ok w => w.run rest

/-- What a log is meant to be: the records that are kept, and the LSN of the next one. -/
structure RecordList where
  kept : List WALRecord
  next : Nat

def RecordList.call (l : RecordList) : WALCall → RecordList
  | .append record => ⟨l.kept ++ [record.sealedAt l.next], l.next + 1⟩
  | .sync => l
  | .truncate lsn => ⟨l.kept.filter fun r => lsn < r.lsn, l.next⟩

def RecordList.run (l : RecordList) (calls : List WALCall) : RecordList :=
  calls.foldl RecordList.call l

def recordList (calls : List WALCall) : RecordList := RecordList.run ⟨[], 1⟩ calls

/-- The LSN of the first record that is kept. -/
def RecordList.first (l : RecordList) : Nat := (l.kept.head?.map WALRecord.lsn).getD 1

/-- After the calls, the log can be closed; the log that is opened then has exactly the records
of the list and goes on with the LSN of the list. -/
def Reopens (calls : List WALCall) : Prop :=
  ∃ w file, (openWAL []).run calls = .ok w ∧ w.close = .ok file ∧
    (openWAL file).iterate (recordList calls).first = .ok (recordList calls).kept ∧
    (openWAL file).currentLSN = (recordList calls).next

/-! ## One call -/

/-- A log stands for a list. -/
structure WAL.Represents (w : WAL) (l : RecordList) : Prop where
  holds : w.Holds l.kept
  next : w.currentLSN = l.next

/-- The buffer holds more than there is room for. -/
def WAL.Overfull (w : WAL) : Prop := walBufferSize < w.buffer.length

variable {w w' : WAL} {l : RecordList} {calls : List WALCall}

/-- A call does what it does to the list. -/
lemma WAL.Represents.call (hw : w.Represents l) {c : WALCall} (hlsn : l.next < 256 ^ 8)
    (hsize : ∀ r, c = .append r → r.Buffered) :
    ∃ w', w.call c = .ok w' ∧ w'.Represents (l.call c) := by
  obtain ⟨hholds, hnext⟩ := hw
  cases c with
  | append record =>
    have hbuffered := hsize record rfl
    obtain ⟨w', happend, hholds', hnext'⟩ :=
      hholds.append (WAL.accepted_of_buffered hbuffered) (hnext ▸ hlsn) hbuffered
    refine ⟨w', ?_, ?_, ?_⟩
    · rw [WAL.call, happend, Except.map]
    · rw [RecordList.call, ← hnext]
      exact hholds'
    · rw [hnext', hnext, RecordList.call]
  | sync =>
    refine ⟨w.flushed, WAL.flushBuffer_eq hholds.buffer, hholds.flushed, hnext⟩
  | truncate lsn =>
    obtain ⟨htruncate, hholds'⟩ := hholds.truncate lsn
    exact ⟨_, htruncate, hholds', (WAL.currentLSN_dropUpTo _ _).trans hnext⟩

/-- A record that does not fit leaves more in the buffer than there is room for. -/
lemma WAL.Holds.overfull_append {rs : List WALRecord} {record : WALRecord} (hw : w.Holds rs)
    (hsize : ¬ record.Buffered) (hcall : w.call (.append record) = .ok w') : w'.Overfull := by
  by_cases haccepted : WAL.Accepted record
  · rw [WAL.call, WAL.append_eq haccepted hw.buffer] at hcall
    cases hcall
    rw [WAL.Overfull, WAL.appended, length_append, WALRecord.length_frame]
    exact lt_of_lt_of_le (not_le.mp hsize) (Nat.le_add_left _ _)
  · rw [WAL.call, WAL.append_dataTooLarge haccepted] at hcall
    cases hcall

/-- An overfull buffer can be written neither by a call nor by closing the log. -/
lemma WAL.Overfull.call (hfull : w.Overfull) (c : WALCall) : w.call c ≠ .ok w' := by
  have hpanic : w.flushBuffer = .error .panic := WAL.flushBuffer_panics hfull
  cases c with
  | append record =>
    have hflush : ∀ n, w.buffer.length + n > walBufferSize := fun n =>
      lt_of_lt_of_le hfull (Nat.le_add_right _ _)
    intro hcall
    rw [WAL.call, WAL.append] at hcall
    split at hcall
    · cases hcall
    · rw [if_pos (hflush _), hpanic] at hcall
      cases hcall
  | sync =>
    intro hcall
    rw [WAL.call, WAL.sync, hpanic] at hcall
    cases hcall
  | truncate lsn =>
    intro hcall
    rw [WAL.call, WAL.truncate, hpanic] at hcall
    cases hcall

/-! ## Runs -/

lemma nextLSN_append {before after : List WALRecord} (hne : after ≠ []) :
    nextLSN (before ++ after) = nextLSN after := by
  obtain ⟨last, hlast⟩ := getLast?_isSome.mpr hne |> Option.isSome_iff_exists.mp
  rw [nextLSN, nextLSN, getLast?_append, hlast, Option.some_or]

/-- A list that keeps a record keeps the last one, whose LSN is the last that was assigned. -/
def RecordList.Tight (l : RecordList) : Prop := l.kept ≠ [] → nextLSN l.kept = l.next

lemma RecordList.Tight.call (htight : l.Tight) (hgrowing : Growing l.kept) (c : WALCall) :
    (l.call c).Tight := by
  cases c with
  | append record =>
    intro _
    rw [RecordList.call, nextLSN_append (cons_ne_nil _ _)]
    rfl
  | sync => exact htight
  | truncate lsn =>
    intro hkept
    obtain ⟨dropped, hsplit, -⟩ := hgrowing.split lsn
    have hne : l.kept ≠ [] := by
      rw [hsplit]
      exact append_ne_nil_of_right_ne_nil _ hkept
    calc nextLSN (l.kept.filter fun r => lsn < r.lsn)
        = nextLSN (dropped ++ l.kept.filter fun r => lsn < r.lsn) := (nextLSN_append hkept).symm
      _ = nextLSN l.kept := by rw [← hsplit]
      _ = l.next := htight hne

lemma RecordList.next_call_le (l : RecordList) (c : WALCall) : (l.call c).next ≤ l.next + 1 := by
  cases c with
  | append record => exact le_rfl
  | sync | truncate => exact Nat.le_succ _

/-- A run whose records all fit does what it does to the list. -/
lemma WAL.Represents.run (hw : w.Represents l) (htight : l.Tight)
    (hcount : l.next + calls.length ≤ 256 ^ 8)
    (hsize : ∀ r, WALCall.append r ∈ calls → r.Buffered) :
    ∃ w', w.run calls = .ok w' ∧ w'.Represents (l.run calls) ∧ (l.run calls).Tight := by
  induction calls generalizing w l with
  | nil => exact ⟨w, rfl, hw, htight⟩
  | cons c rest ih =>
    rw [length_cons] at hcount
    obtain ⟨w', hcall, hw'⟩ := hw.call (by omega) fun r hr => hsize r (hr ▸ mem_cons_self)
    have hnext := l.next_call_le c
    rw [WAL.run, hcall]
    exact ih hw' (htight.call hw.holds.stored.growing c) (by omega)
      fun r hr => hsize r (mem_cons_of_mem _ hr)

/-- A run after which the log can be closed has appended only records that fit. -/
lemma WAL.Represents.buffered_of_run {file : Bytes} (hw : w.Represents l)
    (hcount : l.next + calls.length ≤ 256 ^ 8) (hrun : w.run calls = .ok w')
    (hclose : w'.close = .ok file) : ∀ r, WALCall.append r ∈ calls → r.Buffered := by
  induction calls generalizing w l with
  | nil => exact fun r hr => absurd hr not_mem_nil
  | cons c rest ih =>
    rw [length_cons] at hcount
    rw [WAL.run] at hrun
    split at hrun
    · cases hrun
    next next hcall =>
      have hfirst : ∀ r, c = .append r → r.Buffered := by
        rintro r rfl
        by_contra hsize
        have hfull : next.Overfull := hw.holds.overfull_append hsize hcall
        cases rest with
        | nil =>
          cases hrun
          rw [WAL.close, WAL.flushBuffer_panics hfull] at hclose
          cases hclose
        | cons c' rest =>
          rw [WAL.run] at hrun
          split at hrun
          · cases hrun
          next heq => exact hfull.call c' heq
      obtain ⟨_, hcall', hw'⟩ := hw.call (by omega) hfirst
      cases hcall'.symm.trans hcall
      have hnext := l.next_call_le c
      intro r hr
      rcases mem_cons.mp hr with heq | hrest
      · exact hfirst r heq.symm
      · exact ih hw' (by omega) hrun r hrest

lemma openWAL_represents : (openWAL []).Represents ⟨[], 1⟩ := by
  have hstored : Stored [] := ⟨List.Pairwise.nil, forall_mem_nil _, forall_mem_nil _⟩
  exact ⟨hstored.holds_openWAL, rfl⟩

/-- The LSN of the list grows by one with every record. -/
lemma RecordList.next_run (l : RecordList) (calls : List WALCall) :
    (l.run calls).next = l.next + calls.countP WALCall.isAppend := by
  induction calls generalizing l with
  | nil => rfl
  | cons c rest ih =>
    rw [RecordList.run, foldl_cons, ← RecordList.run, ih, countP_cons]
    cases c <;> simp [RecordList.call, WALCall.isAppend, add_comm, Nat.add_left_comm]

lemma WAL.Represents.close_eq (hw : w.Represents l) :
    w.close = .ok (l.kept.flatMap WALRecord.frame) := by
  rw [WAL.close, WAL.flushBuffer_eq hw.holds.buffer, ← hw.holds.bytes]
  rfl

/-- What a log that represents a list leaves behind. -/
lemma WAL.Represents.close (hw : w.Represents l) :
    ∃ file, w.close = .ok file ∧ (openWAL file).Holds l.kept ∧
      (openWAL file).currentLSN = nextLSN l.kept := by
  have hstored := hw.holds.stored
  refine ⟨_, hw.close_eq, hstored.holds_openWAL, ?_⟩
  rw [hstored.openWAL_eq]

lemma Growing.first_le (hgrowing : Growing l.kept) : ∀ r ∈ l.kept, l.first ≤ r.lsn := by
  intro r hr
  unfold RecordList.first
  cases hkept : l.kept with
  | nil => rw [hkept] at hr; exact absurd hr not_mem_nil
  | cons head rest =>
    rw [hkept] at hgrowing hr
    rcases mem_cons.mp hr with rfl | hrest
    · exact le_rfl
    · exact Nat.le_of_lt ((pairwise_cons.mp hgrowing).1 r hrest)

lemma Reopens.buffered (hcount : calls.length < 256 ^ 8) (h : Reopens calls) :
    ∀ r, WALCall.append r ∈ calls → r.Buffered := by
  obtain ⟨w, file, hrun, hclose, -, -⟩ := h
  exact openWAL_represents.buffered_of_run (by dsimp only; omega) hrun hclose

lemma Reopens.kept_eq_nil (hcount : calls.length < 256 ^ 8) (h : Reopens calls)
    (hkept : (recordList calls).kept = []) : ∀ r, WALCall.append r ∉ calls := by
  have hsize := h.buffered hcount
  obtain ⟨w, file, hrun, hclose, -, hcurrent⟩ := h
  obtain ⟨w', hrun', hw', -⟩ := openWAL_represents.run (fun hne => absurd rfl hne)
    (by dsimp only; omega) hsize
  cases hrun.symm.trans hrun'
  obtain ⟨file', hclose', -, hreopened⟩ := hw'.close
  cases hclose.symm.trans hclose'
  have hone : 1 + calls.countP WALCall.isAppend = 1 :=
    calc 1 + calls.countP WALCall.isAppend
        = (recordList calls).next := (RecordList.next_run ⟨[], 1⟩ calls).symm
      _ = nextLSN (recordList calls).kept := hcurrent.symm.trans hreopened
      _ = 1 := by rw [hkept]; rfl
  intro r hr
  have hpos : 0 < calls.countP WALCall.isAppend := countP_pos_iff.mpr ⟨_, hr, rfl⟩
  omega

lemma reopens_of_buffered (hcount : calls.length < 256 ^ 8)
    (hsize : ∀ r, WALCall.append r ∈ calls → r.Buffered)
    (hkept : (recordList calls).kept = [] → ∀ r, WALCall.append r ∉ calls) : Reopens calls := by
  obtain ⟨w, hrun, hw, hlast⟩ := openWAL_represents.run (fun hne => absurd rfl hne)
    (by dsimp only; omega) hsize
  obtain ⟨file, hclose, hholds, hcurrent⟩ := hw.close
  refine ⟨w, file, hrun, hclose, ?_, ?_⟩
  · rw [hholds.iterate, ← recordList, filter_eq_self.mpr]
    exact fun r hr => decide_eq_true (hholds.stored.growing.first_le r hr)
  · rw [hcurrent]
    by_cases hempty : (recordList calls).kept = []
    · have hnone : calls.countP WALCall.isAppend = 0 := by
        rw [countP_eq_zero]
        intro c hc happend
        cases c with
        | append r => exact hkept hempty r hc
        | sync | truncate => cases happend
      calc nextLSN (recordList calls).kept = 1 := by rw [hempty]; rfl
        _ = (recordList calls).next := by rw [recordList, RecordList.next_run, hnone]
    · exact hlast hempty

/-- A log that is closed after a run and opened again has the records that were appended and
not truncated, and goes on numbering them, if and only if every record fits the buffer and the
last record has not been truncated. -/
theorem wal_refines_list (calls : List WALCall) (hcount : calls.length < 2 ^ 64) :
    Reopens calls ↔ (∀ r, WALCall.append r ∈ calls → r.Buffered) ∧
      ((recordList calls).kept = [] → ∀ r, WALCall.append r ∉ calls) := by
  constructor
  · exact fun h => ⟨h.buffered hcount, h.kept_eq_nil hcount⟩
  · exact fun ⟨hsize, hkept⟩ => reopens_of_buffered hcount hsize hkept

/-- A transaction with one update whose begin record is truncated. -/
def truncatedTransaction : List WALCall :=
  [.append (newWALRecord 0 1 walBegin), .append (newWALUpdateRecord 0 1 1 0 [0] [7]), .sync,
    .append (newWALRecord 0 1 walCommit), .truncate 1]

lemma buffered_truncatedTransaction :
    ∀ r, WALCall.append r ∈ truncatedTransaction → r.Buffered := by
  intro r hr
  simp only [truncatedTransaction, mem_cons, WALCall.append.injEq, reduceCtorEq, false_or,
    not_mem_nil, or_false] at hr
  rcases hr with rfl | rfl | rfl <;> decide

theorem wal_refines_list_transaction : Reopens truncatedTransaction := by
  refine (wal_refines_list truncatedTransaction (by decide)).mpr
    ⟨buffered_truncatedTransaction, fun hkept => ?_⟩
  simp [truncatedTransaction, recordList, RecordList.run, RecordList.call,
    WALRecord.sealedAt] at hkept

/-- The open log gives the kept records from any LSN on, with those in the buffer. -/
theorem open_log_iterates (calls : List WALCall) (hcount : calls.length < 2 ^ 64)
    (hsize : ∀ r, WALCall.append r ∈ calls → r.Buffered) (start : Nat) :
    ∃ w, (openWAL []).run calls = .ok w ∧ w.currentLSN = (recordList calls).next ∧
      w.iterate start = .ok ((recordList calls).kept.filter fun r => start ≤ r.lsn) := by
  obtain ⟨w, hrun, hw, -⟩ := openWAL_represents.run (fun hne => absurd rfl hne)
    (by dsimp only; omega) hsize
  exact ⟨w, hrun, hw.next, hw.holds.iterate start⟩

theorem open_log_iterates_transaction : ∃ w,
    (openWAL []).run truncatedTransaction = .ok w ∧ w.currentLSN = 4 ∧
      w.iterate 1 = .ok [(newWALUpdateRecord 0 1 1 0 [0] [7]).sealedAt 2,
        (newWALRecord 0 1 walCommit).sealedAt 3] :=
  open_log_iterates truncatedTransaction (by decide) buffered_truncatedTransaction 1

lemma WALRecord.Buffered.images_le {r : WALRecord} (h : r.Buffered) :
    r.oldData.length + r.newData.length ≤ 65497 := by
  unfold WALRecord.Buffered WALRecord.size walBufferSize walRecordHeaderSize at h
  omega

/-- An update with images of 40000 bytes each, which `Append` accepts. -/
def largeUpdate : WALRecord :=
  newWALUpdateRecord 0 1 1 0 (List.replicate 40000 0) (List.replicate 40000 7)

/-- A record that does not fit the buffer cannot be written out. A log that was emptied starts
again with the first LSN. -/
theorem wal_not_reopened : ¬ Reopens [.append largeUpdate] ∧
    ¬ Reopens [.append (newWALRecord 0 1 walBegin), .truncate 1] := by
  constructor
  · intro h
    have himages := (h.buffered (by decide) largeUpdate mem_cons_self).images_le
    have hold : largeUpdate.oldData.length = 40000 := by
      rw [largeUpdate, newWALUpdateRecord, length_replicate]
    have hnew : largeUpdate.newData.length = 40000 := by
      rw [largeUpdate, newWALUpdateRecord, length_replicate]
    omega
  · intro h
    exact h.kept_eq_nil (by decide) rfl _ mem_cons_self

end Oba.Storage
