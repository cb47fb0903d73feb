import Oba.Storage.WALCalls

/-! # A log that was cut off

A crash may leave any front of the bytes that were written. Opening such a file keeps the
records that are there as a whole and drops the rest, and the log goes on behind them.
-/

namespace Oba.Storage

open ByteCodec List WALRecord

variable {rs kept : List WALRecord} {w : WAL}

/-- A frame that is cut off is not read. -/
lemma WALRecord.readFrame_take {r : WALRecord} (hsize : r.Buffered) {n : Nat}
    (hn : n < r.frame.length) : readFrame (r.frame.take n) = none := by
  have hlt : r.size < 256 ^ 4 := by
    unfold Buffered walBufferSize at hsize
    omega
  rw [length_frame] at hn
  unfold readFrame frame putBlock
  by_cases hshort : n < 4
  · have hread : readUint 4 ((putUint 4 (r.encode r.checksum).length ++
        r.encode r.checksum).take n) = none := by
      rw [readUint, readBytes, if_pos]
      · rfl
      · rw [length_take]
        omega
    rw [hread]
    rfl
  · have htake : (putUint 4 (r.encode r.checksum).length ++ r.encode r.checksum).take n =
        putUint 4 (r.encode r.checksum).length ++ (r.encode r.checksum).take (n - 4) := by
      rw [take_append, take_of_length_le (by rw [length_putUint]; omega), length_putUint]
    have hread : readBytes r.size ((r.encode r.checksum).take (n - 4)) = none := by
      rw [readBytes, if_pos]
      rw [length_take]
      omega
    rw [htake]
    simp only [readUint_putUint, length_encode, Nat.mod_eq_of_lt hlt, Option.bind_eq_bind,
      Option.bind_some, hread, ite_self]

/-- `kept` is the longest front of `rs` whose frames lie in the file as a whole. -/
structure LongestWhole (file : Bytes) (rs kept : List WALRecord) : Prop where
  front : kept <+: rs
  whole : kept.flatMap WALRecord.frame <+: file
  longest : ∀ other, other <+: rs → other.flatMap WALRecord.frame <+: file → other <+: kept

/-- A front of the frames is whole frames and at most a part of one more. -/
lemma exists_longestWhole (hbuffered : ∀ r ∈ rs, r.Buffered) {file : Bytes}
    (hfile : file <+: rs.flatMap frame) :
    ∃ kept torn, LongestWhole file rs kept ∧ file = kept.flatMap frame ++ torn ∧
      readFrame torn = none := by
  induction rs generalizing file with
  | nil =>
    obtain rfl := prefix_nil.mp hfile
    refine ⟨[], [], ⟨prefix_rfl, prefix_rfl, fun other hother _ => hother⟩, rfl, rfl⟩
  | cons r rest ih =>
    obtain ⟨hr, hrest⟩ := forall_mem_cons.mp hbuffered
    by_cases hlength : r.frame.length ≤ file.length
    · obtain ⟨tail, rfl⟩ : r.frame <+: file :=
        prefix_of_prefix_length_le (prefix_append _ _) hfile hlength
      obtain ⟨kept, torn, hkept, rfl, htorn⟩ := ih hrest ((prefix_append_right_inj _).mp hfile)
      refine ⟨r :: kept, torn, ⟨?_, ?_, ?_⟩, by simp, htorn⟩
      · exact (prefix_cons_inj r).mpr hkept.front
      · exact (prefix_append_right_inj _).mpr hkept.whole
      · intro other hother hwhole
        cases other with
        | nil => exact nil_prefix
        | cons first other =>
          obtain ⟨rfl, hfront⟩ := cons_prefix_cons.mp hother
          exact (prefix_cons_inj first).mpr
            (hkept.longest other hfront ((prefix_append_right_inj _).mp hwhole))
    · have htorn : file = r.frame.take file.length := by
        have hfront := prefix_of_prefix_length_le hfile (prefix_append _ _)
          (Nat.le_of_not_le hlength)
        exact prefix_iff_eq_take.mp hfront
      refine ⟨[], file, ⟨ nil_prefix, nil_prefix, ?_⟩, rfl, ?_⟩
      · intro other hother hwhole
        cases other with
        | nil => exact prefix_rfl
        | cons first other =>
          obtain ⟨rfl, -⟩ := cons_prefix_cons.mp hother
          have hle := ((prefix_append _ _).trans hwhole).length_le
          exact absurd hle hlength
      · rw [htorn]
        exact readFrame_take hr (Nat.lt_of_not_le hlength)

/-! ## Going on behind the cut -/

/-- Records as they are written one after the other, the first of them with the given LSN. -/
def sealedFrom : Nat → List WALRecord → List WALRecord
  | _, [] => []
  | lsn, r :: rest => r.sealedAt lsn :: sealedFrom (lsn + 1) rest

lemma sealedFrom_append (lsn : Nat) (before after : List WALRecord) :
    sealedFrom lsn (before ++ after) =
      sealedFrom lsn before ++ sealedFrom (lsn + before.length) after := by
  induction before generalizing lsn with
  | nil => rfl
  | cons r before ih =>
    simp only [cons_append, sealedFrom, ih, length_cons, add_assoc, add_comm 1]

lemma length_sealedFrom (lsn : Nat) (rs : List WALRecord) :
    (sealedFrom lsn rs).length = rs.length := by
  induction rs generalizing lsn with
  | nil => rfl
  | cons r rest ih => simp [sealedFrom, ih]

lemma nextLSN_sealedFrom (rs : List WALRecord) : nextLSN (sealedFrom 1 rs) = rs.length + 1 := by
  cases rs using reverseRecOn with
  | nil => rfl
  | append_singleton before r =>
    simp [sealedFrom_append, sealedFrom, nextLSN, sealedAt, add_comm]

/-- A front of written records is written records. -/
lemma eq_sealedFrom_of_front (hfront : kept <+: sealedFrom 1 rs) :
    kept = sealedFrom 1 (rs.take kept.length) := by
  have hle := hfront.length_le
  rw [length_sealedFrom] at hle
  have hlength : (sealedFrom 1 (rs.take kept.length)).length = kept.length := by
    rw [length_sealedFrom, length_take, min_eq_left hle]
  have hsplit := sealedFrom_append 1 (rs.take kept.length) (rs.drop kept.length)
  rw [take_append_drop] at hsplit
  calc kept = (sealedFrom 1 rs).take kept.length := prefix_iff_eq_take.mp hfront
    _ = sealedFrom 1 (rs.take kept.length) := by rw [hsplit, take_left' hlength]

lemma nextLSN_of_front (hfront : kept <+: sealedFrom 1 rs) : nextLSN kept = kept.length + 1 := by
  have hnext := nextLSN_sealedFrom (rs.take kept.length)
  rw [← eq_sealedFrom_of_front hfront, length_take, min_eq_left] at hnext
  · exact hnext
  · rw [← length_sealedFrom 1 rs]
    exact hfront.length_le

lemma RecordList.run_appends (l : RecordList) (rs : List WALRecord) :
    l.run (rs.map .append) = ⟨l.kept ++ sealedFrom l.next rs, l.next + rs.length⟩ := by
  induction rs generalizing l with
  | nil => simp [RecordList.run, sealedFrom]
  | cons r rest ih =>
    have hrest := ih (l.call (.append r))
    rw [RecordList.run] at hrest ⊢
    rw [map_cons, foldl_cons, hrest]
    simp [RecordList.call, sealedFrom, add_comm, Nat.add_left_comm]

/-- Appending to a log that stands for a list of records. -/
lemma WAL.Represents.appends {l : RecordList} (hw : w.Represents l) (htight : l.Tight)
    (hcount : l.next + rs.length ≤ 256 ^ 8) (hfits : ∀ r ∈ rs, r.Buffered) :
    ∃ w', w.run (rs.map .append) = .ok w' ∧
      w'.close = .ok ((l.kept ++ sealedFrom l.next rs).flatMap frame) ∧
      Stored (l.kept ++ sealedFrom l.next rs) := by
  have hsize : ∀ r, WALCall.append r ∈ rs.map WALCall.append → r.Buffered := by simpa using hfits
  obtain ⟨w', hrun, hw', -⟩ := hw.run htight (by simpa using hcount) hsize
  rw [RecordList.run_appends] at hw'
  exact ⟨w', hrun, hw'.close_eq, hw'.holds.stored⟩

/-- Reading a log from the first LSN on gives all its records. -/
lemma WAL.Holds.iterate_one (hw : w.Holds rs) (hpositive : ∀ r ∈ rs, 1 ≤ r.lsn) :
    w.iterate 1 = .ok rs := by
  rw [hw.iterate, filter_eq_self.mpr]
  intro r hr
  exact decide_eq_true (hpositive r hr)

lemma one_le_lsn_sealedFrom {lsn : Nat} (hlsn : 1 ≤ lsn) (rs : List WALRecord) :
    ∀ r ∈ sealedFrom lsn rs, 1 ≤ r.lsn := by
  induction rs generalizing lsn with
  | nil => simp [sealedFrom]
  | cons r rest ih =>
    exact forall_mem_cons.mpr ⟨hlsn, ih (Nat.le_succ_of_le hlsn)⟩

/-- Records that fit the buffer are appended to a fresh log. Whatever front of its file is left,
opening it gives a log with the longest front of whole records, which numbers the records that
are appended to it from there on and has all of them when it is opened again. -/
theorem torn_tail (appended later : List WALRecord)
    (hcount : appended.length + later.length < 2 ^ 64) (hfits : ∀ r ∈ appended, r.Buffered)
    (hlater : ∀ r ∈ later, r.Buffered) :
    ∃ w file, (openWAL []).run (appended.map .append) = .ok w ∧ w.close = .ok file ∧
      ∀ front, front <+: file → ∃ kept, LongestWhole front (sealedFrom 1 appended) kept ∧
        (openWAL front).iterate 1 = .ok kept ∧ (openWAL front).currentLSN = kept.length + 1 ∧
        ∃ w' file', (openWAL front).run (later.map .append) = .ok w' ∧ w'.close = .ok file' ∧
          (openWAL file').iterate 1 = .ok (kept ++ sealedFrom (kept.length + 1) later) := by
  obtain ⟨w, hrun, hclose, hstored⟩ := openWAL_represents.appends (fun hne => absurd rfl hne)
    (by dsimp only; omega) hfits
  refine ⟨w, _, hrun, hclose, fun front hfront => ?_⟩
  obtain ⟨kept, torn, hwhole, rfl, htorn⟩ := exists_longestWhole hstored.buffered hfront
  have hkept : Stored kept := hstored.sublist hwhole.front.sublist
  have hopen : openWAL (kept.flatMap WALRecord.frame ++ torn) =
      openWAL (kept.flatMap WALRecord.frame) := by
    rw [hkept.openWAL_torn htorn, hkept.openWAL_eq]
  have hcurrent : (openWAL (kept.flatMap WALRecord.frame)).currentLSN = kept.length + 1 := by
    rw [hkept.openWAL_eq]
    exact nextLSN_of_front hwhole.front
  have hrepresents : (openWAL (kept.flatMap WALRecord.frame)).Represents
      ⟨kept, kept.length + 1⟩ := ⟨hkept.holds_openWAL, hcurrent⟩
  have hlength : kept.length ≤ appended.length := by
    rw [← length_sealedFrom 1 appended]
    exact hwhole.front.length_le
  have hfirst : ∀ r ∈ kept, 1 ≤ r.lsn := fun r hr =>
    one_le_lsn_sealedFrom le_rfl appended r (hwhole.front.subset hr)
  obtain ⟨w', hrun', hclose', hstored'⟩ := hrepresents.appends
    (fun _ => nextLSN_of_front hwhole.front) (by dsimp only; omega) hlater
  rw [hopen]
  refine ⟨kept, hwhole, hkept.holds_openWAL.iterate_one hfirst, hcurrent, w', _, hrun', hclose',
    hstored'.holds_openWAL.iterate_one ?_⟩
  exact forall_mem_append.mpr ⟨hfirst, one_le_lsn_sealedFrom (Nat.le_add_left 1 _) later⟩

/-- A transaction of one update. -/
def oneUpdate : List WALRecord :=
  [newWALRecord 0 1 walBegin, newWALUpdateRecord 0 1 1 0 [0] [7], newWALRecord 0 1 walCommit]

theorem torn_tail_oneUpdate :
    ∃ w file, (openWAL []).run (oneUpdate.map .append) = .ok w ∧
      w.close = .ok file ∧
      ∀ front, front <+: file → ∃ kept,
        LongestWhole front (sealedFrom 1 oneUpdate) kept ∧
        (openWAL front).iterate 1 = .ok kept ∧ (openWAL front).currentLSN = kept.length + 1 ∧
        ∃ w' file', (openWAL front).run (oneUpdate.map .append) = .ok w' ∧
          w'.close = .ok file' ∧
          (openWAL file').iterate 1 = .ok (kept ++ sealedFrom (kept.length + 1) oneUpdate) :=
  torn_tail oneUpdate oneUpdate (by decide) (by decide) (by decide)

end Oba.Storage
