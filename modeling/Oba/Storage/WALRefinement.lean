import Mathlib.Data.List.Induction
import Oba.Storage.WAL

/-! # The log as a list of records

A log holds a list of records with growing LSNs: their frames are the bytes of the file and
of the buffer, and the index lists their places. Every call keeps this for the list that it
is meant to leave, as long as no record is longer than the buffer.
-/

namespace Oba.Storage

open ByteCodec UnorderedMap OrderedMap List Option WALRecord

lemma readFrame_nil : readFrame [] = none := rfl

namespace WALRecord

/-- A record behind its length. -/
def frame (r : WALRecord) : Bytes := putBlock 4 (r.encode r.checksum)

/-- The record as it is written with an LSN. -/
def sealedAt (r : WALRecord) (lsn : Nat) : WALRecord :=
  { r with lsn := lsn, checksum := { r with lsn := lsn }.calculateChecksum }

/-- The record fits the buffer with its length in front. -/
def Buffered (r : WALRecord) : Prop := 4 + r.size ≤ walBufferSize

instance (r : WALRecord) : Decidable r.Buffered := inferInstanceAs (Decidable (_ ≤ _))

lemma length_frame (r : WALRecord) : r.frame.length = 4 + r.size := by
  rw [frame, length_putBlock, length_encode]

lemma readFrame_frame {r : WALRecord} (hsize : r.Buffered) (rest : Bytes) :
    readFrame (r.frame ++ rest) = some (r.encode r.checksum, rest) := by
  have hlt : r.size < 256 ^ 4 := by
    unfold Buffered walBufferSize at hsize
    omega
  have hpos : r.size ≠ 0 := by
    unfold size walRecordHeaderSize
    omega
  have hread := readBytes_append (r.encode r.checksum) rest
  rw [length_encode] at hread
  unfold readFrame frame putBlock
  simp only [append_assoc, readUint_putUint, length_encode, Nat.mod_eq_of_lt hlt, hpos, hread,
    if_false, bind_eq_bind, bind_some]

end WALRecord

/-- The LSNs of records and the places of their frames, from an offset on. -/
def places : Nat → List WALRecord → List (Nat × Nat)
  | _, [] => []
  | offset, r :: rest => (r.lsn, offset) :: places (offset + (4 + r.size)) rest

lemma places_append (offset : Nat) (before after : List WALRecord) :
    places offset (before ++ after) =
      places offset before ++ places (offset + (before.flatMap frame).length) after := by
  induction before generalizing offset with
  | nil => rfl
  | cons r before ih =>
    rw [cons_append, places, ih, places, cons_append, flatMap_cons,
      length_append, length_frame, add_assoc]

variable {rs : List WALRecord} {start fuel : Nat} {torn : Bytes}

lemma map_fst_places (offset : Nat) (rs : List WALRecord) :
    (places offset rs).map Prod.fst = rs.map lsn := by
  induction rs generalizing offset with
  | nil => rfl
  | cons r rest ih => rw [places, map_cons, ih, map_cons]

lemma forall_mem_places {p : Nat → Prop} (h : ∀ r ∈ rs, p r.lsn) (offset : Nat) :
    ∀ place ∈ places offset rs, p place.1 := by
  have hlsns := forall_mem_map.mpr h
  rw [← map_fst_places offset] at hlsns
  exact forall_mem_map.mp hlsns

lemma find?_places (h : ∀ r ∈ rs, r.lsn < start) (offset : Nat) :
    (places offset rs).find? (fun place => decide (start ≤ place.1)) = none := by
  rw [find?_eq_none]
  simpa using forall_mem_places (p := (· < start)) h offset

lemma offset_le_of_mem_places {offset : Nat} {place : Nat × Nat}
    (hmem : place ∈ places offset rs) : offset ≤ place.2 := by
  induction rs generalizing offset with
  | nil => exact absurd hmem not_mem_nil
  | cons r rest ih =>
    rcases mem_cons.mp hmem with rfl | hrest
    · exact le_rfl
    · exact Nat.le_of_add_right_le (ih hrest)

lemma length_places (offset : Nat) (rs : List WALRecord) :
    (places offset rs).length = rs.length := by
  simpa using congrArg length (map_fst_places offset rs)

/-- The LSNs of a list of records grow. -/
def Growing (rs : List WALRecord) : Prop := rs.Pairwise fun a b => a.lsn < b.lsn

lemma Growing.places (hgrowing : Growing rs) (offset : Nat) : Ascending (places offset rs) := by
  have hlsns : ((Storage.places offset rs).map Prod.fst).Pairwise (· < ·) := by
    rw [map_fst_places]
    exact pairwise_map.mpr hgrowing
  exact pairwise_map.mp hlsns

/-- The records behind an LSN are the end of the list. -/
lemma Growing.split (hgrowing : Growing rs) (lsn : Nat) :
    ∃ dropped, rs = dropped ++ rs.filter (fun r => lsn < r.lsn) ∧ ∀ r ∈ dropped, r.lsn ≤ lsn := by
  induction rs with
  | nil => exact ⟨[], rfl, forall_mem_nil _⟩
  | cons r rest ih =>
    obtain ⟨hlater, hrest⟩ := pairwise_cons.mp hgrowing
    by_cases hlsn : lsn < r.lsn
    · refine ⟨[], ?_, forall_mem_nil _⟩
      rw [nil_append, filter_eq_self.mpr]
      exact forall_mem_cons.mpr ⟨decide_eq_true hlsn, fun other hother =>
        decide_eq_true (hlsn.trans (hlater other hother))⟩
    · obtain ⟨dropped, hsplit, hdropped⟩ := ih hrest
      refine ⟨r :: dropped, ?_, forall_mem_cons.mpr ⟨not_lt.mp hlsn, hdropped⟩⟩
      rw [filter_cons_of_neg (by simpa using hlsn), cons_append, ← hsplit]

/-- Records that can be read back from the file. -/
structure Stored (rs : List WALRecord) : Prop where
  growing : Growing rs
  valid : ∀ r ∈ rs, r.Sealed
  buffered : ∀ r ∈ rs, r.Buffered

lemma Stored.sublist {kept : List WALRecord} (hstored : Stored rs) (hsublist : kept.Sublist rs) :
    Stored kept :=
  ⟨hstored.growing.sublist hsublist, fun r hmem => hstored.valid r (hsublist.subset hmem),
    fun r hmem => hstored.buffered r (hsublist.subset hmem)⟩

/-- Scanning frames gives their places, also if something follows them that is no frame. -/
lemma scanRecords_frames (accept : Bytes → Option WALRecord)
    (haccept : ∀ r ∈ rs, accept (r.encode r.checksum) = some r) (hbuffered : ∀ r ∈ rs, r.Buffered)
    (hfuel : rs.length ≤ fuel) (htorn : readFrame torn = none) (offset : Nat) :
    scanRecords accept fuel (rs.flatMap frame ++ torn) offset =
      (places offset rs, offset + (rs.flatMap frame).length) := by
  induction rs generalizing fuel offset with
  | nil => cases fuel <;> simp [scanRecords, htorn, places]
  | cons r rest ih =>
    obtain ⟨fuel, rfl⟩ : ∃ n, fuel = n + 1 := ⟨fuel - 1, by simp at hfuel; omega⟩
    have hrest := ih (fun other hmem => haccept other (mem_cons_of_mem _ hmem))
      (fun other hmem => hbuffered other (mem_cons_of_mem _ hmem)) (by simpa using hfuel)
      (offset + (4 + r.size))
    rw [flatMap_cons, append_assoc, scanRecords,
      readFrame_frame (hbuffered r mem_cons_self)]
    dsimp only
    rw [haccept r mem_cons_self]
    rw [length_encode, add_assoc offset, hrest, places, length_append,
      length_frame, add_assoc]

lemma length_le_flatMap_frame (rs : List WALRecord) :
    rs.length ≤ (rs.flatMap frame).length := by
  induction rs with
  | nil => exact le_rfl
  | cons r rest ih =>
    rw [flatMap_cons, length_append, length_cons, length_frame]
    omega

/-! ## What a log holds -/

structure WAL.Holds (w : WAL) (rs : List WALRecord) : Prop where
  stored : Stored rs
  bytes : w.file ++ w.buffer = rs.flatMap WALRecord.frame
  index : w.lsnIndex.toList = places 0 rs
  current : ∀ r ∈ rs, r.lsn < w.currentLSN
  buffer : w.buffer.length ≤ walBufferSize

namespace WAL

/-- The log with its buffer written out. -/
def flushed (w : WAL) : WAL := { w with file := w.file ++ w.buffer, buffer := [] }

variable {w : WAL} {rs : List WALRecord} {record : WALRecord} {after : List WALRecord}

lemma flushBuffer_eq (hbuffer : w.buffer.length ≤ walBufferSize) :
    w.flushBuffer = .ok w.flushed := by
  unfold flushBuffer
  split
  next hempty => rw [flushed, hempty, append_nil, ← hempty]
  · rw [if_neg (not_lt.mpr hbuffer), flushed]

lemma flushBuffer_panics (hbuffer : walBufferSize < w.buffer.length) :
    w.flushBuffer = .error .panic := by
  have hne : w.buffer ≠ [] := by
    intro hempty
    rw [hempty] at hbuffer
    exact Nat.not_lt_zero _ hbuffer
  rw [flushBuffer, if_neg hne, if_pos hbuffer]

lemma Holds.flushed (hw : w.Holds rs) : w.flushed.Holds rs :=
  ⟨hw.stored, by rw [WAL.flushed, append_nil, hw.bytes], hw.index, hw.current, Nat.zero_le _⟩

/-! ### Append -/

/-- `Append` refuses no record. -/
def Accepted (record : WALRecord) : Prop :=
  record.oldData.length ≤ maxWALDataSize ∧ record.newData.length ≤ maxWALDataSize

lemma accepted_of_buffered {r : WALRecord} (hsize : r.Buffered) : Accepted r := by
  unfold WALRecord.Buffered size walBufferSize walRecordHeaderSize at hsize
  unfold Accepted maxWALDataSize
  omega

/-- The state that `Append` leaves. -/
def appended (w : WAL) (record : WALRecord) : WAL :=
  { w with
    buffer := w.buffer ++ (record.sealedAt w.currentLSN).frame
    lsnIndex := w.lsnIndex.insert w.currentLSN (w.file.length + w.buffer.length)
    currentLSN := w.currentLSN + 1 }

lemma append_eq (haccepted : Accepted record) (hbuffer : w.buffer.length ≤ walBufferSize) :
    w.append record = .ok (w.currentLSN,
      (if w.buffer.length + (4 + record.size) > walBufferSize then w.flushed else w).appended
        record) := by
  have hserialize : { record with lsn := w.currentLSN }.serialize =
      some (record.sealedAt w.currentLSN,
        (record.sealedAt w.currentLSN).encode (record.sealedAt w.currentLSN).checksum) := by
    obtain ⟨hold, hnew⟩ := haccepted
    unfold serialize
    rw [if_neg (by dsimp only; omega)]
    rfl
  unfold append
  rw [hserialize]
  dsimp only
  rw [length_encode, show (record.sealedAt w.currentLSN).size = record.size from rfl]
  split
  · rw [flushBuffer_eq hbuffer]; rfl
  · rfl

lemma append_dataTooLarge (hrefused : ¬ Accepted record) :
    w.append record = .error .dataTooLarge := by
  have hserialize : { record with lsn := w.currentLSN }.serialize = none := by
    unfold serialize
    rw [if_pos]
    unfold Accepted at hrefused
    dsimp only
    omega
  rw [append, hserialize]

lemma Holds.appended (hw : w.Holds rs) (haccepted : Accepted record)
    (hlsn : w.currentLSN < 256 ^ 8) (hsize : w.buffer.length + (4 + record.size) ≤ walBufferSize) :
    (w.appended record).Holds (rs ++ [record.sealedAt w.currentLSN]) := by
  have hlast : ∀ r ∈ rs, r.lsn < (record.sealedAt w.currentLSN).lsn := hw.current
  refine ⟨⟨?_, ?_, ?_⟩, ?_, ?_, ?_, ?_⟩
  · refine pairwise_append.mpr ⟨hw.stored.growing, pairwise_singleton _ _, ?_⟩
    intro r hr other hother
    rw [mem_singleton.mp hother]
    exact hlast r hr
  · exact forall_mem_append.mpr ⟨hw.stored.valid,
      (forall_mem_singleton ..).mpr ⟨haccepted.1, haccepted.2, hlsn, rfl⟩⟩
  · exact forall_mem_append.mpr ⟨hw.stored.buffered,
      (forall_mem_singleton ..).mpr (Nat.le_of_add_left_le hsize)⟩
  · rw [flatMap_append, ← hw.bytes]
    simp [WAL.appended]
  · have hplace : w.file.length + w.buffer.length = (rs.flatMap frame).length := by
      rw [← hw.bytes, length_append]
    have hlt : ∀ place ∈ w.lsnIndex.toList, place.1 < w.currentLSN := by
      rw [hw.index]
      exact forall_mem_places (p := (· < w.currentLSN)) hw.current 0
    rw [places_append, zero_add, ← hplace, ← hw.index]
    exact toList_insert hlt
  · exact forall_mem_append.mpr ⟨fun r hr => Nat.lt_succ_of_lt (hw.current r hr),
      (forall_mem_singleton ..).mpr (lt_add_one _)⟩
  · rw [WAL.appended, length_append, length_frame]
    exact hsize

/-- `Append` adds a record that fits the buffer to the end of what the log holds. -/
lemma Holds.append (hw : w.Holds rs) (haccepted : Accepted record)
    (hlsn : w.currentLSN < 256 ^ 8) (hsize : record.Buffered) :
    ∃ w', w.append record = .ok (w.currentLSN, w') ∧
      w'.Holds (rs ++ [record.sealedAt w.currentLSN]) ∧ w'.currentLSN = w.currentLSN + 1 := by
  rw [append_eq haccepted hw.buffer]
  refine ⟨_, rfl, ?_, ?_⟩
  · split
    · apply hw.flushed.appended haccepted hlsn
      rw [WAL.flushed, length_nil, zero_add]
      exact hsize
    next hfits => exact hw.appended haccepted hlsn (not_lt.mp hfits)
  · split <;> rfl

/-! ### Iteration -/

/-- `Next` finds the first place whose LSN is not too small. -/
lemma next_eq_find? (w : WAL) (lsn : Nat) :
    w.next lsn = w.lsnIndex.toList.find? fun place => lsn ≤ place.1 := by
  unfold next
  split
  next offset hget =>
    have hmem := Std.ExtTreeMap.mem_toList_iff_getElem?_eq_some.mpr hget
    obtain ⟨before, after, hsplit⟩ := append_of_mem hmem
    have hsorted := ascending_toList w.lsnIndex
    rw [hsplit] at hsorted ⊢
    have hbefore : before.find? (fun place => decide (lsn ≤ place.1)) = none := by
      rw [find?_eq_none]
      intro place hplace
      have hlt := (pairwise_append.mp hsorted).2.2 place hplace _ mem_cons_self
      simpa using hlt
    rw [find?_append, hbefore, none_or, find?_cons_of_pos (by simp)]
  · rfl

lemma recordAt_of_file {before : List WALRecord} {r : WALRecord}
    (hfile : w.file = (before ++ r :: after).flatMap frame) (hvalid : r.Sealed)
    (hbuffered : r.Buffered) : w.recordAt (before.flatMap frame).length = some r := by
  rw [recordAt, hfile, flatMap_append, drop_left, flatMap_cons,
    readFrame_frame hbuffered, bind_some,
    deserializeAndValidate_encode hvalid]

/-- With nothing in the buffer, the loop reads the records from an LSN on. -/
lemma Holds.records_suffix (before : List WALRecord) (hw : w.Holds (before ++ after))
    (hflushed : w.buffer = []) (hbefore : ∀ r ∈ before, r.lsn < start)
    (hfuel : after.length ≤ fuel) :
    w.records fuel start = after.filter fun r => start ≤ r.lsn := by
  -- the records in front of `after` have been passed; each turn passes one more
  induction after generalizing before start fuel with
  | nil =>
    have hnone : w.next start = none := by
      rw [next_eq_find?, hw.index, append_nil, find?_places hbefore]
    cases fuel with
    | zero => rfl
    | succ fuel => rw [records, hnone]; rfl
  | cons r rest ih =>
    obtain ⟨fuel, rfl⟩ : ∃ n, fuel = n + 1 := ⟨fuel - 1, by simp at hfuel; omega⟩
    have hmem : r ∈ before ++ r :: rest := mem_append_right _ mem_cons_self
    have hlater : ∀ other ∈ rest, r.lsn < other.lsn :=
      (pairwise_cons.mp (pairwise_append.mp hw.stored.growing).2.1).1
    have hearlier : ∀ other ∈ before, other.lsn < r.lsn := fun other hother =>
      (pairwise_append.mp hw.stored.growing).2.2 other hother r mem_cons_self
    have hw' : w.Holds ((before ++ [r]) ++ rest) := by simpa using hw
    have hpassed : ∀ other ∈ before ++ [r], other.lsn < r.lsn + 1 :=
      forall_mem_append.mpr ⟨fun other hother => Nat.lt_succ_of_lt (hearlier other hother),
        (forall_mem_singleton ..).mpr (lt_add_one _)⟩
    by_cases hstart : start ≤ r.lsn
    · have hnext : w.next start = some (r.lsn, (before.flatMap frame).length) := by
        rw [next_eq_find?, hw.index, places_append, find?_append, find?_places hbefore, none_or,
          places, find?_cons_of_pos (by simpa using hstart), zero_add]
      have hfile : w.file = (before ++ r :: rest).flatMap frame := by
        rw [← hw.bytes, hflushed, append_nil]
      have hrest : (rest.filter fun other => decide (r.lsn + 1 ≤ other.lsn)) =
          rest.filter fun other => decide (start ≤ other.lsn) := by
        apply filter_congr
        intro other hother
        have hlt := hlater other hother
        exact decide_eq_decide.mpr ⟨fun _ => by omega, fun _ => by omega⟩
      rw [records, hnext]
      dsimp only
      rw [recordAt_of_file hfile (hw.stored.valid r hmem) (hw.stored.buffered r hmem)]
      dsimp only
      rw [ih _ hw' hpassed (by simpa using hfuel), hrest,
        filter_cons_of_pos (by simpa using hstart)]
    · have hskip : ∀ other ∈ before ++ [r], other.lsn < start :=
        forall_mem_append.mpr ⟨hbefore, (forall_mem_singleton ..).mpr (not_le.mp hstart)⟩
      rw [filter_cons_of_neg (by simpa using hstart)]
      exact ih _ hw' hskip (by simp at hfuel; omega)

lemma Holds.iterate (hw : w.Holds rs) (start : Nat) :
    w.iterate start = .ok (rs.filter fun r => start ≤ r.lsn) := by
  have hsize : w.flushed.lsnIndex.size = rs.length := by
    rw [← Std.ExtTreeMap.length_toList, hw.flushed.index, length_places]
  rw [WAL.iterate, flushBuffer_eq hw.buffer, Except.map, hsize]
  exact congrArg _ (Holds.records_suffix [] hw.flushed rfl (forall_mem_nil _) (le_rfl))

/-! ### Truncation -/

/-- The smallest offset behind an LSN is that of the first record behind it. -/
lemma min?_places (offset : Nat) (rs : List WALRecord) :
    ((places offset rs).map Prod.snd).min? = if rs = [] then none else some offset := by
  cases rs with
  | nil => rfl
  | cons r rest =>
    rw [if_neg (cons_ne_nil _ _), min?_eq_some_iff]
    refine ⟨mem_cons_self, ?_⟩
    intro other hother
    obtain ⟨place, hplace, rfl⟩ := mem_map.mp hother
    exact offset_le_of_mem_places hplace

lemma Holds.dropUpTo (hw : w.Holds rs) (hflushed : w.buffer = []) (lsn : Nat) :
    (w.dropUpTo lsn).Holds (rs.filter fun r => lsn < r.lsn) := by
  obtain ⟨dropped, hsplit, hdropped⟩ := hw.stored.growing.split lsn
  generalize hkept : rs.filter (fun r => lsn < r.lsn) = kept at hsplit
  have hkeptLSN : ∀ r ∈ kept, lsn < r.lsn := by
    intro r hr
    rw [← hkept] at hr
    simpa using (mem_filter.mp hr).2
  have hstored : Stored kept := hw.stored.sublist (hkept ▸ filter_sublist)
  have hplaces : (w.lsnIndex.toList.filter fun place => decide (lsn < place.1)) =
      places (dropped.flatMap frame).length kept := by
    rw [hw.index, hsplit, places_append, filter_append, zero_add,
      filter_eq_nil_iff.mpr, filter_eq_self.mpr, nil_append]
    · simpa using forall_mem_places (p := (lsn < ·)) hkeptLSN _
    · simpa using forall_mem_places (p := (· ≤ lsn)) hdropped 0
  have hcurrent : ∀ r ∈ kept, r.lsn < w.currentLSN := fun r hr =>
    hw.current r (hsplit ▸ mem_append_right _ hr)
  have hremaining : w.file.drop (dropped.flatMap frame).length =
      kept.flatMap frame := by
    have hfile : w.file = (dropped ++ kept).flatMap frame := by
      rw [← hsplit, ← hw.bytes, hflushed, append_nil]
    rw [hfile, flatMap_append, drop_left]
  have hscan := scanRecords_frames deserializeWALRecord
    (fun r hr => deserialize_encode (hstored.valid r hr)) hstored.buffered
    (length_le_flatMap_frame kept) readFrame_nil 0
  rw [append_nil] at hscan
  unfold WAL.dropUpTo
  rw [hplaces, min?_places]
  split
  next hnone =>
    have hempty : kept = [] := by
      by_contra hne
      simp [hne] at hnone
    exact ⟨hstored, by rw [hempty, hflushed]; rfl, by rw [hempty]; rfl, hcurrent, hw.buffer⟩
  next offset hsome =>
    have hoffset : offset = (dropped.flatMap frame).length := by
      split at hsome
      · cases hsome
      · exact (some.inj hsome).symm
    rw [hoffset, hremaining]
    dsimp only
    rw [hscan]
    refine ⟨hstored, ?_, toList_insertAll (hstored.growing.places 0), hcurrent, hw.buffer⟩
    rw [hflushed, append_nil]

lemma Holds.truncate (hw : w.Holds rs) (lsn : Nat) :
    w.truncate lsn = .ok (w.flushed.dropUpTo lsn) ∧
      (w.flushed.dropUpTo lsn).Holds (rs.filter fun r => lsn < r.lsn) := by
  refine ⟨?_, hw.flushed.dropUpTo rfl lsn⟩
  rw [WAL.truncate, flushBuffer_eq hw.buffer, Except.map]

lemma currentLSN_dropUpTo (w : WAL) (lsn : Nat) : (w.dropUpTo lsn).currentLSN = w.currentLSN := by
  unfold WAL.dropUpTo
  split <;> rfl

end WAL

/-! ### Opening -/

variable {rs : List WALRecord}

lemma foldl_max_places (hgrowing : Growing rs) (offset acc : Nat) (hacc : ∀ r ∈ rs, acc ≤ r.lsn) :
    ((places offset rs).map Prod.fst).foldl max acc = (rs.getLast?.map lsn).getD acc := by
  induction rs generalizing offset acc with
  | nil => rfl
  | cons r rest ih =>
    obtain ⟨hlater, hrest⟩ := pairwise_cons.mp hgrowing
    have hmax : max acc r.lsn = r.lsn := Nat.max_eq_right (hacc r mem_cons_self)
    rw [places, map_cons, foldl_cons, hmax,
      ih hrest _ _ fun other hother => Nat.le_of_lt (hlater other hother), getLast?_cons]
    cases rest.getLast? <;> rfl

/-- The LSN that an opened log assigns next. -/
def nextLSN (rs : List WALRecord) : Nat := (rs.getLast?.map fun r => r.lsn + 1).getD 1

lemma Growing.lt_nextLSN (hgrowing : Growing rs) : ∀ r ∈ rs, r.lsn < nextLSN rs := by
  intro r hr
  cases rs using reverseRecOn with
  | nil => exact absurd hr not_mem_nil
  | append_singleton before last =>
    simp only [nextLSN, getLast?_concat, map_some, getD_some]
    rcases mem_append.mp hr with hbefore | hlast
    · exact Nat.lt_succ_of_lt ((pairwise_append.mp hgrowing).2.2 r hbefore last mem_cons_self)
    · rw [mem_singleton.mp hlast]
      exact lt_add_one _

/-- Opening drops what follows the frames. -/
lemma Stored.openWAL_torn (hstored : Stored rs) (htorn : readFrame torn = none) :
    openWAL (rs.flatMap frame ++ torn) =
      ⟨rs.flatMap frame, nextLSN rs, [], insertAll ∅ (places 0 rs)⟩ := by
  have haccept : ∀ r ∈ rs, acceptRecovered (r.encode r.checksum) = some r := by
    intro r hr
    have hsize : r.size ≤ walBufferSize := Nat.le_of_add_left_le (hstored.buffered r hr)
    rw [acceptRecovered, length_encode, if_neg (not_lt.mpr hsize),
      deserializeAndValidate_encode (hstored.valid r hr)]
  have hcurrent : (if places 0 rs = [] then 1
      else ((places 0 rs).map Prod.fst).foldl max 0 + 1) = nextLSN rs := by
    rw [foldl_max_places hstored.growing 0 0 fun _ _ => Nat.zero_le _]
    cases rs using reverseRecOn with
    | nil => rfl
    | append_singleton before r => simp [places_append, places, nextLSN]
  unfold openWAL
  have hfuel : rs.length ≤ (rs.flatMap frame ++ torn).length := by
    rw [length_append]
    exact Nat.le_add_right_of_le (length_le_flatMap_frame rs)
  rw [scanRecords_frames acceptRecovered haccept hstored.buffered hfuel htorn 0]
  dsimp only
  rw [hcurrent, zero_add, take_left]

lemma Stored.openWAL_eq (hstored : Stored rs) :
    openWAL (rs.flatMap frame) =
      ⟨rs.flatMap frame, nextLSN rs, [], insertAll ∅ (places 0 rs)⟩ := by
  have htorn := hstored.openWAL_torn readFrame_nil
  rwa [append_nil] at htorn

/-- Opening a file of frames gives a log that holds their records. -/
lemma Stored.holds_openWAL (hstored : Stored rs) :
    (openWAL (rs.flatMap frame)).Holds rs := by
  rw [hstored.openWAL_eq]
  exact ⟨hstored, append_nil _, toList_insertAll (hstored.growing.places 0),
    hstored.growing.lt_nextLSN, Nat.zero_le _⟩

end Oba.Storage
