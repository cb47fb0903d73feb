import Oba.Storage.RecoveryPages

/-! # What recovery leaves

Recovery redoes the updates of every transaction whose begin record is in the log, and undoes
those of transactions without a commit or abort record. Updates of aborted transactions are
redone as well and not undone; the abort records that recovery appends make the transactions
it has undone such transactions for the next recovery.
-/

namespace Oba.Storage

open UnorderedMap List Option WALRecord Analysis

/-! ## Transactions in the log -/

/-- A begin, commit or abort record. -/
def WALRecord.isControl (r : WALRecord) : Bool :=
  r.type = walBegin ∨ r.type = walCommit ∨ r.type = walAbort

/-- The type of the first begin, commit or abort record of a transaction. -/
def fate (txID : UInt64) (records : List WALRecord) : Option UInt8 :=
  (records.find? fun r => r.isControl ∧ r.txID = txID).map WALRecord.type

section

variable (records : List WALRecord)

/-- The begin record of a transaction is in the log. -/
def begun (txID : UInt64) : Bool :=
  records.any fun r => r.type = walBegin ∧ r.txID = txID

/-- The last word of the log about a transaction is that it begins. -/
def unfinished (txID : UInt64) : Bool :=
  fate txID records.reverse = some walBegin

def redoneUpdates : List WALRecord :=
  records.filter fun r => r.type = walUpdate ∧ begun records r.txID

def undoneUpdates : List WALRecord :=
  records.filter fun r => r.type = walUpdate ∧ unfinished records r.txID

end

/-- The updates whose transaction is committed by the next begin, commit or abort record of
that transaction. -/
def committedUpdates : List WALRecord → List WALRecord
  | [] => []
  | r :: rest =>
    if r.type = walUpdate ∧ fate r.txID rest = some walCommit then r :: committedUpdates rest
    else committedUpdates rest

/-! ## The analysis -/

lemma analysis_append (records : List WALRecord) (r : WALRecord) :
    analysis (records ++ [r]) = (analysis records).step r := by
  rw [analysis, foldl_append, ← analysis, foldl_cons, foldl_nil]

/-- What a record says about the transaction it belongs to. -/
def WALRecord.stateAfter (r : WALRecord) (state : Option TxState) : Option TxState :=
  if r.type = walBegin then some .active
  else if r.type = walCommit then state.map fun _ => .committed
  else if r.type = walAbort then state.map fun _ => .aborted
  else state

lemma Analysis.getElem?_step (a : Analysis) (r : WALRecord) (txID : UInt64) :
    (a.step r).activeTx[txID]? =
      if r.txID = txID then r.stateAfter a.activeTx[txID]? else a.activeTx[txID]? := by
  unfold step stateAfter
  by_cases htx : r.txID = txID
  · subst htx
    rw [if_pos rfl]
    repeat' split
    all_goals simp
  · have hne : compare r.txID txID ≠ .eq := fun h => htx (Std.LawfulEqOrd.eq_of_compare h)
    repeat' split
    all_goals simp [Std.ExtTreeMap.getElem?_insert, Std.ExtTreeMap.getElem?_modify, hne]

lemma fate_cons (txID : UInt64) (r : WALRecord) (records : List WALRecord) :
    fate txID (r :: records) =
      if r.isControl ∧ r.txID = txID then some r.type else fate txID records := by
  unfold fate
  by_cases h : r.isControl ∧ r.txID = txID
  · rw [if_pos h, find?_cons_of_pos (by simpa using h), map_some]
  · rw [if_neg h, find?_cons_of_neg (by simpa using h)]

/-- The table has the transactions that begin somewhere in the log, and those without an end
are active. -/
lemma analysis_activeTx (records : List WALRecord) (txID : UInt64) :
    (txID ∈ (analysis records).activeTx ↔ begun records txID) ∧
      ((analysis records).activeTx[txID]? = some .active ↔ unfinished records txID) := by
  -- the last record of the log is the first that decides
  induction records using reverseRecOn with
  | nil => simp [analysis, begun, unfinished, fate]
  | append_singleton records r ih =>
    obtain ⟨ihBegun, ihUnfinished⟩ := ih
    have hbegun : begun (records ++ [r]) txID ↔
        begun records txID ∨ (r.type = walBegin ∧ r.txID = txID) := by
      simp [begun, any_append]
    have hunfinished : unfinished (records ++ [r]) txID ↔
        if r.isControl ∧ r.txID = txID then r.type = walBegin else unfinished records txID := by
      unfold unfinished
      rw [reverse_append, reverse_singleton, singleton_append, fate_cons]
      split <;> simp
    rw [Std.ExtTreeMap.mem_iff_isSome_getElem?, analysis_append, getElem?_step, hbegun,
      hunfinished]
    by_cases htx : r.txID = txID
    · unfold stateAfter
      by_cases hbegin : r.type = walBegin
      · simp [hbegin, htx, isControl]
      · by_cases hcommit : r.type = walCommit
        · simp [hcommit, htx, isControl, walCommit, walBegin, ihBegun]
        · by_cases habort : r.type = walAbort
          · simp [habort, htx, isControl, walAbort, walCommit, walBegin, ihBegun]
          · simp [hbegin, hcommit, habort, isControl, ihBegun, ihUnfinished]
    · simp only [htx, and_false, or_false, if_false, ← Std.ExtTreeMap.mem_iff_isSome_getElem?]
      exact ⟨ihBegun, ihUnfinished⟩

lemma Analysis.dirtyPages_step (a : Analysis) (r : WALRecord) :
    (a.step r).dirtyPages =
      if r.type = walUpdate then a.dirtyPages.insertIfNew r.pageID r.lsn else a.dirtyPages := by
  by_cases htype : r.type = walUpdate
  · simp [step, htype, walUpdate, walBegin, walCommit, walAbort]
  · unfold step
    repeat' split
    all_goals rfl

lemma Analysis.getElem?_dirtyPages_step (a : Analysis) (r : WALRecord) (page : UInt64) :
    (a.step r).dirtyPages[page]? =
      if r.type = walUpdate ∧ r.pageID = page then a.dirtyPages[page]?.or (some r.lsn)
      else a.dirtyPages[page]? := by
  rw [dirtyPages_step]
  by_cases htype : r.type = walUpdate
  · rw [if_pos htype, Std.ExtTreeMap.getElem?_insertIfNew]
    by_cases hpage : r.pageID = page
    · subst hpage
      by_cases hmem : r.pageID ∈ a.dirtyPages <;> simp [htype, hmem]
    · have hne : compare r.pageID page ≠ .eq := fun h => hpage (Std.LawfulEqOrd.eq_of_compare h)
      rw [if_neg fun h => hne h.1, if_neg fun h => hpage h.2]
  · rw [if_neg htype, if_neg fun h => htype h.1]

variable {records rs : List WALRecord} {lsn p i : Nat}

/-- The page of an update is dirty from that update on, or from an earlier one. -/
lemma analysis_dirtyPages (hgrowing : Growing records) :
    (∀ r ∈ records, r.type = walUpdate →
      ∃ lsn, (analysis records).dirtyPages[r.pageID]? = some lsn ∧ lsn ≤ r.lsn) ∧
    (∀ (page : UInt64) (lsn : Nat), (analysis records).dirtyPages[page]? = some lsn →
      ∃ r ∈ records, r.lsn = lsn) := by
  induction records using reverseRecOn with
  | nil => simp [analysis]
  | append_singleton records r ih =>
    obtain ⟨hrecords, -, hlast⟩ := pairwise_append.mp hgrowing
    obtain ⟨ihUpdates, ihPages⟩ := ih hrecords
    constructor
    · intro other hother htype
      rw [analysis_append, getElem?_dirtyPages_step]
      rcases mem_append.mp hother with hold | hnew
      · obtain ⟨lsn, hget, hle⟩ := ihUpdates other hold htype
        exact ⟨lsn, by split <;> simp [hget], hle⟩
      · obtain rfl := mem_singleton.mp hnew
        rw [if_pos ⟨htype, rfl⟩]
        cases hget : (analysis records).dirtyPages[other.pageID]? with
        | none => exact ⟨other.lsn, rfl, le_rfl⟩
        | some lsn =>
          obtain ⟨earlier, hearlier, rfl⟩ := ihPages _ _ hget
          exact ⟨_, rfl, Nat.le_of_lt (hlast earlier hearlier other mem_cons_self)⟩
    · intro page lsn hget
      rw [analysis_append, getElem?_dirtyPages_step] at hget
      have hcases : (analysis records).dirtyPages[page]? = some lsn ∨ r.lsn = lsn := by
        split at hget
        · rcases or_eq_some_iff.mp hget with hold | ⟨-, hnew⟩
          · exact .inl hold
          · exact .inr (some.inj hnew)
        · exact .inl hget
      rcases hcases with hold | rfl
      · obtain ⟨earlier, hearlier, heq⟩ := ihPages page lsn hold
        exact ⟨earlier, mem_append_left _ hearlier, heq⟩
      · exact ⟨r, mem_append_right _ mem_cons_self, rfl⟩

/-- The loop for the smallest LSN, where zero stands for none. -/
lemma foldl_redoLSN_le {pages : List (UInt64 × Nat)} (hpos : ∀ page ∈ pages, 0 < page.2)
    (start : Nat) :
    (0 < start → pages.foldl (fun redoLSN page =>
      if redoLSN = 0 ∨ page.2 < redoLSN then page.2 else redoLSN) start ≤ start) ∧
    ∀ page ∈ pages, pages.foldl (fun redoLSN page =>
      if redoLSN = 0 ∨ page.2 < redoLSN then page.2 else redoLSN) start ≤ page.2 := by
  induction pages generalizing start with
  | nil => exact ⟨fun _ => le_rfl, forall_mem_nil _⟩
  | cons first rest ih =>
    obtain ⟨hfirst, hrest⟩ := forall_mem_cons.mp hpos
    simp only [foldl_cons]
    generalize hnext : (if start = 0 ∨ first.2 < start then first.2 else start) = next
    obtain ⟨ihStart, ihRest⟩ := ih hrest next
    have hbounds : 0 < next ∧ next ≤ first.2 ∧ (0 < start → next ≤ start) := by
      split at hnext <;> omega
    obtain ⟨hnextPos, hnextFirst, hnextStart⟩ := hbounds
    refine ⟨fun hstart => (ihStart hnextPos).trans (hnextStart hstart),
      forall_mem_cons.mpr ⟨(ihStart hnextPos).trans hnextFirst, ihRest⟩⟩

section

variable (hgrowing : Growing records) (hpos : ∀ r ∈ records, 1 ≤ r.lsn) (order : Order UInt64 Nat)
include hgrowing hpos

/-- No update comes before the LSN that redo starts from. -/
lemma redoLSN_le {r : WALRecord} (hr : r ∈ records) (htype : r.type = walUpdate) :
    (analysis records).redoLSN order records ≤ r.lsn := by
  obtain ⟨hupdates, hpages⟩ := analysis_dirtyPages hgrowing
  obtain ⟨lsn, hget, hle⟩ := hupdates r hr htype
  have hall : ∀ page ∈ order.range (analysis records).dirtyPages, 0 < page.2 := by
    intro page hpage
    obtain ⟨other, hother, heq⟩ := hpages _ _ ((order.mem_range _).mp hpage)
    exact heq ▸ hpos other hother
  exact ((foldl_redoLSN_le hall _).2 _ ((order.mem_range _).mpr hget)).trans hle

/-! ## The passes -/

lemma redo_eq (f : PageFile) :
    redo (analysis records) ((analysis records).redoLSN order records) records f =
      f.applyAll newData (redoneUpdates records) := by
  unfold redo PageFile.applyAll redoneUpdates
  rw [foldl_filter]
  apply foldl_ext
  intro f r hr
  have hbegun := (analysis_activeTx records r.txID).1
  by_cases htype : r.type = walUpdate
  · have hlsn := redoLSN_le hgrowing hpos order hr htype
    rw [if_neg (not_lt.mpr hlsn), if_neg (not_not.mpr htype)]
    by_cases htx : r.txID ∈ (analysis records).activeTx
    · rw [if_neg (not_not.mpr htx), if_pos (decide_eq_true ⟨htype, hbegun.mp htx⟩)]
      rfl
    · rw [if_pos htx, if_neg]
      intro h
      exact htx (hbegun.mpr (of_decide_eq_true h).2)
  · rw [if_pos htype, ite_self, if_neg]
    intro h
    exact htype (of_decide_eq_true h).1

end

/-- Sorting by descending LSN turns a growing list around. -/
lemma Growing.mergeSort_eq (hgrowing : Growing rs) :
    rs.mergeSort (fun x y => decide (y.lsn ≤ x.lsn)) = rs.reverse := by
  have hsorted : (rs.mergeSort fun x y => decide (y.lsn ≤ x.lsn)).Pairwise
      fun x y => y.lsn ≤ x.lsn := by
    refine (pairwise_mergeSort ?_ ?_ rs).imp of_decide_eq_true
    · intro x y z hxy hyz
      simp only [decide_eq_true_eq] at hxy hyz ⊢
      exact hyz.trans hxy
    · intro x y
      simp only [Bool.or_eq_true, decide_eq_true_eq]
      exact Nat.le_total _ _
  have hreverse : rs.reverse.Pairwise fun x y => y.lsn ≤ x.lsn :=
    pairwise_reverse.mpr (hgrowing.imp Nat.le_of_lt)
  refine List.Perm.eq_of_pairwise ?_ hsorted hreverse
    ((mergeSort_perm _ _).trans (reverse_perm _).symm)
  intro x y hx hy hxy hyx
  exact inj_on_of_nodup_map (pairwise_map.mpr (hgrowing.imp Nat.ne_of_lt))
    ((mergeSort_perm _ _).mem_iff.mp hx) (mem_reverse.mp hy) (le_antisymm hyx hxy)

lemma undoPages_eq (hgrowing : Growing records) (f : PageFile) :
    undoPages (analysis records) records f =
      f.applyAll oldData (undoneUpdates records).reverse := by
  have hfilter : (records.filter fun r => decide (r.type = walUpdate ∧
      (analysis records).activeTx[r.txID]? = some .active)) = undoneUpdates records := by
    apply filter_congr
    intro r _
    rw [decide_eq_decide, (analysis_activeTx records r.txID).2]
  have hundone : Growing (undoneUpdates records) := hgrowing.sublist filter_sublist
  rw [undoPages, undoRecords, hfilter, hundone.mergeSort_eq]
  rfl

/-- Without transactions to undo there are no updates to undo. -/
lemma undoneUpdates_eq_nil {order : Order UInt64 TxState}
    (htxs : undoTxs (analysis records) order = []) : undoneUpdates records = [] := by
  rw [undoneUpdates, filter_eq_nil_iff]
  intro r _ h
  have hactive := (analysis_activeTx records r.txID).2.mpr (of_decide_eq_true h).2
  have hmem : r.txID ∈ undoTxs (analysis records) order :=
    mem_map.mpr ⟨(r.txID, .active), mem_filter.mpr ⟨(order.mem_range _).mpr hactive, by simp⟩, rfl⟩
  rw [htxs] at hmem
  exact absurd hmem not_mem_nil

section

variable (records : List WALRecord)

/-- The pages that recovery leaves for a log with the given records. -/
def recoveredPages (f : PageFile) : PageFile :=
  (f.applyAll WALRecord.newData (redoneUpdates records)).applyAll WALRecord.oldData
    (undoneUpdates records).reverse

lemma layout_recoveredPages {f : PageFile} (hwf : f.layout.WellFormed) :
    (recoveredPages records f).layout = f.layout := by
  have hlayout := PageFile.layout_applyAll newData (redoneUpdates records) hwf
  rw [recoveredPages, PageFile.layout_applyAll _ _ (hlayout ▸ hwf), hlayout]

lemma byte_recoveredPages {f : PageFile} (hwf : f.layout.WellFormed) (p i : Nat) :
    (recoveredPages records f).byte p i =
      (if f.layout.Initialised p then
        ((undoneUpdates records).findSome? fun r => r.before f.layout p i).or
          ((redoneUpdates records).reverse.findSome? fun r => r.after f.layout p i)
      else none).or (f.byte p i) := by
  have hlayout := PageFile.layout_applyAll newData (redoneUpdates records) hwf
  rw [recoveredPages, PageFile.byte_applyAll _ _ (hlayout ▸ hwf), PageFile.byte_applyAll _ _ hwf,
    hlayout, reverse_reverse]
  split
  · exact or_assoc.symm
  · rw [none_or]

end

/-! ## The abort records -/

lemma accepted_abort (tx : UInt64) : WAL.Accepted (newWALRecord 0 tx walAbort) :=
  ⟨Nat.zero_le _, Nat.zero_le _⟩

lemma appendAborts_ok {w : WAL} (hbuffer : w.buffer.length ≤ walBufferSize) (txs : List UInt64) :
    ∃ w', appendAborts w txs = .ok w' ∧ w'.buffer.length ≤ walBufferSize := by
  induction txs generalizing w with
  | nil => exact ⟨w, rfl, hbuffer⟩
  | cons tx rest ih =>
    have hsize : ∀ lsn, ((newWALRecord 0 tx walAbort).sealedAt lsn).frame.length = 39 := by
      intro lsn
      rfl
    rw [appendAborts, WAL.append_eq (accepted_abort tx) hbuffer]
    apply ih
    split
    · rw [WAL.appended, WAL.flushed, nil_append, hsize]
      decide
    next hroom =>
      rw [WAL.appended, length_append]
      exact not_lt.mp hroom

/-- Records as they are written from an LSN on. -/
def sealFrom : Nat → List WALRecord → List WALRecord
  | _, [] => []
  | lsn, r :: rest => r.sealedAt lsn :: sealFrom (lsn + 1) rest

lemma mem_sealFrom {r : WALRecord} (h : r ∈ sealFrom lsn rs) :
    ∃ n, lsn ≤ n ∧ ∃ r₀ ∈ rs, r = r₀.sealedAt n := by
  induction rs generalizing lsn with
  | nil => exact absurd h not_mem_nil
  | cons first rest ih =>
    rcases mem_cons.mp h with rfl | hrest
    · exact ⟨lsn, le_rfl, first, mem_cons_self, rfl⟩
    · obtain ⟨n, hn, r₀, hr₀, heq⟩ := ih hrest
      exact ⟨n, Nat.le_of_succ_le hn, r₀, mem_cons_of_mem _ hr₀, heq⟩

lemma stored_sealFrom (hsize : ∀ r ∈ rs, r.Buffered) (hlsn : lsn + rs.length ≤ 256 ^ 8) :
    Stored (sealFrom lsn rs) := by
  induction rs generalizing lsn with
  | nil => exact ⟨List.Pairwise.nil, forall_mem_nil _, forall_mem_nil _⟩
  | cons r rest ih =>
    rw [length_cons] at hlsn
    obtain ⟨hfirst, hrest⟩ := forall_mem_cons.mp hsize
    obtain ⟨hold, hnew⟩ := WAL.accepted_of_buffered hfirst
    obtain ⟨hgrowing, hvalid, hbuffered⟩ := ih hrest (show lsn + 1 + rest.length ≤ _ by omega)
    refine ⟨pairwise_cons.mpr ⟨?_, hgrowing⟩, forall_mem_cons.mpr ⟨?_, hvalid⟩,
      forall_mem_cons.mpr ⟨hfirst, hbuffered⟩⟩
    · intro other hother
      obtain ⟨n, hn, r₀, -, rfl⟩ := mem_sealFrom hother
      exact hn
    · exact ⟨hold, hnew, show lsn < _ by omega, rfl⟩

/-- The abort records that are appended from an LSN on. -/
def abortRecords (lsn : Nat) (txs : List UInt64) : List WALRecord :=
  sealFrom lsn (txs.map fun tx => newWALRecord 0 tx walAbort)

lemma WAL.Holds.appendAborts {w : WAL} (hw : w.Holds rs) (txs : List UInt64)
    (hlsn : w.currentLSN + txs.length ≤ 256 ^ 8) :
    ∃ w', appendAborts w txs = .ok w' ∧ w'.Holds (rs ++ abortRecords w.currentLSN txs) := by
  induction txs generalizing w rs with
  | nil => exact ⟨w, rfl, by rw [abortRecords, map_nil, sealFrom, append_nil]; exact hw⟩
  | cons tx rest ih =>
    rw [length_cons] at hlsn
    have hbuffered : (newWALRecord 0 tx walAbort).Buffered :=
      show 4 + 35 ≤ walBufferSize by decide
    obtain ⟨w₁, happend, hw₁, hnext⟩ := hw.append (accepted_abort tx) (by omega) hbuffered
    obtain ⟨w', hrest, hw'⟩ := ih hw₁ (by omega)
    refine ⟨w', ?_, ?_⟩
    · rw [Storage.appendAborts, happend]
      exact hrest
    · rw [hnext, append_assoc] at hw'
      exact hw'

/-! ## Recovery -/

section

variable {w : WAL} {records : List WALRecord}

section

variable (hw : w.Holds records) (hpos : ∀ r ∈ records, 1 ≤ r.lsn) (orders : RecoveryOrders)
  (f : PageFile)
include hw hpos

/-- Recovery reads the records that the log holds, and leaves the log as appending the abort
records leaves it. -/
lemma recover_eq_ok {w' : WAL}
    (haborts : appendAborts w.flushed (undoTxs (analysis records) orders.activeTx) = .ok w')
    (hbuffer : w'.buffer.length ≤ walBufferSize) :
    recover orders w f = .ok (w'.flushed, recoveredPages records f) := by
  have hiterate := hw.iterate 1
  rw [WAL.iterate, WAL.flushBuffer_eq hw.buffer, filter_eq_self.mpr
    fun r hr => decide_eq_true (hpos r hr)] at hiterate
  have hrecords := Except.ok.inj hiterate
  unfold recover
  rw [WAL.flushBuffer_eq hw.buffer]
  simp only [bind, Except.bind, hrecords, redo_eq hw.stored.growing hpos]
  split
  next htxs =>
    rw [htxs] at haborts
    rw [← Except.ok.inj haborts, recoveredPages, undoneUpdates_eq_nil htxs]
    simp [WAL.flushed, PageFile.applyAll]
  · rw [haborts]
    dsimp only
    rw [WAL.sync, WAL.flushBuffer_eq hbuffer, undoPages_eq hw.stored.growing]
    rfl

lemma recover_ok : ∃ w', recover orders w f = .ok (w', recoveredPages records f) := by
  obtain ⟨w', haborts, hbuffer⟩ := appendAborts_ok hw.flushed.buffer
    (undoTxs (analysis records) orders.activeTx)
  exact ⟨_, recover_eq_ok hw hpos orders f haborts hbuffer⟩

end

end

/-! ## Committed updates only -/

/-- The pages on disk: every byte is the original one or one that an update has written. -/
structure PartlyWritten (original : PageFile) (records : List WALRecord) (disk : PageFile) :
    Prop where
  layout : disk.layout = original.layout
  byte : ∀ p i b, disk.byte p i = some b → original.byte p i = some b ∨
    ∃ r ∈ records, r.type = walUpdate ∧ r.after original.layout p i = some b

/-- A byte after the updates of committed transactions, in the order of the log. -/
def committedByte (original : PageFile) (records : List WALRecord) (p i : Nat) : Option UInt8 :=
  ((committedUpdates records).reverse.findSome? fun r => r.after original.layout p i).or
    (original.byte p i)

/-- A byte in the before image of the first update of an unfinished transaction over it. -/
def firstUnfinished (layout : Layout) (records : List WALRecord) (p i : Nat) : Option UInt8 :=
  (undoneUpdates records).findSome? fun r => r.before layout p i

/-- A byte in the after image of the last update over it by a transaction that has begun. -/
def lastUpdate (layout : Layout) (records : List WALRecord) (p i : Nat) : Option UInt8 :=
  (redoneUpdates records).reverse.findSome? fun r => r.after layout p i

/-- The log determines the committed contents of the pages from the first before images of
unfinished transactions and the last after images. -/
structure Recoverable (original : PageFile) (records : List WALRecord) : Prop where
  /-- Where an unfinished transaction has written, its first before image is what committed
  transactions have left. -/
  unfinished : ∀ p i b, original.layout.Initialised p →
    firstUnfinished original.layout records p i = some b →
    committedByte original records p i = some b
  /-- Elsewhere the last update is what committed transactions have left. -/
  finished : ∀ p i b, original.layout.Initialised p →
    firstUnfinished original.layout records p i = none →
    lastUpdate original.layout records p i = some b →
    committedByte original records p i = some b
  /-- Where neither is the case, or the page was never written, nothing but the committed
  contents can be on disk. -/
  untouched : ∀ p i b,
    (original.layout.Initialised p → firstUnfinished original.layout records p i = none ∧
      lastUpdate original.layout records p i = none) →
    (original.byte p i = some b ∨
      ∃ r ∈ records, r.type = walUpdate ∧ r.after original.layout p i = some b) →
    committedByte original records p i = some b

lemma PageFile.byte_isSome_iff (f : PageFile) (p i : Nat) :
    (f.byte p i).isSome ↔ p ≠ 0 ∧ ∃ header length, f.layout[p]? = some (header, length) ∧
      i < length := by
  unfold PageFile.byte PageFile.readPage PageFile.layout
  by_cases hp : p = 0
  · simp [hp]
  · rw [getElem?_map]
    cases f.pages[p]? with
    | none => simp
    | some page => simp [hp]

lemma PageFile.byte_isSome_of_imageAt {f : PageFile} {page : UInt64} {offset : UInt16}
    {image : Bytes} {b : UInt8} (h : f.layout.imageAt page offset image p i = some b) :
    (f.byte p i).isSome := by
  unfold Layout.imageAt at h
  split at h
  next hpage =>
    obtain ⟨⟨header, length⟩, hget, hvalue⟩ := bind_eq_some_iff.mp h
    exact (f.byte_isSome_iff p i).mpr
      ⟨hpage.2, header, length, hget, Patch.lt_of_valueAt_eq_some hvalue⟩
  · cases h

variable {records : List WALRecord} {original : PageFile}

lemma committedByte_eq_none {disk : PageFile} (hlayout : disk.layout = original.layout)
    (hdisk : disk.byte p i = none) : committedByte original records p i = none := by
  have hmissing : (original.byte p i).isSome = false := by
    rw [Bool.eq_false_iff]
    intro h
    rw [original.byte_isSome_iff, ← hlayout, ← disk.byte_isSome_iff, hdisk] at h
    cases h
  rw [committedByte, or_eq_none_iff, findSome?_eq_none_iff]
  refine ⟨?_, isSome_eq_false_iff.mp hmissing |> isNone_iff_eq_none.mp⟩
  intro r _
  by_contra hne
  obtain ⟨b, hafter⟩ := ne_none_iff_exists'.mp hne
  rw [PageFile.byte_isSome_of_imageAt hafter] at hmissing
  cases hmissing

section

variable (f : PageFile) (r : WALRecord)

/-- The file to which the after image of one update has been written back. -/
def PageFile.withAfter : PageFile :=
  ⟨f.pages.modify r.pageID.toNat fun page =>
    { page with data := Patch.apply ⟨r.offset.toNat, r.newData⟩ page.data }⟩

lemma PageFile.layout_withAfter : (f.withAfter r).layout = f.layout := by
  apply ext_getElem?
  intro p
  rw [PageFile.layout, PageFile.layout, PageFile.withAfter, getElem?_map, getElem?_map,
    getElem?_modify]
  cases f.pages[p]? with
  | none => rfl
  | some page =>
    split <;> simp

lemma PageFile.byte_withAfter (p i : Nat) :
    (f.withAfter r).byte p i = (r.after f.layout p i).or (f.byte p i) := by
  unfold PageFile.byte PageFile.readPage PageFile.withAfter WALRecord.after Layout.imageAt
    PageFile.layout
  by_cases hp : p = 0
  · simp [hp]
  · rw [if_neg hp, if_neg hp, getElem?_modify, getElem?_map]
    cases f.pages[p]? with
    | none => simp
    | some page =>
      by_cases hpage : r.pageID.toNat = p
      · simp [hpage, hp, Patch.getElem?_apply]
      · simp [hpage]

end

lemma partlyWritten_refl (original : PageFile) (records : List WALRecord) :
    PartlyWritten original records original :=
  ⟨rfl, fun _ _ _ h => .inl h⟩

lemma partlyWritten_withAfter (original : PageFile) {r : WALRecord} (hr : r ∈ records)
    (htype : r.type = walUpdate) : PartlyWritten original records (original.withAfter r) := by
  refine ⟨original.layout_withAfter r, ?_⟩
  intro p i b hbyte
  rw [original.byte_withAfter r] at hbyte
  rcases or_eq_some_iff.mp hbyte with hafter | ⟨-, horiginal⟩
  · exact .inr ⟨r, hr, htype, hafter⟩
  · exact .inl horiginal

/-- Recovery leaves the committed contents exactly for a log that determines them. -/
lemma recoveredPages_committed (hwf : original.layout.WellFormed) :
    (∀ disk, PartlyWritten original records disk →
      ∀ p i, (recoveredPages records disk).byte p i = committedByte original records p i) ↔
    Recoverable original records := by
  have hbyte : ∀ disk, PartlyWritten original records disk → ∀ p i,
      (recoveredPages records disk).byte p i = (if original.layout.Initialised p then
        (firstUnfinished original.layout records p i).or
          (lastUpdate original.layout records p i) else none).or (disk.byte p i) := by
    intro disk hdisk p i
    rw [byte_recoveredPages records (hdisk.layout ▸ hwf), hdisk.layout]
    rfl
  constructor
  · intro hall
    have hrefl := fun p i => (hbyte original (partlyWritten_refl original records) p i).symm.trans
      (hall original (partlyWritten_refl original records) p i)
    refine ⟨?_, ?_, ?_⟩
    · intro p i b hinit hfirst
      rw [← hrefl, if_pos hinit, hfirst, some_or, some_or]
    · intro p i b hinit hfirst hlast
      rw [← hrefl, if_pos hinit, hfirst, none_or, hlast, some_or]
    · intro p i b hnone hb
      have hdecided : (if original.layout.Initialised p then
          (firstUnfinished original.layout records p i).or
            (lastUpdate original.layout records p i) else none) = none := by
        split
        next hinit => rw [(hnone hinit).1, (hnone hinit).2, none_or]
        · rfl
      rcases hb with horiginal | ⟨r, hr, htype, hafter⟩
      · rw [← hrefl, hdecided, none_or, horiginal]
      · have hdisk := partlyWritten_withAfter original hr htype
        rw [← hall _ hdisk, hbyte _ hdisk, hdecided, none_or, original.byte_withAfter,
          hafter, some_or]
  · intro hrec disk hdisk p i
    rw [hbyte disk hdisk]
    have huntouched : (original.layout.Initialised p →
        firstUnfinished original.layout records p i = none ∧
          lastUpdate original.layout records p i = none) →
        disk.byte p i = committedByte original records p i := by
      intro hnone
      cases hdiskByte : disk.byte p i with
      | some b => exact (hrec.untouched p i b hnone (hdisk.byte p i b hdiskByte)).symm
      | none => exact (committedByte_eq_none hdisk.layout hdiskByte).symm
    split
    next hinit =>
      cases hfirst : firstUnfinished original.layout records p i with
      | some b => rw [hrec.unfinished p i b hinit hfirst, some_or, some_or]
      | none =>
        cases hlast : lastUpdate original.layout records p i with
        | some b => rw [hrec.finished p i b hinit hfirst hlast, none_or, some_or]
        | none =>
          exact huntouched fun _ => ⟨hfirst, hlast⟩
    next hinit =>
      exact huntouched fun h => absurd h hinit

/-- After recovery, the pages are what the committed transactions have left, whatever part of the
updates had been written back, if and only if the log determines it. -/
theorem recovery_correct {w : WAL} {records : List WALRecord} {original : PageFile}
    (orders : RecoveryOrders) (hw : w.Holds records) (hpos : ∀ r ∈ records, 1 ≤ r.lsn)
    (hwf : original.layout.WellFormed) :
    (∀ disk, PartlyWritten original records disk →
      ∃ w' pages, recover orders w disk = .ok (w', pages) ∧
        ∀ p i, pages.byte p i = committedByte original records p i) ↔
    Recoverable original records := by
  rw [← recoveredPages_committed hwf]
  constructor
  · intro hall disk hdisk
    obtain ⟨w', pages, hrecover, hpages⟩ := hall disk hdisk
    obtain ⟨w'', hok⟩ := recover_ok hw hpos orders disk
    cases hrecover.symm.trans hok
    exact hpages
  · intro hall disk hdisk
    obtain ⟨w', hok⟩ := recover_ok hw hpos orders disk
    exact ⟨w', _, hok, hall disk hdisk⟩

/-! ## Two logs -/

/-- A log that was closed with the given records and opened again. -/
def logWith (rs : List WALRecord) : WAL := openWAL ((sealFrom 1 rs).flatMap WALRecord.frame)

section

variable (rs : List WALRecord) (hsize : ∀ r ∈ rs, r.Buffered) (hlsn : 1 + rs.length ≤ 256 ^ 8)
include hsize hlsn

lemma logWith_holds : (logWith rs).Holds (sealFrom 1 rs) :=
  (stored_sealFrom hsize hlsn).holds_openWAL

lemma currentLSN_logWith : (logWith rs).currentLSN = nextLSN (sealFrom 1 rs) := by
  rw [logWith, (stored_sealFrom hsize hlsn).openWAL_eq]

end

lemma one_le_lsn_sealFrom (rs : List WALRecord) : ∀ r ∈ sealFrom 1 rs, 1 ≤ r.lsn := by
  intro r hr
  obtain ⟨n, hn, r₀, -, rfl⟩ := mem_sealFrom hr
  exact hn

/-- Two pages with one byte of data each. -/
def twoPages : PageFile := ⟨[⟨0, []⟩, ⟨1, [0]⟩, ⟨2, [0]⟩]⟩

lemma twoPages_wellFormed : twoPages.layout.WellFormed := by
  intro p header length hp hget
  obtain _ | _ | _ | p := p
  · exact absurd rfl hp
  · exact .inl (congrArg Prod.fst (some.inj hget)).symm
  · exact .inl (congrArg Prod.fst (some.inj hget)).symm
  · cases hget

/-- A transaction that commits while another one is unfinished. -/
def commitAndCrash : List WALRecord :=
  [newWALRecord 0 1 walBegin, newWALUpdateRecord 0 1 1 0 [0] [7], newWALRecord 0 2 walBegin,
    newWALUpdateRecord 0 2 2 0 [0] [9], newWALRecord 0 1 walCommit]

lemma byte_twoPages (h : (twoPages.byte p i).isSome) : (p = 1 ∨ p = 2) ∧ i = 0 := by
  obtain ⟨hp, header, length, hget, hlt⟩ := (twoPages.byte_isSome_iff p i).mp h
  obtain _ | _ | _ | p := p
  · exact absurd rfl hp
  · cases hget
    exact ⟨.inl rfl, Nat.lt_one_iff.mp hlt⟩
  · cases hget
    exact ⟨.inr rfl, Nat.lt_one_iff.mp hlt⟩
  · cases hget

lemma commitAndCrash_recoverable : Recoverable twoPages (sealFrom 1 commitAndCrash) := by
  refine ⟨?_, ?_, ?_⟩
  · intro p i b _ hb
    obtain ⟨r, -, hbefore⟩ := exists_of_findSome?_eq_some hb
    obtain ⟨rfl | rfl, rfl⟩ := byte_twoPages (PageFile.byte_isSome_of_imageAt hbefore)
    · cases hb
    · exact hb
  · intro p i b _ hnone hb
    obtain ⟨r, -, hafter⟩ := exists_of_findSome?_eq_some hb
    obtain ⟨rfl | rfl, rfl⟩ := byte_twoPages (PageFile.byte_isSome_of_imageAt hafter)
    · exact hb
    · cases hnone
  · intro p i b hnone hb
    have hsome : (twoPages.byte p i).isSome := by
      rcases hb with hbyte | ⟨r, -, -, hafter⟩
      · rw [hbyte]
        rfl
      · exact PageFile.byte_isSome_of_imageAt hafter
    obtain ⟨rfl | rfl, rfl⟩ := byte_twoPages hsome
    iterate 2 cases (hnone (by decide)).2

/-- The orders of the keys. -/
def ascendingOrders : RecoveryOrders := ⟨.ascending, .ascending⟩

theorem recovery_correct_commitAndCrash : ∃ w' pages,
    recover ascendingOrders (logWith commitAndCrash) twoPages = .ok (w', pages) ∧
      ∀ p i, pages.byte p i = committedByte twoPages (sealFrom 1 commitAndCrash) p i :=
  (recovery_correct ascendingOrders (logWith_holds commitAndCrash (by decide) (by decide))
    (one_le_lsn_sealFrom _) twoPages_wellFormed).mpr commitAndCrash_recoverable twoPages
      (partlyWritten_refl _ _)

/-- A transaction that was aborted after an update. -/
def abortedUpdate : List WALRecord :=
  [newWALRecord 0 1 walBegin, newWALUpdateRecord 0 1 1 0 [0] [7], newWALRecord 0 1 walAbort]

/-- Recovery writes the update of an aborted transaction to a page that did not have it. -/
theorem aborted_update_redone : ∃ w' pages,
    recover ascendingOrders (logWith abortedUpdate) twoPages = .ok (w', pages) ∧
      pages.byte 1 0 = some 7 ∧
      committedByte twoPages (sealFrom 1 abortedUpdate) 1 0 = some 0 := by
  obtain ⟨w', hrecover⟩ := recover_ok (logWith_holds abortedUpdate (by decide) (by decide))
    (one_le_lsn_sealFrom _) ascendingOrders twoPages
  exact ⟨w', _, hrecover, rfl, rfl⟩

end Oba.Storage
