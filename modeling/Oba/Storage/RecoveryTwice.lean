import Oba.Storage.RecoveryCorrect

/-! # Recovering twice

The first recovery appends abort records for the transactions it has undone. To the second
one these are aborted transactions: it redoes their updates and does not undo them.
-/

namespace Oba.Storage

open UnorderedMap List
open Option (some_or none_or)

lemma mem_abortRecords {r : WALRecord} {lsn : Nat} {txs : List UInt64}
    (h : r ∈ abortRecords lsn txs) : lsn ≤ r.lsn ∧ r.type = walAbort ∧ r.txID ∈ txs := by
  obtain ⟨n, hn, r₀, hr₀, rfl⟩ := mem_sealFrom h
  obtain ⟨tx, htx, rfl⟩ := mem_map.mp hr₀
  exact ⟨hn, rfl, htx⟩

lemma fate_append (txID : UInt64) (a b : List WALRecord) :
    fate txID (a ++ b) = (fate txID a).or (fate txID b) := by
  rw [fate, fate, find?_append]
  cases a.find? fun r => decide (r.isControl ∧ r.txID = txID) <;> rfl

lemma exists_mem_abortRecords {tx : UInt64} {txs : List UInt64} (htx : tx ∈ txs) (lsn : Nat) :
    ∃ r ∈ abortRecords lsn txs, r.txID = tx := by
  induction txs generalizing lsn with
  | nil => exact absurd htx not_mem_nil
  | cons first rest ih =>
    rcases mem_cons.mp htx with rfl | hrest
    · exact ⟨_, mem_cons_self, rfl⟩
    · obtain ⟨r, hr, heq⟩ := ih hrest (lsn + 1)
      exact ⟨r, mem_cons_of_mem _ hr, heq⟩

lemma fate_abortRecords (txID : UInt64) (lsn : Nat) (txs : List UInt64) :
    fate txID (abortRecords lsn txs).reverse = if txID ∈ txs then some walAbort else none := by
  unfold fate
  cases hfind : (abortRecords lsn txs).reverse.find?
      fun r => decide (r.isControl ∧ r.txID = txID) with
  | some r =>
    have hmem := mem_abortRecords (mem_reverse.mp (mem_of_find?_eq_some hfind))
    have hfound := find?_some hfind
    simp only [decide_eq_true_eq] at hfound
    have htx : r.txID = txID := hfound.2
    rw [if_pos (htx ▸ hmem.2.2), Option.map_some, hmem.2.1]
  | none =>
    rw [if_neg, Option.map_none]
    intro htx
    obtain ⟨r, hr, heq⟩ := exists_mem_abortRecords htx lsn
    have hcontrol : r.isControl = true := by simp [WALRecord.isControl, (mem_abortRecords hr).2.1]
    exact find?_eq_none.mp hfind r (mem_reverse.mpr hr) (decide_eq_true ⟨hcontrol, heq⟩)

lemma mem_undoTxs {records : List WALRecord} {order : Order UInt64 TxState} {txID : UInt64} :
    txID ∈ undoTxs (analysis records) order ↔ unfinished records txID := by
  rw [← (analysis_activeTx records txID).2, ← order.mem_range]
  simp [undoTxs]

/-- The abort records leave nothing unfinished. -/
lemma undoneUpdates_aborted (records : List WALRecord) (order : Order UInt64 TxState)
    (lsn : Nat) : undoneUpdates
      (records ++ abortRecords lsn (undoTxs (analysis records) order)) = [] := by
  rw [undoneUpdates, filter_eq_nil_iff]
  intro r _ h
  have hunfinished := (of_decide_eq_true h).2
  unfold unfinished at hunfinished
  rw [reverse_append, fate_append, fate_abortRecords] at hunfinished
  by_cases htx : r.txID ∈ undoTxs (analysis records) order
  · rw [if_pos htx, some_or] at hunfinished
    exact absurd hunfinished (by decide)
  · rw [if_neg htx] at hunfinished
    exact htx (mem_undoTxs.mpr hunfinished)

lemma redoneUpdates_aborted (records : List WALRecord) (lsn : Nat) (txs : List UInt64) :
    redoneUpdates (records ++ abortRecords lsn txs) = redoneUpdates records := by
  have hbegun : ∀ tx, begun (records ++ abortRecords lsn txs) tx = begun records tx := by
    intro tx
    have hnone : (abortRecords lsn txs).any (fun r => decide (r.type = walBegin ∧ r.txID = tx)) =
        false := by
      rw [any_eq_false]
      intro r hr h
      rw [(mem_abortRecords hr).2.1] at h
      exact absurd (of_decide_eq_true h).1 (by decide)
    rw [begun, any_append, hnone, Bool.or_false, ← begun]
  have haborts : (abortRecords lsn txs).filter (fun r => decide (r.type = walUpdate ∧
      begun (records ++ abortRecords lsn txs) r.txID)) = [] := by
    rw [filter_eq_nil_iff]
    intro r hr h
    rw [(mem_abortRecords hr).2.1] at h
    exact absurd (of_decide_eq_true h).1 (by decide)
  rw [redoneUpdates, filter_append, haborts, append_nil]
  simp only [hbegun]
  rfl

/-- There are no more transactions to undo than records. -/
lemma length_undoTxs_le (records : List WALRecord) (order : Order UInt64 TxState) :
    (undoTxs (analysis records) order).length ≤ records.length := by
  have hnodup : (undoTxs (analysis records) order).Nodup :=
    (order.keys_nodup (analysis records).activeTx).sublist (filter_sublist.map _)
  have hsubset : undoTxs (analysis records) order ⊆ records.map WALRecord.txID := by
    intro tx htx
    have hfate : fate tx records.reverse = some walBegin := of_decide_eq_true (mem_undoTxs.mp htx)
    obtain ⟨r, hfind, -⟩ := Option.map_eq_some_iff.mp hfate
    have hfound := find?_some hfind
    simp only [decide_eq_true_eq] at hfound
    exact mem_map.mpr ⟨r, mem_reverse.mp (mem_of_find?_eq_some hfind), hfound.2⟩
  have hle := (subperm_of_subset hnodup hsubset).length_le
  rwa [length_map] at hle

section

variable {w : WAL} {records : List WALRecord} (hw : w.Holds records)
  (hpos : ∀ r ∈ records, 1 ≤ r.lsn)
include hw hpos

/-- Recovery leaves a log that holds the abort records as well. -/
lemma recover_holds (hlsn : w.currentLSN + records.length ≤ 256 ^ 8) (orders : RecoveryOrders)
    (f : PageFile) :
    ∃ w', recover orders w f = .ok (w', recoveredPages records f) ∧
      w'.Holds (records ++ abortRecords w.currentLSN
        (undoTxs (analysis records) orders.activeTx)) := by
  have hlength := length_undoTxs_le records orders.activeTx
  obtain ⟨w', haborts, hw'⟩ := hw.flushed.appendAborts
    (undoTxs (analysis records) orders.activeTx) (show w.currentLSN + _ ≤ _ by omega)
  exact ⟨_, recover_eq_ok hw hpos orders f haborts hw'.buffer, hw'.flushed⟩

/-- The LSNs of the abort records follow those of the log. -/
lemma WAL.Holds.one_le_lsn (order : Order UInt64 TxState) :
    ∀ r ∈ records ++ abortRecords w.currentLSN (undoTxs (analysis records) order), 1 ≤ r.lsn := by
  intro r hr
  rcases mem_append.mp hr with hold | hnew
  · exact hpos r hold
  · obtain ⟨hlsn, -, htx⟩ := mem_abortRecords hnew
    have hfate : fate r.txID records.reverse = some walBegin :=
      of_decide_eq_true (mem_undoTxs.mp htx)
    obtain ⟨r₀, hfind, -⟩ := Option.map_eq_some_iff.mp hfate
    have hmem := mem_reverse.mp (mem_of_find?_eq_some hfind)
    have hcurrent := hw.current r₀ hmem
    omega

end

/-- Where an unfinished transaction has written, its first before image agrees with the last
after image. -/
def UndoneUnseen (layout : Layout) (records : List WALRecord) : Prop :=
  ∀ p i before after, layout.Initialised p → firstUnfinished layout records p i = some before →
    lastUpdate layout records p i = some after → after = before

/-- Redoing the updates again changes nothing exactly when no after image covers up a before
image. -/
lemma redone_again_iff (records : List WALRecord) {f : PageFile} (hwf : f.layout.WellFormed) :
    (∀ p i, (if f.layout.Initialised p then lastUpdate f.layout records p i else none).or
      ((recoveredPages records f).byte p i) = (recoveredPages records f).byte p i) ↔
    UndoneUnseen f.layout records := by
  have hbyte : ∀ p i, (recoveredPages records f).byte p i = (if f.layout.Initialised p then
      (firstUnfinished f.layout records p i).or (lastUpdate f.layout records p i)
        else none).or (f.byte p i) := byte_recoveredPages records hwf
  constructor
  · intro hall p i before after hinit hbefore hafter
    have hsame := hall p i
    rw [hbyte, if_pos hinit, if_pos hinit, hbefore, hafter] at hsame
    exact Option.some.inj hsame
  · intro hunseen p i
    rw [hbyte]
    by_cases hinit : f.layout.Initialised p
    · rw [if_pos hinit, if_pos hinit]
      cases hafter : lastUpdate f.layout records p i with
      | none => rw [none_or]
      | some after =>
        cases hbefore : firstUnfinished f.layout records p i with
        | none => rw [none_or, some_or, some_or]
        | some before =>
          rw [hunseen p i before after hinit hbefore hafter, some_or, some_or,
            some_or]
    · rw [if_neg hinit, none_or]

/-- A second recovery leaves the pages as the first one has left them if and only if every
update that the first one has undone agrees with what it has redone. -/
theorem recovery_idempotent {w : WAL} {records : List WALRecord} {f : PageFile}
    (first second : RecoveryOrders) (hw : w.Holds records) (hpos : ∀ r ∈ records, 1 ≤ r.lsn)
    (hlsn : w.currentLSN + records.length ≤ 2 ^ 64) (hwf : f.layout.WellFormed) :
    (∃ w₁ f₁ w₂ f₂, recover first w f = .ok (w₁, f₁) ∧ recover second w₁ f₁ = .ok (w₂, f₂) ∧
      ∀ p i, f₂.byte p i = f₁.byte p i) ↔ UndoneUnseen f.layout records := by
  obtain ⟨w₁, hfirst, hw₁⟩ := recover_holds hw hpos hlsn first f
  obtain ⟨w₂, hsecond⟩ := recover_ok hw₁ (hw.one_le_lsn hpos first.activeTx) second
    (recoveredPages records f)
  have hlayout := layout_recoveredPages records hwf
  have hbyte : ∀ p i, (recoveredPages (records ++ abortRecords w.currentLSN
      (undoTxs (analysis records) first.activeTx)) (recoveredPages records f)).byte p i =
        (if f.layout.Initialised p then lastUpdate f.layout records p i else none).or
          ((recoveredPages records f).byte p i) := by
    intro p i
    rw [byte_recoveredPages _ (hlayout ▸ hwf), hlayout, undoneUpdates_aborted,
      redoneUpdates_aborted]
    rfl
  have hiff := redone_again_iff records hwf
  constructor
  · rintro ⟨w₁', f₁, w₂', f₂, hfirst', hsecond', hsame⟩
    cases hfirst.symm.trans hfirst'
    cases hsecond.symm.trans hsecond'
    exact hiff.mp fun p i => (hbyte p i).symm.trans (hsame p i)
  · intro hunseen
    exact ⟨w₁, _, w₂, _, hfirst, hsecond, fun p i => (hbyte p i).trans (hiff.mpr hunseen p i)⟩

/-- A transaction that committed before the crash. -/
def committedUpdate : List WALRecord :=
  [newWALRecord 0 1 walBegin, newWALUpdateRecord 0 1 1 0 [0] [7], newWALRecord 0 1 walCommit]

theorem recovery_idempotent_committedUpdate : ∃ w₁ f₁ w₂ f₂,
    recover ascendingOrders (logWith committedUpdate) twoPages = .ok (w₁, f₁) ∧
      recover ascendingOrders w₁ f₁ = .ok (w₂, f₂) ∧ ∀ p i, f₂.byte p i = f₁.byte p i := by
  refine (recovery_idempotent ascendingOrders ascendingOrders
    (logWith_holds committedUpdate (by decide) (by decide)) (one_le_lsn_sealFrom _) ?_
    twoPages_wellFormed).mpr ?_
  · rw [currentLSN_logWith committedUpdate (by decide) (by decide)]
    decide
  · intro p i before after _ hbefore
    cases hbefore

/-- A transaction that was unfinished at the crash. -/
def unfinishedUpdate : List WALRecord :=
  [newWALRecord 0 1 walBegin, newWALUpdateRecord 0 1 1 0 [0] [7]]

/-- The second recovery writes the update that the first one has undone. -/
theorem undone_update_redone : ∃ w₁ f₁ w₂ f₂,
    recover ascendingOrders (logWith unfinishedUpdate) twoPages = .ok (w₁, f₁) ∧
      recover ascendingOrders w₁ f₁ = .ok (w₂, f₂) ∧
      f₁.byte 1 0 = some 0 ∧ f₂.byte 1 0 = some 7 := by
  have hw := logWith_holds unfinishedUpdate (by decide) (by decide)
  have hpos := one_le_lsn_sealFrom unfinishedUpdate
  have hlsn : (logWith unfinishedUpdate).currentLSN + (sealFrom 1 unfinishedUpdate).length ≤
      256 ^ 8 := by
    rw [currentLSN_logWith unfinishedUpdate (by decide) (by decide)]
    decide
  obtain ⟨w₁, hfirst, hw₁⟩ := recover_holds hw hpos hlsn ascendingOrders twoPages
  obtain ⟨w₂, hsecond⟩ := recover_ok hw₁ (hw.one_le_lsn hpos _) ascendingOrders
    (recoveredPages (sealFrom 1 unfinishedUpdate) twoPages)
  refine ⟨w₁, _, w₂, _, hfirst, hsecond, rfl, ?_⟩
  rfl

end Oba.Storage
