import Mathlib.Data.List.Sort
import Oba.Library.Patch
import Oba.Storage.WAL

/-! # Crash recovery

`recovery.go`: an analysis of all records of the log, a redo pass over the updates of known
transactions and an undo pass over those of unfinished ones, for which abort records are
appended. Pages are read from and written to the page file.
-/

namespace Oba.Storage

open UnorderedMap

/-! ## Pages -/

/-- A page with the page number in its header. A page that was never written is all zeros. -/
structure Page where
  pageID : Nat
  data : Bytes
  deriving DecidableEq, Repr

/-- The pages of a file by their number; the first one is the header of the file. -/
structure PageFile where
  pages : List Page
  deriving DecidableEq, Repr

namespace PageFile

section

variable (f : PageFile)

def readPage (id : Nat) : Option Page := if id = 0 then none else f.pages[id]?

/-- `WritePage` goes by the number in the header of the page; `none` is an error. -/
def writePage (page : Page) : Option PageFile :=
  if page.pageID = 0 then none
  else if f.pages.length ≤ page.pageID then none
  else some ⟨f.pages.set page.pageID page⟩

/-- Write an image over the data of a page. A page that cannot be read and an image that is
empty or goes past the end of the data are passed over. -/
def applyImage (pageID : UInt64) (offset : UInt16) (image : Bytes) : Option PageFile :=
  if pageID = 0 then some f
  else match f.readPage pageID.toNat with
    | none => some f
    | some page =>
      if image ≠ [] ∧ offset.toNat + image.length ≤ page.data.length then
        f.writePage { page with data := Patch.apply ⟨offset.toNat, image⟩ page.data }
      else some f

def redoUpdate (record : WALRecord) : Option PageFile :=
  f.applyImage record.pageID record.offset record.newData

def undoUpdate (record : WALRecord) : Option PageFile :=
  f.applyImage record.pageID record.offset record.oldData

end

end PageFile

/-! ## Analysis -/

inductive TxState
  | active
  | committed
  | aborted
  deriving DecidableEq, Repr

/-- The state of `Recovery` that the passes use. -/
structure Analysis where
  activeTx : Std.ExtTreeMap UInt64 TxState
  dirtyPages : Std.ExtTreeMap UInt64 Nat
  checkpointLSN : Nat

def Analysis.step (a : Analysis) (record : WALRecord) : Analysis :=
  if record.type = walBegin then
    { a with activeTx := a.activeTx.insert record.txID .active }
  else if record.type = walCommit then
    { a with activeTx := a.activeTx.modify record.txID fun _ => .committed }
  else if record.type = walAbort then
    { a with activeTx := a.activeTx.modify record.txID fun _ => .aborted }
  else if record.type = walUpdate then
    { a with dirtyPages := a.dirtyPages.insertIfNew record.pageID record.lsn }
  else if record.type = walCheckpoint then
    { a with checkpointLSN := record.lsn }
  else a

def analysis (records : List WALRecord) : Analysis :=
  records.foldl Analysis.step ⟨∅, ∅, 0⟩

/-- How the loops over the dirty pages and over the transactions run through their maps. -/
structure RecoveryOrders where
  dirtyPages : Order UInt64 Nat
  activeTx : Order UInt64 TxState

/-- The end of `analysis`: the LSN of the checkpoint or of the first record, or a smaller one
of a dirty page. -/
def Analysis.redoLSN (a : Analysis) (order : Order UInt64 Nat) (records : List WALRecord) : Nat :=
  let start := if a.checkpointLSN = 0 then (records.head?.map WALRecord.lsn).getD 0
    else a.checkpointLSN
  (order.range a.dirtyPages).foldl
    (fun redoLSN page => if redoLSN = 0 ∨ page.2 < redoLSN then page.2 else redoLSN) start

/-! ## Redo and undo -/

/-- Errors of single updates are passed over. -/
def redo (a : Analysis) (redoLSN : Nat) (records : List WALRecord) (f : PageFile) : PageFile :=
  records.foldl (fun f record =>
    if record.lsn < redoLSN then f
    else if record.type ≠ walUpdate then f
    else if record.txID ∉ a.activeTx then f
    else (f.redoUpdate record).getD f) f

/-- The updates of transactions that are neither committed nor aborted, the last one first. -/
def undoRecords (a : Analysis) (records : List WALRecord) : List WALRecord :=
  (records.filter fun record =>
    record.type = walUpdate ∧ a.activeTx[record.txID]? = some .active).mergeSort
      fun x y => y.lsn ≤ x.lsn

def undoPages (a : Analysis) (records : List WALRecord) (f : PageFile) : PageFile :=
  (undoRecords a records).foldl (fun f record => (f.undoUpdate record).getD f) f

/-- The transactions to undo, in the order of a loop over the map. -/
def undoTxs (a : Analysis) (order : Order UInt64 TxState) : List UInt64 :=
  ((order.range a.activeTx).filter fun tx => tx.2 = .active).map Prod.fst

def appendAborts (w : WAL) : List UInt64 → Except WALFault WAL
  | [] => .ok w
  | tx :: rest =>
    match w.append (newWALRecord 0 tx walAbort) with
    | .error fault => .error fault
    | .ok (_, w) => appendAborts w rest

/-- `Recover` on a log and the pages of a file. -/
def recover (orders : RecoveryOrders) (w : WAL) (f : PageFile) :
    Except WALFault (WAL × PageFile) := do
  let w ← w.flushBuffer
  let records := w.records w.lsnIndex.size 1
  let a := analysis records
  let f := redo a (a.redoLSN orders.dirtyPages records) records f
  let txs := undoTxs a orders.activeTx
  if txs = [] then .ok (w, f)
  else
    let f := undoPages a records f
    let w ← appendAborts w txs
    let w ← w.sync
    .ok (w, f)

end Oba.Storage
