import Oba.Raft.StateMachine

/-! # Snapshots

A snapshot is a version byte and four sections with their lengths: the main database, the log
database, the configuration and the ACLs. What is not attached has an empty section. The
configuration and ACL appliers are any implementations of their interfaces.
-/

namespace Oba.Raft

open ByteCodec Storage

/-- The part of `ConfigApplier` and `ACLApplier` that snapshots use; `none` is an error. -/
structure Applier (σ : Type) where
  snapshot : σ → Option Bytes
  restore : Bytes → σ → Option σ

/-- A state machine with the appliers that may be attached to it. -/
structure FullStateMachine (τ σ ρ : Type) extends ObaDBStateMachine τ where
  configApplier : Option σ
  aclApplier : Option ρ

/-- The iteration orders for the entries of a database, by their DNs. -/
abbrev EntryOrders := Bytes → Orders

/-- The iteration orders for the entries that a restore deletes and for those it puts. -/
structure RestoreOrders where
  deletes : EntryOrders
  puts : EntryOrders

section

variable {τ σ ρ : Type}

/-! ## Writing -/

/-- Entries as `snapshotEngine` writes them. -/
def writeEntries (orders : EntryOrders) (entries : List Entry) : Bytes :=
  putUint 4 entries.length ++
    entries.flatMap fun entry => putBlock 4 (serializeEntry (orders entry.dn .write) entry)

def snapshotEngine (orders : EntryOrders) (db : ObaDB τ) : Bytes × ObaDB τ :=
  let (tx, db) := db.begin
  let (entries, db) := db.search tx db.radix.iterate
  (writeEntries orders entries, db.rollback tx)

/-- The log database need not be attached, and then its section is empty. -/
def snapshotLog (orders : EntryOrders) : Option (ObaDB τ) → Bytes × Option (ObaDB τ)
  | none => ([], none)
  | some db => ((snapshotEngine orders db).1, some (snapshotEngine orders db).2)

def snapshotApplier (applier : Applier σ) : Option σ → Option Bytes
  | none => some []
  | some s => applier.snapshot s

/-- `Snapshot`. The databases list their entries, which may change their caches. -/
def FullStateMachine.snapshot (config : Applier σ) (acl : Applier ρ)
    (mainOrders logOrders : EntryOrders) (sm : FullStateMachine τ σ ρ) :
    Option Bytes × FullStateMachine τ σ ρ :=
  let (mainData, main) := snapshotEngine mainOrders sm.mainEngine
  let (logData, log) := snapshotLog logOrders sm.logEngine
  let data := do
    let configData ← snapshotApplier config sm.configApplier
    let aclData ← snapshotApplier acl sm.aclApplier
    some (2 :: (putBlock 4 mainData ++ putBlock 4 logData ++ putBlock 4 configData ++
      putBlock 4 aclData))
  (data, { sm with mainEngine := main, logEngine := log })

/-! ## Reading -/

inductive RestoreError
  | unexpectedEOF
  | corrupted
  | engine (err : EngineError)
  | applier
  deriving DecidableEq, Repr

variable (trees : IndexTrees τ)

/-- Delete entries, each in a transaction of its own; errors are ignored. -/
def deleteEntries (orders : EntryOrders) : List Bytes → ObaDB τ → ObaDB τ
  | [], db => db
  | dn :: rest, db =>
    let (tx, db) := db.begin
    let (_, db) := db.delete trees (orders dn) tx dn
    deleteEntries orders rest (db.commit tx).2

/-- Read entries and put each of them in a transaction of its own. -/
def putEntries (orders : EntryOrders) : Nat → Bytes → ObaDB τ → Option RestoreError × ObaDB τ
  | 0, _, db => (none, db)
  | count + 1, s, db =>
    match readBlock 4 s with
    | none => (some .unexpectedEOF, db)
    | some (entryData, s) =>
      match deserializeEntry entryData with
      | none => (some .corrupted, db)
      | some entry =>
        let (tx, db) := db.begin
        match db.put trees (orders entry.dn) tx entry with
        | (.error err, db) => (some (.engine err), db.rollback tx)
        | (.ok (), db) =>
          match db.commit tx with
          | (.error err, db) => (some (.engine err), db)
          | (.ok (), db) => putEntries orders count s db

/-- `restoreEngine`: delete what is there, the last entry first, and put what was saved. -/
def restoreEngine (orders : RestoreOrders) (db : ObaDB τ) (data : Bytes) :
    Option RestoreError × ObaDB τ :=
  match readUint 4 data with
  | none => (some .unexpectedEOF, db)
  | some (count, s) =>
    let (tx, db) := db.begin
    let (existing, db) := db.search tx db.radix.iterate
    let db := deleteEntries trees orders.deletes (existing.map Entry.dn).reverse (db.rollback tx)
    putEntries trees orders.puts count s db

/-- What `Restore` finds when it reads a section. Only the bytes of a section that is
attached are read. -/
inductive Section
  | missing
  | cut
  | skipped (rest : Bytes)
  | data (bytes rest : Bytes)
  deriving DecidableEq, Repr

def readSection (attached : Bool) (s : Bytes) : Section :=
  match readUint 4 s with
  | none => .missing
  | some (len, s) =>
    if 0 < len ∧ attached then
      match readBytes len s with
      | none => .cut
      | some (bytes, s) => .data bytes s
    else .skipped s

/-- Give a section to an applier. -/
def restoreApplier (applier : Applier σ) (attached : Option σ) (bytes : Bytes) :
    Option RestoreError × Option σ :=
  match attached with
  | none => (none, none)
  | some s =>
    match applier.restore bytes s with
    | none => (some .applier, some s)
    | some s => (none, some s)

namespace FullStateMachine

def restoreACL (acl : Applier ρ) (s : Bytes) (sm : FullStateMachine τ σ ρ) :
    Option RestoreError × FullStateMachine τ σ ρ :=
  match readSection sm.aclApplier.isSome s with
  | .missing | .skipped _ => (none, sm)
  | .cut => (some .unexpectedEOF, sm)
  | .data bytes _ =>
    let (err, applier) := restoreApplier acl sm.aclApplier bytes
    (err, { sm with aclApplier := applier })

section

variable (config : Applier σ) (acl : Applier ρ)

def restoreConfig (s : Bytes) (sm : FullStateMachine τ σ ρ) :
    Option RestoreError × FullStateMachine τ σ ρ :=
  match readSection sm.configApplier.isSome s with
  | .missing => (none, sm)
  | .cut => (some .unexpectedEOF, sm)
  | .skipped s => sm.restoreACL acl s
  | .data bytes s =>
    match restoreApplier config sm.configApplier bytes with
    | (some err, _) => (some err, sm)
    | (none, applier) => restoreACL acl s { sm with configApplier := applier }

/-- Only version 2 of the format has the sections of the appliers. -/
def restoreAppliers (version : UInt8) (s : Bytes) (sm : FullStateMachine τ σ ρ) :
    Option RestoreError × FullStateMachine τ σ ρ :=
  if 2 ≤ version then sm.restoreConfig config acl s else (none, sm)

def restoreLog (orders : RestoreOrders) (version : UInt8) (s : Bytes)
    (sm : FullStateMachine τ σ ρ) : Option RestoreError × FullStateMachine τ σ ρ :=
  match readSection sm.logEngine.isSome s, sm.logEngine with
  | .missing, _ => (none, sm)
  | .cut, _ => (some .unexpectedEOF, sm)
  | .data bytes s, some db =>
    match restoreEngine trees orders db bytes with
    | (some err, db) => (some err, { sm with logEngine := some db })
    | (none, db) => restoreAppliers config acl version s { sm with logEngine := some db }
  | .data _ s, none | .skipped s, _ => sm.restoreAppliers config acl version s

/-- `Restore`; the orders are those of the main and of the log database. -/
def restore (mainOrders logOrders : RestoreOrders) (data : Bytes) (sm : FullStateMachine τ σ ρ) :
    Option RestoreError × FullStateMachine τ σ ρ :=
  match data with
  | [] => (none, sm)
  | version :: s =>
    match readSection true s with
    | .missing | .cut => (some .unexpectedEOF, sm)
    | .skipped s => sm.restoreLog trees config acl logOrders version s
    | .data bytes s =>
      match restoreEngine trees mainOrders sm.mainEngine bytes with
      | (some err, db) => (some err, { sm with mainEngine := db })
      | (none, db) =>
        restoreLog trees config acl logOrders version s { sm with mainEngine := db }

end

end FullStateMachine

end

end Oba.Raft
