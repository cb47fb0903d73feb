import Oba.Storage.Engine
import Oba.Storage.RadixCache
import Oba.Storage.WAL

/-! # Opening and closing the database

While a database is open, its transactions are logged and the DN index is kept on its root
page when it fits. `Close` writes the caches, and opening the files again reads the caches if
they were written at the position where the log ends. Without its cache the index comes from
the root page. Without theirs a thousand entries are loaded from their pages in the background,
which is modelled as a part of opening, and the others when they are read.
-/

namespace Oba.Storage

open ByteCodec

/-- An open database. `entryCache` is the entry cache on the disk. -/
structure Session (τ : Type) where
  db : ObaDB τ
  wal : WAL
  rootPage : RadixTree
  entryCache : Option Bytes

/-- What a closed database leaves on the disk. -/
structure Files (τ : Type) where
  pages : Nat → Option Attributes
  nextPage : Nat
  rootPage : RadixTree
  indexes : List (Bytes × IndexType)
  trees : τ
  wal : Bytes
  radixCache : Option Bytes
  entryCache : Option Bytes

/-- A call of a transaction that writes. -/
inductive WriteCall
  | put (orders : Orders) (entry : Entry)
  | delete (orders : Orders) (dn : Bytes)

namespace Session

variable {τ : Type}

/-- The entry at a path of the index takes the place of the chain of its DN, if its page can be
read. -/
def preload (db : ObaDB τ) (store : VersionStore) (p : List Bytes × Nat) : VersionStore :=
  match db.pages p.2 with
  | none => store
  | some data => { store with
      versions := Function.update store.versions (joinDNReverse p.1) [⟨0, 1, data, p.2, false⟩] }

def preloadHotEntries (db : ObaDB τ) : ObaDB τ :=
  let maxPreload := 1000
  { db with
    store := ((db.radix.paths.filter (·.2 ≠ 0)).take maxPreload).foldl (preload db) db.store }

/-- `initComponents`. The preload has ended before the first call. -/
def openFiles (files : Files τ) : Session τ :=
  let wal := openWAL files.wal
  let (store, loaded) := VersionStore.new.loadCache files.entryCache wal.currentLSN
  let db : ObaDB τ :=
    { store := store
      radix := (RadixTree.loadCache files.radixCache wal.currentLSN).getD files.rootPage
      pages := files.pages
      nextPage := files.nextPage
      nextTxID := 1
      currentTS := 0
      active := []
      indexes := files.indexes
      trees := files.trees }
  { db := if loaded then db else preloadHotEntries db
    wal := wal
    rootPage := files.rootPage
    entryCache := files.entryCache }

/-- A new database, whose index has nothing to preload. -/
def create (trees : τ) : Session τ :=
  { db := .new trees, wal := openWAL [], rootPage := ⟨[]⟩, entryCache := none }

def begin (s : Session τ) : Except EngineError (Nat × Session τ) :=
  match s.wal.append (newWALRecord 0 (.ofNat s.db.nextTxID) walBegin) with
  | .error _ => .error .walWriteFailed
  | .ok (_, wal) => .ok (s.db.begin.1, { s with db := s.db.begin.2, wal := wal })

variable (trees : IndexTrees τ)

def call (s : Session τ) (tx : Nat) : WriteCall → Except EngineError Unit × ObaDB τ
  | .put orders entry => s.db.put trees orders tx entry
  | .delete orders dn => s.db.delete trees orders tx dn

/-- A call that returns no error. A change of the index goes to the root page. -/
def write (s : Session τ) (tx : Nat) (c : WriteCall) : Except EngineError (Session τ) :=
  match s.call trees tx c with
  | (.error err, _) => .error err
  | (.ok (), db) => .ok { s with db := db, rootPage := s.rootPage.persistRoot db.radix }

/-- A commit that returns no error, with its record in the log. -/
def commit (s : Session τ) (tx : Nat) : Except EngineError (Session τ) :=
  match s.db.commit tx with
  | (.error err, _) => .error err
  | (.ok (), db) =>
    match s.wal.append (newWALRecord 0 (.ofNat tx) walCommit) with
    | .error _ => .error .walWriteFailed
    | .ok (_, wal) =>
      match wal.sync with
      | .error _ => .error .walSyncFailed
      | .ok wal => .ok { s with db := db, wal := wal }

/-- The calls of a transaction, up to the first error. -/
def writes (s : Session τ) (tx : Nat) : List WriteCall → Except EngineError (Session τ)
  | [] => .ok s
  | c :: rest =>
    match s.write trees tx c with
    | .error err => .error err
    | .ok s => s.writes tx rest

/-- A transaction all of whose calls return no error. -/
def transaction (s : Session τ) (calls : List WriteCall) : Except EngineError (Session τ) :=
  match s.begin with
  | .error err => .error err
  | .ok (tx, s) =>
    match s.writes trees tx calls with
    | .error err => .error err
    | .ok s => s.commit tx

def run (s : Session τ) : List (List WriteCall) → Except EngineError (Session τ)
  | [] => .ok s
  | calls :: rest =>
    match s.transaction trees calls with
    | .error err => .error err
    | .ok s => s.run rest

/-- `Close`. The caches carry the position of the log; the loops over the index, over the
version map and over the attributes of the versions run in the given orders. -/
def close (s : Session τ) (walk : s.db.radix.Walk) (range : s.db.store.Range)
    (orders : Bytes → MapOrder) : Except WALFault (Files τ) :=
  match s.wal.close with
  | .error fault => .error fault
  | .ok wal => .ok
    { pages := s.db.pages
      nextPage := s.db.nextPage
      rootPage := s.rootPage.persistRoot s.db.radix
      indexes := s.db.indexes
      trees := s.db.trees
      wal := wal
      radixCache := some (RadixTree.saveCache walk s.wal.currentLSN)
      entryCache := (VersionStore.saveCache range orders s.wal.currentLSN).or s.entryCache }

end Session

end Oba.Storage
