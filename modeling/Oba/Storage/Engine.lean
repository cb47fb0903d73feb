import Oba.Storage.EntryCodec
import Oba.Storage.Radix
import Oba.Storage.VersionStore

/-! # The storage engine

An open, writable `ObaDB` without encryption, over a disk that does not fail. The index trees
are any implementation of insertion and deletion; an insertion may fail.
-/

namespace Oba.Storage

open UnorderedMap

/-- The loops over attribute maps that one command can run. -/
inductive RangeSite
  | equal
  | newUid
  | oldUid (position : Nat)
  | write
  | oldIndex (attr : Bytes)
  | newIndex (attr : Bytes)
  | deleteIndex (attr : Bytes)
  deriving DecidableEq, Repr

/-- The iteration order of every loop that a command runs. -/
abbrev Orders := RangeSite → MapOrder

inductive EngineError
  | invalidDN
  | invalidEntry
  | entryNotFound
  | uidNotUnique
  | version (err : VersionError)
  | radix (err : RadixError)
  | index
  | txNotActive
  | writeConflict
  | walWriteFailed
  | walSyncFailed
  deriving DecidableEq, Repr

/-! ## Indexes -/

inductive IndexType
  | equality
  | presence
  | substring
  deriving DecidableEq, Repr

/-- The slot is 0 throughout. -/
structure EntryRef where
  pageID : Nat
  dn : Bytes
  deriving DecidableEq, Repr

/-- The trees behind the indexes. An insertion says whether it has succeeded; the trees may
have changed even if it has not. -/
structure IndexTrees (τ : Type) where
  insert : Bytes → Bytes → EntryRef → τ → τ × Bool
  delete : Bytes → Bytes → EntryRef → τ → τ

/-- Trees that keep nothing and accept every key. -/
def IndexTrees.empty : IndexTrees Unit := ⟨fun _ _ _ t => (t, true), fun _ _ _ t => t⟩

/-- `generateSubstrings` -/
def generateSubstrings (value : Bytes) : List Bytes :=
  (List.range value.length).flatMap fun start =>
    (List.range (value.length - (start + 2))).map fun more => (value.drop start).take (more + 3)

/-- The keys an index of the given type has for the values of an attribute. -/
def indexKeys (type : IndexType) (values : List Bytes) : List Bytes :=
  let values := values.filter (· ≠ [])
  match type with
  | .equality => values
  | .presence => if values = [] then [] else [[1]]
  | .substring => values.flatMap generateSubstrings

/-- Insert keys until one fails. -/
def insertKeys {τ : Type} (trees : IndexTrees τ) (attr : Bytes) (ref : EntryRef) :
    List Bytes → τ → τ × Bool
  | [], t => (t, true)
  | key :: keys, t =>
    match trees.insert attr key ref t with
    | (t, true) => insertKeys trees attr ref keys t
    | (t, false) => (t, false)

def addToIndexes {τ : Type} (trees : IndexTrees τ) (site : Bytes → MapOrder) (ref : EntryRef)
    (attributes : Attributes) : List (Bytes × IndexType) → τ → τ × Bool
  | [], t => (t, true)
  | (attr, type) :: indexes, t =>
    match insertKeys trees attr ref
        (indexKeys type (lookupFolded (site attr) attr attributes)) t with
    | (t, true) => addToIndexes trees site ref attributes indexes t
    | (t, false) => (t, false)

def removeFromIndexes {τ : Type} (trees : IndexTrees τ) (site : Bytes → MapOrder) (ref : EntryRef)
    (attributes : Attributes) (indexes : List (Bytes × IndexType)) (t : τ) : τ :=
  indexes.foldl (fun t index =>
    (indexKeys index.2 (lookupFolded (site index.1) index.1 attributes)).foldl
      (fun t key => trees.delete index.1 key ref t) t) t

/-- `DefaultIndexedAttributes` -/
def defaultIndexes : List (Bytes × IndexType) :=
  ["objectclass", "uid", "cn", "sn", "mail", "memberof"].map fun attr => (ascii attr, .equality)

/-! ## The database -/

/-- `pages` holds what was written to a data page. A transaction under way is kept with its
write set; its snapshot is its own identifier. -/
structure ObaDB (τ : Type) where
  store : VersionStore
  radix : RadixTree
  pages : Nat → Option Attributes
  nextPage : Nat
  nextTxID : Nat
  currentTS : Nat
  active : List (Nat × List Nat)
  indexes : List (Bytes × IndexType)
  trees : τ

/-- The part of a page that can hold data. -/
def pageDataSize : Nat := 4096 - 16

def normalizeDN (dn : Bytes) : Bytes := trimSpace (toLower dn)

lemma length_normalizeDN_le (dn : Bytes) : (normalizeDN dn).length ≤ dn.length :=
  (trimSpace_sublist _).length_le.trans_eq (length_toLower dn)

lemma normalizeDN_normalizeDN (dn : Bytes) : normalizeDN (normalizeDN dn) = normalizeDN dn := by
  unfold normalizeDN
  rw [toLower_trimSpace, toLower_toLower, trimSpace_trimSpace]

def isUsersSubtreeDN (dn : Bytes) : Bool :=
  normalizeDN dn ≠ [] ∧ contains ([44] ++ normalizeDN dn) (ascii ",ou=users,")

namespace ObaDB

variable {τ : Type}

def new (trees : τ) : ObaDB τ :=
  { store := .new, radix := ⟨[]⟩, pages := fun _ => none, nextPage := 1, nextTxID := 1
    currentTS := 0, active := [], indexes := defaultIndexes, trees := trees }

section

variable (db : ObaDB τ)

/-- The callback of `setupDiskLoader`: the page that the DN index names. -/
def diskLoader (dn : Bytes) : Option Version :=
  match db.radix.lookup dn with
  | none | some 0 => none
  | some (pageID + 1) => (db.pages (pageID + 1)).map fun data => ⟨0, 1, data, pageID + 1, false⟩

/-- The version of a DN that a transaction sees. -/
def visible (tx : Nat) (dn : Bytes) : Except VersionError Version × ObaDB τ :=
  let (result, store) := db.store.getVisibleForTx db.diskLoader dn tx tx
  (result, { db with store := store })

def begin : Nat × ObaDB τ :=
  (db.nextTxID, { db with nextTxID := db.nextTxID + 1, active := (db.nextTxID, []) :: db.active })

def isActive (tx : Nat) : Bool := (db.active.lookup tx).isSome

/-- `AddToWriteSet` -/
def addToWriteSet (tx pageID : Nat) : ObaDB τ :=
  { db with active := db.active.map fun t =>
      if t.1 = tx ∧ pageID ∉ t.2 then (t.1, t.2 ++ [pageID]) else t }

/-- The versions are committed before the transaction is checked. -/
def commit (tx : Nat) : Except EngineError Unit × ObaDB τ :=
  let db := { db with
    currentTS := db.currentTS + 1, store := db.store.commitVersion tx (db.currentTS + 1) }
  match db.active.lookup tx with
  | none => (.error .txNotActive, db)
  | some writeSet =>
    if db.active.any fun t => t.1 ≠ tx ∧ t.2.any (· ∈ writeSet) then (.error .writeConflict, db)
    else (.ok (), { db with active := db.active.filter (·.1 ≠ tx) })

def rollback (tx : Nat) : ObaDB τ :=
  { db with store := db.store.rollbackVersion tx, active := db.active.filter (·.1 ≠ tx) }

def get (tx : Nat) (dn : Bytes) : Except EngineError Entry × ObaDB τ :=
  if dn = [] then (.error .invalidDN, db)
  else match db.visible tx (normalizeDN dn) with
    | (.ok v, db) => (.ok ⟨normalizeDN dn, v.data⟩, db)
    | (.error .conflict, db) => (.error (.version .conflict), db)
    | (.error _, db) => (.error .entryNotFound, db)

end

/-! ### The uid check -/

/-- The scan of `checkUIDUnique` over the DNs of the index; it stops at a second owner. -/
def uidScan (orders : Orders) (tx : Nat) (dn uid : Bytes) :
    Nat → List Bytes → ObaDB τ → Bool × ObaDB τ
  | _, [], db => (true, db)
  | position, other :: rest, db =>
    match db.visible tx other with
    | (.error _, db) => uidScan orders tx dn uid position rest db
    | (.ok v, db) =>
      if other = [] ∨ other = dn ∨ ¬ isUsersSubtreeDN other then
        uidScan orders tx dn uid position rest db
      else if extractCanonicalUID (orders (.oldUid position)) v.data = uid then (false, db)
      else uidScan orders tx dn uid (position + 1) rest db

def checkUIDUnique (orders : Orders) (db : ObaDB τ) (tx : Nat) (dn : Bytes)
    (attributes : Attributes) : Bool × ObaDB τ :=
  let uid := extractCanonicalUID (orders .newUid) attributes
  if uid = [] ∨ ¬ isUsersSubtreeDN dn then (true, db)
  else uidScan orders tx dn uid 0 db.radix.iterate db

/-! ### Writes -/

variable (trees : IndexTrees τ)

/-- `allocateStorage`: data that does not fit is not written to its page. -/
def allocateStorage (db : ObaDB τ) (data : Attributes) (size : Nat) : Nat × ObaDB τ :=
  (db.nextPage, { db with
    nextPage := db.nextPage + 1
    pages := if size + 4 ≤ pageDataSize then Function.update db.pages db.nextPage (some data)
      else db.pages })

/-- `updateIndexesWithLocation` for a new entry; the old one is looked for on page 0. -/
def updateIndexes (orders : Orders) (db : ObaDB τ) (dn : Bytes) (old : Option Attributes)
    (new : Attributes) (pageID : Nat) : Except EngineError Unit × ObaDB τ :=
  let removed := match old with
    | some old => removeFromIndexes trees (orders <| .oldIndex ·) ⟨0, dn⟩ old db.indexes db.trees
    | none => db.trees
  match addToIndexes trees (orders <| .newIndex ·) ⟨pageID, dn⟩ new db.indexes removed with
  | (trees, true) => (.ok (), { db with trees := trees })
  | (trees, false) => (.error .index, { db with trees := trees })

/-- The DN index after a write: a DN that is there already keeps its old page. -/
def insertDN (db : ObaDB τ) (isNew : Bool) (dn : Bytes) (pageID : Nat) :
    Except RadixError RadixTree :=
  if isNew then
    match db.radix.insert dn pageID with
    | .error .entryExists => .ok db.radix
    | result => result
  else .ok db.radix

/-- `CreateVersionWithLocation`: a new version on a page of its own, unless the transaction has
ended or another one is writing the DN. -/
def createVersionWithLocation (db : ObaDB τ) (tx : Nat) (dn : Bytes) (data : Attributes)
    (size : Nat) : Except VersionError (Nat × ObaDB τ) :=
  if ¬ db.isActive tx then .error .aborted
  else match db.store.claim tx dn with
    | none => .error .conflict
    | some store =>
      let (pageID, db) := { db with store := store }.allocateStorage data size
      let created := db.store.createVersion db.diskLoader tx dn data pageID
      .ok (pageID, { db with store := created }.addToWriteSet tx pageID)

/-- `Put` after the uid check. A version keeps what reading its bytes gives. -/
def putVersion (orders : Orders) (db : ObaDB τ) (tx : Nat) (entry : Entry) :
    Except EngineError Unit × ObaDB τ :=
  let bytes := serializeEntry (orders .write) entry
  let data := (deserializeEntry bytes).getD ∅
  let (existing, db) := db.visible tx entry.dn
  let old := existing.toOption.map Version.data
  match db.createVersionWithLocation tx entry.dn data bytes.length with
  | .error err => (.error (.version err), db)
  | .ok (pageID, db) =>
    match db.insertDN old.isNone entry.dn pageID with
    | .ok radix =>
      updateIndexes trees orders { db with radix := radix } entry.dn old entry.attributes pageID
    | .error err => (.error (.radix err), db)

def put (orders : Orders) (db : ObaDB τ) (tx : Nat) (entry : Entry) :
    Except EngineError Unit × ObaDB τ :=
  if entry.dn = [] then (.error .invalidEntry, db)
  else
    match db.checkUIDUnique orders tx (normalizeDN entry.dn) entry.attributes with
    | (false, db) => (.error .uidNotUnique, db)
    | (true, db) => putVersion trees orders db tx ⟨normalizeDN entry.dn, entry.attributes⟩

/-- `DeleteVersion` of the version store, which adds to the write set of the transaction. -/
def deleteVersion (db : ObaDB τ) (tx : Nat) (dn : Bytes) : Except VersionError Nat × ObaDB τ :=
  if ¬ db.isActive tx then (.error .aborted, db)
  else match db.store.deleteVersion db.diskLoader tx dn with
    | (.error err, store) => (.error err, { db with store := store })
    | (.ok pageID, store) => (.ok pageID, { db with store := store }.addToWriteSet tx pageID)

/-- `Delete` after the DN is found, with the attributes that the indexes hold for it. -/
def deleteFound (orders : Orders) (db : ObaDB τ) (tx : Nat) (dn : Bytes) (old : Attributes) :
    Except EngineError Unit × ObaDB τ :=
  match db.deleteVersion tx dn with
  | (.error err, db) => (.error (.version err), db)
  | (.ok _, db) =>
    let removed :=
      removeFromIndexes trees (orders <| .deleteIndex ·) ⟨0, dn⟩ old db.indexes db.trees
    match db.radix.delete dn with
    | .ok radix => (.ok (), { db with radix := radix, trees := removed })
    | .error .entryNotFound => (.ok (), { db with trees := removed })
    | .error err => (.error (.radix err), db)

def delete (orders : Orders) (db : ObaDB τ) (tx : Nat) (dn : Bytes) :
    Except EngineError Unit × ObaDB τ :=
  if dn = [] then (.error .invalidDN, db)
  else match db.visible tx (normalizeDN dn) with
    | (.error .notFound, db) => (.error .entryNotFound, db)
    | (.error err, db) => (.error (.version err), db)
    | (.ok v, db) => deleteFound trees orders db tx (normalizeDN dn) v.data

/-- `SearchByDN` for the whole tree: the entries that a transaction sees. -/
def search (db : ObaDB τ) (tx : Nat) : List Bytes → List Entry × ObaDB τ
  | [] => ([], db)
  | dn :: rest =>
    match db.visible tx dn with
    | (.ok v, db) => (⟨dn, v.data⟩ :: (search db tx rest).1, (search db tx rest).2)
    | (.error _, db) => search db tx rest

def hasChildren (db : ObaDB τ) (dn : Bytes) : Except EngineError Bool :=
  if dn = [] then .error .invalidDN
  else match db.radix.hasChildren (normalizeDN dn) with
    | .error err => .error (.radix err)
    | .ok result => .ok result

/-- The iterator of `SearchByDN`, run to its end. -/
def searchByDN (db : ObaDB τ) (tx : Nat) (baseDN : Bytes) (scope : Scope) :
    Except RadixError (List Entry) × ObaDB τ :=
  if normalizeDN baseDN = [] ∧ scope = .subtree then
    ((.ok (db.search tx db.radix.iterate).1), (db.search tx db.radix.iterate).2)
  else match db.radix.iterator (normalizeDN baseDN) scope with
    | .error err => (.error err, db)
    | .ok dns => (.ok (db.search tx dns).1, (db.search tx dns).2)

/-- The iterator of `SearchByFilter`, run to its end, for a filter that accepts entries. -/
def searchByFilter (db : ObaDB τ) (tx : Nat) (baseDN : Bytes) (accepts : Entry → Bool) :
    Except RadixError (List Entry) × ObaDB τ :=
  match db.radix.iterator (normalizeDN baseDN) .subtree with
  | .error err => (.error err, db)
  | .ok dns => (.ok ((db.search tx dns).1.filter accepts), (db.search tx dns).2)

end ObaDB

end Oba.Storage
