import Oba.Storage.Entry

/-! # The version store

Every DN has a chain of versions, newest first. Reads look at the chain, then at a cache of
recently used versions and then at the disk. A cached version that a transaction has put on
the chain is the version of the chain itself, so committing the chain commits it as well.
-/

namespace Oba.Storage

/-- `commitTS` is 0 for a version that is not committed. -/
structure Version where
  txID : Nat
  commitTS : Nat
  data : Attributes
  pageID : Nat
  deleted : Bool

namespace Version

def isVisibleTo (v : Version) (snapshot activeTxID : Nat) : Bool :=
  if v.commitTS = 0 then v.txID = activeTxID else v.commitTS ≤ snapshot

/-- An uncommitted version of the transaction. -/
def pendingOf (txID : Nat) (v : Version) : Bool := v.txID = txID ∧ v.commitTS = 0

def commit (txID commitTS : Nat) (v : Version) : Version :=
  if v.pendingOf txID then { v with commitTS := commitTS } else v

/-- What a reader of the version gets. -/
def live (v : Version) : Option Attributes := if v.deleted then none else some v.data

end Version

inductive VersionError
  | notFound
  | deleted
  | conflict
  | aborted
  deriving DecidableEq, Repr

/-- The cache is a list with the most recently used version first. -/
structure VersionStore where
  versions : Bytes → List Version
  cache : List (Bytes × Version)
  maxSize : Nat
  activeWriters : Bytes → Option Nat

namespace VersionStore

/-- The cache has room for `DefaultCacheSize` versions. -/
def new : VersionStore :=
  { versions := fun _ => [], cache := [], maxSize := 10000, activeWriters := fun _ => none }

section

variable (vs : VersionStore) (dn : Bytes)

/-- What `EntryCache.Get` does to the order of the cache. -/
def touch : VersionStore :=
  match vs.cache.lookup dn with
  | some v => { vs with cache := (dn, v) :: vs.cache.filter (·.1 ≠ dn) }
  | none => vs

/-- `EntryCache.Put`, which evicts the least recently used version from a full cache. -/
def cachePut (v : Version) : VersionStore :=
  match vs.cache.lookup dn with
  | some _ => { vs with cache := (dn, v) :: vs.cache.filter (·.1 ≠ dn) }
  | none =>
    let kept := if vs.maxSize ≤ vs.cache.length then vs.cache.dropLast else vs.cache
    { vs with cache := (dn, v) :: kept }

def cacheDelete : VersionStore :=
  { vs with cache := vs.cache.filter (·.1 ≠ dn) }

end

/-- A version that a read has found. -/
def found (v : Version) : Except VersionError Version :=
  if v.deleted then .error .deleted else .ok v

/-- `GetVisibleForTx`; `load` is the disk loader. -/
def getVisibleForTx (load : Bytes → Option Version) (vs : VersionStore) (dn : Bytes)
    (snapshot activeTxID : Nat) : Except VersionError Version × VersionStore :=
  match (vs.versions dn).find? (·.isVisibleTo snapshot activeTxID) with
  | some v => (found v, vs)
  | none =>
    match (vs.cache.lookup dn).filter (·.isVisibleTo snapshot activeTxID) with
    | some v => (found v, vs.touch dn)
    | none =>
      match load dn with
      | none => (.error .notFound, vs.touch dn)
      | some v => (if v.isVisibleTo snapshot activeTxID then found v else .error .notFound,
          (vs.touch dn).cachePut dn v)

/-- The version that a write finds when it looks at chain, cache and disk in turn. -/
def latest (load : Bytes → Option Version) (vs : VersionStore) (dn : Bytes) :
    Option Version × VersionStore :=
  match vs.versions dn with
  | v :: _ => (some v, vs)
  | [] => ((vs.cache.lookup dn).or (load dn), vs.touch dn)

/-- Claim a DN for a writing transaction. -/
def claim (vs : VersionStore) (txID : Nat) (dn : Bytes) : Option VersionStore :=
  if vs.activeWriters dn = none ∨ vs.activeWriters dn = some txID then
    some { vs with activeWriters := Function.update vs.activeWriters dn (some txID) }
  else none

/-- Put a new version on the chain, and below it what is found when there is no chain. -/
def createVersion (load : Bytes → Option Version) (vs : VersionStore) (txID : Nat) (dn : Bytes)
    (data : Attributes) (pageID : Nat) : VersionStore :=
  let version : Version := ⟨txID, 0, data, pageID, false⟩
  let chain := match vs.versions dn with
    | [] => (latest load vs dn).1.toList
    | chain => chain
  let vs := (latest load vs dn).2
  { vs with versions := Function.update vs.versions dn (version :: chain) }.cachePut dn version

/-- `DeleteVersion`, which gives the page of the version it has deleted. -/
def deleteVersion (load : Bytes → Option Version) (vs : VersionStore) (txID : Nat) (dn : Bytes) :
    Except VersionError Nat × VersionStore :=
  match latest load vs dn with
  | (none, vs) => (.error .notFound, vs)
  | (some v, vs) =>
    match vs.claim txID dn with
    | none => (.error .conflict, vs)
    | some vs =>
      let version : Version := ⟨txID, 0, ∅, v.pageID, true⟩
      let versions := Function.update vs.versions dn (version :: vs.versions dn)
      (.ok v.pageID, { vs with versions := versions }.cacheDelete dn)

section

variable (vs : VersionStore) (txID : Nat)

/-- Give up the DNs that a transaction has claimed and that have a chain. -/
def release : Bytes → Option Nat := fun dn =>
  if vs.versions dn ≠ [] ∧ vs.activeWriters dn = some txID then none else vs.activeWriters dn

/-- A cached version that has left the chain with a rollback stays uncommitted. -/
def commitVersion (commitTS : Nat) : VersionStore :=
  { vs with
    versions := fun dn => (vs.versions dn).map (Version.commit txID commitTS)
    cache := vs.cache.map fun c =>
      (c.1,
        if (vs.versions c.1).any (Version.pendingOf txID) then c.2.commit txID commitTS else c.2)
    activeWriters := vs.release txID }

/-- The chain without the uncommitted versions of the transaction on top. -/
def rolledBack (dn : Bytes) : List Version :=
  (vs.versions dn).dropWhile (Version.pendingOf txID)

/-- A DN whose chain goes altogether leaves the cache as well. -/
def rollbackVersion : VersionStore :=
  { vs with
    versions := vs.rolledBack txID
    cache := vs.cache.filter fun c => vs.versions c.1 = [] ∨ vs.rolledBack txID c.1 ≠ []
    activeWriters := vs.release txID }

end

end VersionStore

end Oba.Storage
