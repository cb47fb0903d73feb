import Mathlib.Data.List.Sort
import Oba.Backend.Search
import Oba.Backend.Serial

/-! # Repairing uids

`RepairUIDUniqueness` reads all entries, then changes the directory in three phases: it removes
uids outside `ou=users`, makes the uid of a user agree with a `uid` RDN, and deletes all but one
of the users that share a uid. The phases work on records that were made before the first change.
-/

namespace Oba.Backend

open Storage

/-! ## Records -/

structure UIDRecord where
  dn : Bytes
  uid : Bytes
  rdnAttr : Bytes
  rdnValue : Bytes
  isUsersOU : Bool
  isGroupsOU : Bool
  isUserObj : Bool
  isGroupObj : Bool
  deriving DecidableEq

/-- The first RDN is what comes before the first comma, escaped or not. -/
def parseDNFirstRDN (dn : Bytes) : Bytes × Bytes :=
  let rdn := trimSpace ((trimSpace dn).takeWhile (· ≠ 44))
  if 61 ∈ rdn then
    (toLower (trimSpace (rdn.takeWhile (· ≠ 61))),
      toLower (trimSpace ((rdn.dropWhile (· ≠ 61)).drop 1)))
  else ([], [])

def isUnderOU (dn ou : Bytes) : Bool :=
  ((toLower dn).splitOn 44).any (trimSpace · = ascii "ou=" ++ toLower (trimSpace ou))

def hasAnyObjectClass (entry : Entry) (names : List String) : Bool :=
  hasClass (names.map fun name => toLower (trimSpace (ascii name)))
    (getAttribute entry (ascii "objectClass"))

/-- The record of an entry with a uid. -/
def uidRecord (entry : Entry) : Option UIDRecord :=
  let uid := trimSpace (getFirstAttribute entry (ascii "uid"))
  if uid = [] then none
  else some {
    dn := normalizeDN entry.dn
    uid
    rdnAttr := (parseDNFirstRDN entry.dn).1
    rdnValue := (parseDNFirstRDN entry.dn).2
    isUsersOU := isUnderOU entry.dn (ascii "users")
    isGroupsOU := isUnderOU entry.dn (ascii "groups")
    isUserObj := hasAnyObjectClass entry
      ["inetorgperson", "person", "organizationalperson", "posixaccount"]
    isGroupObj := hasAnyObjectClass entry ["groupofnames", "groupofuniquenames", "posixgroup"] }

namespace UIDRecord

def score (rec : UIDRecord) : Int :=
  (if rec.isUsersOU then 100 else -25) + (if rec.isGroupsOU then -50 else 0) +
    (if rec.isUserObj then 30 else 0) + (if rec.isGroupObj then -40 else 0) +
    (if rec.rdnAttr = ascii "uid" ∧ rec.rdnValue = toLower rec.uid then 40 else 0)

/-- The order in which records are preferred. -/
def precedes (rec other : UIDRecord) : Bool :=
  if rec.score ≠ other.score then other.score < rec.score else compare rec.dn other.dn = .lt

/-- The RDN is a uid other than the one of the entry. -/
def mismatched (rec : UIDRecord) : Bool :=
  rec.rdnAttr = ascii "uid" ∧ rec.rdnValue ≠ [] ∧ rec.rdnValue ≠ rec.uid

end UIDRecord

def chooseCanonicalUIDRecord (records : List UIDRecord) : Option UIDRecord :=
  (records.insertionSort fun rec other => !other.precedes rec).head?

/-! ## Reports -/

inductive UIDRepairKind
  | removeUid
  | deleteEntry
  | replaceUid
  deriving DecidableEq, Repr

structure UIDRepairAction where
  dn : Bytes
  uid : Bytes
  action : UIDRepairKind
  reason : Bytes
  applied : Bool := false
  error : Option BackendError := none
  deriving DecidableEq, Repr

structure UIDRepairReport where
  dryRun : Bool
  scannedEntries : Nat
  uidEntries : Nat
  duplicateUIDs : Nat
  fixed : Nat
  failed : Nat
  actions : List UIDRepairAction
  deriving DecidableEq, Repr

/-! ## The map of the records -/

abbrev UIDMap := Std.ExtTreeMap Bytes (List UIDRecord)

namespace UIDMap

def group (m : UIDMap) (uid : Bytes) : List UIDRecord := (m[uid]?).getD []

def add (m : UIDMap) (rec : UIDRecord) : UIDMap := m.insert rec.uid (m.group rec.uid ++ [rec])

/-- The record leaves the group of its uid, and a group without records goes. -/
def remove (m : UIDMap) (rec : UIDRecord) : UIDMap :=
  let filtered := (m.group rec.uid).filter (·.dn ≠ rec.dn)
  if m.group rec.uid = [] then m
  else if filtered = [] then m.erase rec.uid
  else m.insert rec.uid filtered

end UIDMap

/-! ## The repair -/

/-- A repair with what its calls meet; the calls are numbered by the actions before them. -/
structure RepairCall where
  dryRun : Bool
  bindDN : Bytes
  searchOrders : Bytes → MapOrder
  now : Nat → Bytes
  uuid : Nat → Bytes
  loops : Nat → LoopSite → MapOrder
  orders : Nat → Orders
  groups : UnorderedMap.Order Bytes (List UIDRecord)

def RepairCall.invocation (call : RepairCall) (n : Nat) (request : Request) : Invocation :=
  ⟨request, call.now n, call.uuid n, call.loops n, call.orders n⟩

structure Repair (τ : Type) where
  report : UIDRepairReport
  db : ObaDB τ

section Repair

variable {τ : Type} (trees : IndexTrees τ) (s : Settings) (call : RepairCall)

/-- Carry an action out, or only report it in a dry run. A delete may find no entry. -/
def act (request : Request) (action : UIDRepairAction) (state : Repair τ) : Bool × Repair τ :=
  let report := state.report
  if call.dryRun then
    (false, { state with report := { report with actions := report.actions ++ [action] } })
  else
    let (result, db) := perform trees s (call.invocation report.actions.length request) state.db
    match result with
    | .error err =>
      if request.isDelete ∧ err = .entryNotFound then
        (true, ⟨{ report with
          fixed := report.fixed + 1
          actions := report.actions ++ [{ action with applied := true }] }, db⟩)
      else
        (false, ⟨{ report with
          failed := report.failed + 1
          actions := report.actions ++ [{ action with error := some err }] }, db⟩)
    | .ok () =>
      (true, ⟨{ report with
        fixed := report.fixed + 1
        actions := report.actions ++ [{ action with applied := true }] }, db⟩)

def deleteRecord (uid reason : Bytes) (rec : UIDRecord) (state : Repair τ) : Repair τ :=
  (act trees s call (.delete rec.dn) { dn := rec.dn, uid, action := .deleteEntry, reason } state).2

def uidRemoval : Modification := ⟨.delete, ascii "uid", []⟩

def uidReplacement (uid : Bytes) : Modification := ⟨.replace, ascii "uid", [uid]⟩

/-- Phase 1 for one record. -/
def removeOutside (state : Repair τ) (rec : UIDRecord) : Repair τ :=
  if rec.isUsersOU then state
  else
    (act trees s call (.modify rec.dn [uidRemoval] call.bindDN)
      { dn := rec.dn, uid := rec.uid, action := .removeUid
        reason := ascii "uid attribute outside ou=users" } state).2

/-- Phase 2 for one record. A record that is deleted stays in the map. -/
def matchRDN (state : UIDMap × Repair τ) (rec : UIDRecord) : UIDMap × Repair τ :=
  let (m, repair) := state
  if ¬ rec.mismatched then state
  else if (m.group rec.rdnValue).any (·.dn ≠ rec.dn) then
    (m, deleteRecord trees s call rec.uid
      (ascii "uid attribute conflicts with RDN and target uid already exists") rec repair)
  else
    match act trees s call (.modify rec.dn [uidReplacement rec.rdnValue] call.bindDN)
        { dn := rec.dn, uid := rec.uid, action := .replaceUid
          reason := ascii "uid attribute mismatched with RDN; replaced with uid RDN value" }
        repair with
    | (false, repair) => (m, repair)
    | (true, repair) => ((m.remove rec).add { rec with uid := rec.rdnValue }, repair)

/-- Phase 3 for the records with one uid. -/
def resolveGroup (state : Repair τ) (binding : Bytes × List UIDRecord) : Repair τ :=
  if binding.2.length ≤ 1 then state
  else
    match chooseCanonicalUIDRecord binding.2 with
    | none => state
    | some keep =>
      let report := { state.report with duplicateUIDs := state.report.duplicateUIDs + 1 }
      binding.2.foldl (fun state rec =>
          if rec.dn = keep.dn then state
          else deleteRecord trees s call binding.1
            (ascii "duplicate uid; deterministic canonical entry kept: " ++ keep.dn) rec state)
        { state with report }

def repairUIDUniqueness (db : ObaDB τ) : Except RadixError UIDRepairReport × ObaDB τ :=
  match search call.searchOrders db [] 2 none with
  | (.error err, db) => (.error err, db)
  | (.ok entries, db) =>
    let records := entries.filterMap uidRecord
    let report : UIDRepairReport := ⟨call.dryRun, entries.length, records.length, 0, 0, 0, []⟩
    let removed := records.foldl (removeOutside trees s call) ⟨report, db⟩
    let kept := records.filter UIDRecord.isUsersOU
    let (m, matched) :=
      kept.foldl (matchRDN trees s call) (kept.foldl UIDMap.add ∅, removed)
    let resolved := (call.groups.range m).foldl (resolveGroup trees s call) matched
    (.ok resolved.report, resolved.db)

end Repair

end Oba.Backend
