import Oba.Backend.Clients

/-! # Renaming entries

`ModifyDN` gives an entry a new RDN, and may give it a new parent. The DNs of the entries below
it are changed one by one, by a search for the text of the old DN in them. In a cluster an entry
with children is not renamed.
-/

namespace Oba.Backend

open Storage

/-! ## Texts -/

/-- `strings.Index`: where a text is found first in another. -/
def index (part : Bytes) : Bytes → Option Nat
  | [] => if part = [] then some 0 else none
  | b :: rest => if part.isPrefixOf (b :: rest) then some 0 else (index part rest).map (· + 1)

/-- `strings.TrimSuffix` with a comma -/
def trimComma (s : Bytes) : Bytes := if s.getLast? = some 44 then s.dropLast else s

def parseRDNComponent (rdn : Bytes) : Bytes × Bytes :=
  match index [61] rdn with
  | none => ([], [])
  | some i => (toLower (trimSpace (rdn.take i)), trimSpace (rdn.drop (i + 1)))

def replaceParentDN (childDN oldParentDN newParentDN : Bytes) : Bytes :=
  match index (toLower oldParentDN) (toLower childDN) with
  | none => childDN
  | some i =>
    let relativePart := trimComma (childDN.take i)
    if relativePart = [] then newParentDN else relativePart ++ [44] ++ newParentDN

/-- `GetRDN` -/
def getRDN (dn : Bytes) : Except RadixError Bytes :=
  (parseDN dn).map fun path => (path.getLast?).getD []

/-! ## The request -/

structure ModifyDNRequest where
  dn : Bytes
  newRDN : Bytes
  deleteOldRDN : Bool
  newSuperior : Bytes

/-- A request with the iteration orders that it meets; the writes are numbered as they are
made. -/
structure ModifyDNCall where
  request : ModifyDNRequest
  loops : LoopSite → MapOrder
  orders : Nat → Orders

def calculateNewDN (oldDN newRDN newSuperior : Bytes) : Except BackendError Bytes :=
  let parentDN := if newSuperior ≠ [] then .ok (normalizeDN newSuperior) else getParentDN oldDN
  match parentDN with
  | .error _ => .error .invalidDN
  | .ok parentDN => .ok (if parentDN = [] then newRDN else newRDN ++ [44] ++ parentDN)

def removeRDNAttribute (entry : Entry) (rdn : Bytes) : Entry :=
  let (attrType, attrValue) := parseRDNComponent rdn
  if attrType = [] then entry else deleteAttributeValue entry attrType attrValue

def addRDNAttribute (entry : Entry) (rdn : Bytes) : Entry :=
  let (attrType, attrValue) := parseRDNComponent rdn
  if attrType = [] ∨ (getAttribute entry attrType).any (equalFold · attrValue) then entry
  else addAttributeValue entry attrType attrValue

namespace ModifyDNCall

variable (call : ModifyDNCall)

def oldDN : Bytes := normalizeDN call.request.dn

def newDN : Except BackendError Bytes :=
  calculateNewDN call.oldDN (normalizeDN call.request.newRDN) call.request.newSuperior

/-- The entry under its new DN, with the attributes of the new RDN. -/
def renamed (entry : Entry) (newDN : Bytes) : Entry :=
  let entry := convertFromStorageEntry (call.loops .convertFrom) entry
  let entry := if call.request.deleteOldRDN then
      match getRDN call.oldDN with
      | .ok rdn => removeRDNAttribute entry rdn
      | .error _ => entry
    else entry
  { addRDNAttribute entry (normalizeDN call.request.newRDN) with dn := newDN }

/-- The entry that is written. -/
def toStore (entry : Entry) (newDN : Bytes) : Entry :=
  convertToStorageEntry (call.loops .convertTo) (call.renamed entry newDN)

end ModifyDNCall

section Calls

variable {τ : Type}

/-! ## Checks -/

/-- A new DN that differs from the old one must not be in use. -/
def newDNFree (db : ObaDB τ) (tx : Nat) (oldDN newDN : Bytes) : Bool × ObaDB τ :=
  if equalFold oldDN newDN then (true, db)
  else match db.get tx newDN with
    | (.ok _, db) => (false, db)
    | (.error _, db) => (true, db)

def superiorFound (db : ObaDB τ) (tx : Nat) (newSuperior : Bytes) : Bool × ObaDB τ :=
  if newSuperior = [] then (true, db)
  else match db.get tx (normalizeDN newSuperior) with
    | (.ok _, db) => (true, db)
    | (.error _, db) => (false, db)

def hasChildren (db : ObaDB τ) (tx : Nat) (dn : Bytes) : Except RadixError Bool × ObaDB τ :=
  match db.searchByDN tx dn .oneLevel with
  | (.error err, db) => (.error err, db)
  | (.ok entries, db) => (.ok (entries ≠ []), db)

/-- What `ModifyDN` does before it writes: the entry to write, and if there are children. The
transaction is not rolled back when the entry may not be placed at its new DN. -/
def checkModifyDN (call : ModifyDNCall) (db : ObaDB τ) :
    Except BackendError (Entry × Bool) × ObaDB τ :=
  let (tx, db) := db.begin
  match db.get tx call.oldDN with
  | (.error _, db) => (.error .entryNotFound, db.rollback tx)
  | (.ok entry, db) =>
    match call.newDN with
    | .error err => (.error err, db.rollback tx)
    | .ok newDN =>
      match newDNFree db tx call.oldDN newDN with
      | (false, db) => (.error .entryExists, db.rollback tx)
      | (true, db) =>
        match superiorFound db tx call.request.newSuperior with
        | (false, db) => (.error .newSuperiorNotFound, db.rollback tx)
        | (true, db) =>
          match hasChildren db tx call.oldDN with
          | (.error err, db) => (.error (.storage (.radix err)), db.rollback tx)
          | (.ok children, db) =>
            match validateEntryPlacement (call.loops .objectClasses) (call.renamed entry newDN) with
            | .error err => (.error err, db)
            | .ok () => (.ok (call.toStore entry newDN, children), db.rollback tx)

/-! ## Writes -/

variable (trees : IndexTrees τ)

/-- The loop of `updateChildrenDNs` over the entries below. -/
def moveChildren (orders : Nat → Orders) (tx : Nat) (oldParentDN newParentDN : Bytes) :
    Nat → List Entry → ObaDB τ → Except BackendError Unit × ObaDB τ
  | _, [], db => (.ok (), db)
  | i, child :: rest, db =>
    match db.delete trees (orders i) tx child.dn with
    | (.error err, db) => (.error (.storage err), db)
    | (.ok (), db) =>
      match db.put trees (orders (i + 1)) tx
          { child with dn := replaceParentDN child.dn oldParentDN newParentDN } with
      | (.error err, db) => (.error (.storage err), db)
      | (.ok (), db) => moveChildren orders tx oldParentDN newParentDN (i + 2) rest db

def updateChildrenDNs (orders : Nat → Orders) (db : ObaDB τ) (tx : Nat)
    (oldParentDN newParentDN : Bytes) : Except BackendError Unit × ObaDB τ :=
  match db.searchByDN tx oldParentDN .subtree with
  | (.error err, db) => (.error (.storage (.radix err)), db)
  | (.ok entries, db) => moveChildren trees orders tx oldParentDN newParentDN 2
      (entries.filter fun entry => !equalFold entry.dn oldParentDN) db

/-- The writes of a server without a cluster. -/
def moveEntry (call : ModifyDNCall) (db : ObaDB τ) (entry : Entry) (children : Bool) :
    Except BackendError Unit × ObaDB τ :=
  let (tx, db) := db.begin
  match db.delete trees (call.orders 0) tx call.oldDN with
  | (.error err, db) => (.error (.storage err), db.rollback tx)
  | (.ok (), db) =>
    match db.put trees (call.orders 1) tx entry with
    | (.error err, db) => (.error (.storage err), db.rollback tx)
    | (.ok (), db) =>
      match if children then updateChildrenDNs trees call.orders db tx call.oldDN entry.dn
          else (.ok (), db) with
      | (.error err, db) => (.error err, db.rollback tx)
      | (.ok (), db) =>
        match db.commit tx with
        | (.error err, db) => (.error (.storage err), db)
        | (.ok (), db) => (.ok (), db)

/-- `ModifyDN` of the cluster backend, when its command is applied on the leader. -/
def proposeModifyDN (call : ModifyDNCall) (db : ObaDB τ) (entry : Entry) :
    Except BackendError Unit × ObaDB τ :=
  let (err, db) := Raft.applyLDAPCommand trees (call.orders 0) db
    ⟨.modifyDN, Raft.dbMain, entry.dn, call.oldDN, Raft.serializeEntry (call.loops .command) entry⟩
  (answer err, db)

def modifyDN (s : Settings) (call : ModifyDNCall) (db : ObaDB τ) :
    Except BackendError Unit × ObaDB τ :=
  if call.request.dn = [] ∨ call.request.newRDN = [] then (.error .invalidDN, db)
  else match checkModifyDN call db with
    | (.error err, db) => (.error err, db)
    | (.ok (entry, children), db) =>
      if s.cluster then
        if children then (.error .subtreeMove, db) else proposeModifyDN trees call db entry
      else moveEntry trees call db entry children

end Calls

example : replaceParentDN (ascii "cn=b,ou=a,dc=x") (ascii "ou=a,dc=x") (ascii "ou=c,dc=x") =
    ascii "cn=b,ou=c,dc=x" := by decide

end Oba.Backend
