import Oba.Backend.Entry
import Oba.Storage.Durability

/-! # What requests write

The entry that an add or a modification writes is computed from the request and from the entry
that was read, before the storage engine is called for the write.
-/

namespace Oba.Backend

open Storage

inductive BackendError
  | invalidDN
  | invalidEntry
  | invalidPlacement
  | schemaViolation
  | entryExists
  | entryNotFound
  | notAllowedOnNonLeaf
  | newSuperiorNotFound
  | subtreeMove
  | storage (err : EngineError)
  | rejected
  deriving DecidableEq, Repr

/-! ## Placement -/

def userObjectClasses : List Bytes :=
  ["person", "organizationalperson", "inetorgperson", "user", "posixaccount"].map ascii

def groupObjectClasses : List Bytes :=
  ["group", "groupofnames", "groupofuniquenames", "posixgroup"].map ascii

/-- `dnUnderOU`; the name of the unit is in lower case and has no spaces around it. -/
def dnUnderOU (dn : Bytes) (ouName : String) : Bool :=
  let needle := ascii "ou=" ++ ascii ouName
  dn = needle ∨ contains dn ([44] ++ needle ++ [44]) ∨ ([44] ++ needle).isSuffixOf dn

/-- `getObjectClasses` looks for the attribute in iteration order. -/
def getObjectClasses (order : MapOrder) (entry : Entry) : List Bytes :=
  lookupFolded order (ascii "objectclass") entry.attributes

def hasClass (classes objectClasses : List Bytes) : Bool :=
  objectClasses.any fun oc => toLower (trimSpace oc) ∈ classes

def validateEntryPlacement (order : MapOrder) (entry : Entry) : Except BackendError Unit :=
  let dn := normalizeDN entry.dn
  let objectClasses := getObjectClasses order entry
  if dn = [] then .error .invalidDN
  else if hasClass userObjectClasses objectClasses ∧ ¬ dnUnderOU dn "users" then
    .error .invalidPlacement
  else if hasClass groupObjectClasses objectClasses ∧ ¬ dnUnderOU dn "groups" then
    .error .invalidPlacement
  else .ok ()

/-! ## Operational attributes -/

inductive OperationType
  | add
  | modify
  deriving DecidableEq, Repr

/-- `SetOperationalAttrs` at a time and with an identifier for the entry, as texts. -/
def setOperationalAttrs (op : OperationType) (bindDN now uuid : Bytes) (entry : Entry) : Entry :=
  let created := match op with
    | .add => setAttribute (setAttribute (setAttribute entry
        (ascii "createTimestamp") [now]) (ascii "creatorsName") [bindDN]) (ascii "entryUUID") [uuid]
    | .modify => entry
  let modified := setAttribute (setAttribute created
    (ascii "modifyTimestamp") [now]) (ascii "modifiersName") [bindDN]
  setAttribute modified (ascii "entryDN") [entry.dn]

/-! ## Modifications -/

inductive ModificationType
  | add
  | delete
  | replace
  deriving DecidableEq, Repr

structure Modification where
  type : ModificationType
  attr : Bytes
  values : List Bytes
  deriving DecidableEq, Repr

/-- One modification. Deleting no values and replacing by none delete the attribute. -/
def applyModification (entry : Entry) (mod : Modification) : Entry :=
  match mod.type with
  | .add => mod.values.foldl (fun entry value => addAttributeValue entry mod.attr value) entry
  | .delete =>
    if mod.values = [] then deleteAttribute entry mod.attr
    else mod.values.foldl (fun entry value => deleteAttributeValue entry mod.attr value) entry
  | .replace =>
    if mod.values = [] then deleteAttribute entry mod.attr
    else setAttribute entry mod.attr mod.values

/-! ## Requests -/

/-- `Delete` and `DeleteEntry` differ in the transactions they use. -/
inductive Request
  | add (entry : Entry) (bindDN : Bytes)
  | delete (dn : Bytes)
  | deleteEntry (dn : Bytes)
  | modify (dn : Bytes) (changes : List Modification) (bindDN : Bytes)

/-- The loops over attributes that the backend runs for a request. -/
inductive LoopSite
  | convertFrom
  | objectClasses
  | convertTo
  | command
  deriving DecidableEq, Repr

/-- A request as one client makes it, with the time, the identifier and the iteration orders it
meets. -/
structure Invocation where
  request : Request
  now : Bytes
  uuid : Bytes
  loops : LoopSite → MapOrder
  orders : Orders

/-- `valid` is the schema, which accepts everything if there is none. -/
structure Settings where
  cluster : Bool
  valid : Entry → Bool

namespace Request

/-- The DN of a request, normalised. -/
def dn : Request → Bytes
  | add entry _ => normalizeDN entry.dn
  | delete dn | deleteEntry dn => normalizeDN dn
  | modify dn _ _ => normalizeDN dn

/-- Requests that are answered before the storage engine is called. -/
def refusal : Request → Option (Except BackendError Unit)
  | add entry _ => if entry.dn = [] then some (.error .invalidEntry) else none
  | delete dn | deleteEntry dn => if dn = [] then some (.error .invalidDN) else none
  | modify dn changes _ =>
    if dn = [] then some (.error .invalidDN) else if changes = [] then some (.ok ()) else none

def isAdd : Request → Bool
  | add _ _ => true
  | _ => false

def isDelete : Request → Bool
  | delete _ | deleteEntry _ => true
  | _ => false

/-- Only a modification can succeed at once. -/
lemma refusal_ne_ok {request : Request} (h : request.isAdd ∨ request.isDelete) :
    request.refusal ≠ some (.ok ()) := by
  cases request with
  | add | delete | deleteEntry =>
    rw [refusal]
    split <;> simp
  | modify => simp [isAdd, isDelete] at h

end Request

namespace Invocation

variable (s : Settings) (inv : Invocation)

/-- The checks of an entry before it is written, and its conversion. -/
def checkEntry (entry : Entry) : Except BackendError Entry :=
  match validateEntryPlacement (inv.loops .objectClasses) entry with
  | .error err => .error err
  | .ok () =>
    if s.valid entry then .ok (convertToStorageEntry (inv.loops .convertTo) entry)
    else .error .schemaViolation

/-- The entry that `AddWithBindDN` writes. -/
def addEntry (entry : Entry) (bindDN : Bytes) : Except BackendError Entry :=
  inv.checkEntry s
    (setOperationalAttrs .add bindDN inv.now inv.uuid { entry with dn := normalizeDN entry.dn })

/-- The entry that `ModifyWithBindDN` writes for one that it has read. -/
def modifyEntry (changes : List Modification) (bindDN : Bytes) (read : Entry) :
    Except BackendError Entry :=
  inv.checkEntry s <| setOperationalAttrs .modify bindDN inv.now inv.uuid <|
    changes.foldl applyModification (convertFromStorageEntry (inv.loops .convertFrom) read)

/-- The write of a request; a modification needs the entry that was read. -/
def toWrite (read : Option Entry) : Except BackendError WriteCall :=
  match inv.request with
  | .add entry bindDN => (inv.addEntry s entry bindDN).map (.put inv.orders)
  | .delete dn | .deleteEntry dn => .ok (.delete inv.orders (normalizeDN dn))
  | .modify _ changes bindDN =>
    match read with
    | none => .error .entryNotFound
    | some read => (inv.modifyEntry s changes bindDN read).map (.put inv.orders)

end Invocation

/-! ## DNs -/

lemma Request.normalizeDN_dn (request : Request) : normalizeDN request.dn = request.dn := by
  cases request <;> exact normalizeDN_normalizeDN _

lemma dn_setOperationalAttrs (op : OperationType) (bindDN now uuid : Bytes) (entry : Entry) :
    (setOperationalAttrs op bindDN now uuid entry).dn = entry.dn := by
  cases op <;> rfl

lemma dn_deleteAttributeValue (entry : Entry) (name value : Bytes) :
    (deleteAttributeValue entry name value).dn = entry.dn := by
  unfold deleteAttributeValue
  dsimp only
  split
  · rfl
  · split <;> rfl

/-- A loop over values that keeps the DN in each round keeps it. -/
lemma dn_foldl {α : Type} {f : Entry → α → Entry} (hf : ∀ entry a, (f entry a).dn = entry.dn)
    (l : List α) (entry : Entry) : (l.foldl f entry).dn = entry.dn := by
  induction l generalizing entry with
  | nil => rfl
  | cons a l ih => rw [List.foldl_cons, ih, hf]

lemma dn_applyModification (entry : Entry) (mod : Modification) :
    (applyModification entry mod).dn = entry.dn := by
  unfold applyModification
  split
  · have hvalue : ∀ entry value, (addAttributeValue entry mod.attr value).dn = entry.dn :=
      fun _ _ => rfl
    exact dn_foldl hvalue ..
  · split
    · rfl
    · exact dn_foldl (fun entry value => dn_deleteAttributeValue entry mod.attr value) ..
  · split <;> rfl

namespace Invocation

variable {s : Settings} {inv : Invocation}

variable {entry new : Entry} {bindDN : Bytes} {read : Option Entry} {w : WriteCall}
  {changes : List Modification} {dn : Bytes}

lemma dn_of_checkEntry (h : inv.checkEntry s entry = .ok new) : new.dn = entry.dn := by
  unfold checkEntry at h
  split at h
  · cases h
  · split at h
    · cases h
      rfl
    · cases h

lemma dn_of_addEntry (h : inv.addEntry s entry bindDN = .ok new) :
    new.dn = normalizeDN entry.dn := by
  rw [dn_of_checkEntry h, dn_setOperationalAttrs]

lemma dn_of_modifyEntry {read : Entry} (h : inv.modifyEntry s changes bindDN read = .ok new) :
    new.dn = read.dn := by
  rw [dn_of_checkEntry h, dn_setOperationalAttrs, dn_foldl dn_applyModification]
  rfl

lemma toWrite_add (hrequest : inv.request = .add entry bindDN) (h : inv.toWrite s read = .ok w) :
    ∃ new, inv.addEntry s entry bindDN = .ok new ∧ w = .put inv.orders new := by
  unfold toWrite at h
  rw [hrequest] at h
  dsimp only at h
  cases hnew : inv.addEntry s entry bindDN with
  | error err =>
    rw [hnew] at h
    cases h
  | ok new =>
    rw [hnew] at h
    exact ⟨new, rfl, (Except.ok.inj h).symm⟩

lemma toWrite_modify (hrequest : inv.request = .modify dn changes bindDN)
    (h : inv.toWrite s read = .ok w) :
    ∃ entry new, read = some entry ∧
      inv.modifyEntry s changes bindDN entry = .ok new ∧ w = .put inv.orders new := by
  unfold toWrite at h
  rw [hrequest] at h
  cases read with
  | none => cases h
  | some entry =>
    dsimp only at h
    cases hnew : inv.modifyEntry s changes bindDN entry with
    | error err =>
      rw [hnew] at h
      cases h
    | ok new =>
      rw [hnew] at h
      exact ⟨entry, new, rfl, hnew, (Except.ok.inj h).symm⟩

lemma toWrite_delete (hrequest : inv.request = .delete dn ∨ inv.request = .deleteEntry dn)
    (h : inv.toWrite s read = .ok w) : w = .delete inv.orders (normalizeDN dn) := by
  unfold toWrite at h
  rcases hrequest with hrequest | hrequest
  · rw [hrequest] at h
    exact (Except.ok.inj h).symm
  · rw [hrequest] at h
    exact (Except.ok.inj h).symm

/-- A request writes at its DN. -/
lemma dn_of_toWrite (hread : ∀ entry, read = some entry → entry.dn = inv.request.dn)
    (h : inv.toWrite s read = .ok w) : w.dn = inv.request.dn := by
  cases hrequest : inv.request with
  | add entry bindDN =>
    obtain ⟨new, hnew, rfl⟩ := toWrite_add hrequest h
    rw [WriteCall.dn, dn_of_addEntry hnew]
    exact normalizeDN_normalizeDN entry.dn
  | delete dn =>
    rw [toWrite_delete (.inl hrequest) h]
    exact normalizeDN_normalizeDN dn
  | deleteEntry dn =>
    rw [toWrite_delete (.inr hrequest) h]
    exact normalizeDN_normalizeDN dn
  | modify dn changes bindDN =>
    obtain ⟨entry, new, rfl, hnew, rfl⟩ := toWrite_modify hrequest h
    rw [WriteCall.dn, dn_of_modifyEntry hnew, hread entry rfl, hrequest]
    exact normalizeDN_normalizeDN dn

end Invocation

end Oba.Backend
