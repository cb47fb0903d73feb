import Oba.Ldap.Message
import Oba.Server.Search

/-! # Dispatch of messages

A connection hands each message to the handler of its operation. Of the controls of a message, only
the one for persistent searches is ever looked at, and only if the operation is a search.
-/

namespace Oba.Server.Dispatch

open Storage (Bytes ascii)
open Ldap (Control LDAPMessage)

/-! ## The controls -/

def persistentSearchOID : Bytes := ascii "2.16.840.1.113730.3.4.3"

def pagedResultsOID : Bytes := ascii "1.2.840.113556.1.4.319"

structure PersistentSearchControl where
  criticality : Bool
  changeTypes : Int
  changesOnly : Bool
  returnECs : Bool

/-- The fields of the control's value. What comes after them is not looked at. -/
def persistentSearchValue (criticality : Bool) : Ber.Decode PersistentSearchControl := do
  let _ ← Ber.expectSequence
  let changeTypes ← Ber.readInteger
  let changesOnly ← Ber.readBoolean
  let returnECs ← Ber.readBoolean
  return ⟨criticality, changeTypes, changesOnly, returnECs⟩

/-- Without a value, all four types of changes are asked for. -/
def parsePersistentSearchControl (ctrl : Control) :
    Except Ber.Error (Option PersistentSearchControl) :=
  if ctrl.oid ≠ persistentSearchOID then .ok none
  else if ctrl.value = [] then .ok (some ⟨ctrl.criticality, 1 + 2 + 4 + 8, false, true⟩)
  else (persistentSearchValue ctrl.criticality (Ber.newBERDecoder ctrl.value)).1.map some

/-- The first control of its kind counts. -/
def findPersistentSearchControl (controls : List Control) :
    Except Ber.Error (Option PersistentSearchControl) :=
  match controls.find? fun ctrl => ctrl.oid = persistentSearchOID with
  | some ctrl => parsePersistentSearchControl ctrl
  | none => .ok none

/-! ## The operations -/

inductive Operation
  | bind
  | search
  | add
  | delete
  | modify
  | modifyDN
  | compare
  deriving DecidableEq, Repr

/-- The operations by their APPLICATION tags. -/
def Operation.ofTag (tag : Int) : Option Operation :=
  [(0, bind), (3, search), (8, add), (10, delete), (6, modify), (12, modifyDN),
    (14, compare)].lookup tag

def Operation.invalid : Operation → String
  | bind => "invalid bind request"
  | search => "invalid search request"
  | add => "invalid add request"
  | delete => "invalid delete request"
  | modify => "invalid modify request"
  | modifyDN => "invalid modifydn request"
  | compare => "invalid compare request"

def resultProtocolError : Nat := 2
def resultUnavailableCriticalExtension : Nat := 12
def resultUnwillingToPerform : Nat := 53

structure OperationResult where
  resultCode : Nat
  matchedDN : Bytes := []
  diagnosticMessage : String := ""

variable {σ ε : Type}

/-- What comes of a message: the entries that are sent first, the answer if there is one, a
persistent search that has been started, and the directory. -/
structure Outcome (σ ε : Type) where
  directory : σ
  answer : Option OperationResult
  entries : List ε := []
  watching : Option PersistentSearchControl := none

/-- An answer that neither the directory nor a handler is needed for. -/
def answering (directory : σ) (resultCode : Nat) (diagnosticMessage : String) : Outcome σ ε :=
  ⟨directory, some ⟨resultCode, [], diagnosticMessage⟩, [], none⟩

/-- The server as its dispatcher sees it. For each operation, `handle` is the parser of the request
and the handler together, and undefined on data that the parser refuses. No handler answers
`unavailableCriticalExtension`. -/
structure Handlers (σ ε : Type) where
  handle : Operation → Bytes → Option (Connection → σ → OperationResult × List ε × σ)
  persistentSearch : Bool
  available : ∀ operation data run conn directory, handle operation data = some run →
    (run conn directory).1.resultCode ≠ resultUnavailableCriticalExtension

/-- The handler is called and its answer sent. -/
def call (run : σ → OperationResult × List ε × σ) (directory : σ) : Outcome σ ε :=
  let (result, entries, directory) := run directory
  ⟨directory, some result, entries, none⟩

def handleSearch (handlers : Handlers σ ε) (controls : List Control)
    (run : σ → OperationResult × List ε × σ) (directory : σ) : Outcome σ ε :=
  match findPersistentSearchControl controls with
  | .error _ => answering directory resultProtocolError "invalid persistent search control"
  | .ok none => call run directory
  | .ok (some psCtrl) =>
    if handlers.persistentSearch then ⟨directory, none, [], some psCtrl⟩
    else if psCtrl.criticality then
      answering directory resultUnavailableCriticalExtension "persistent search not supported"
    else call run directory

def dispatchOperation (handlers : Handlers σ ε) (conn : Connection) (operation : Operation)
    (data : Bytes) (controls : List Control) (directory : σ) : Outcome σ ε :=
  match handlers.handle operation data with
  | none => answering directory resultProtocolError operation.invalid
  | some run =>
    if operation = .search then handleSearch handlers controls (run conn) directory
    else call (run conn) directory

/-- An abandon request gets no answer. -/
def dispatchMessage (handlers : Option (Handlers σ ε)) (conn : Connection) (msg : LDAPMessage)
    (directory : σ) : Outcome σ ε :=
  match handlers, msg.operation with
  | none, _ => answering directory resultUnwillingToPerform "no handler configured"
  | some _, none => answering directory resultProtocolError "unsupported operation"
  | some handlers, some ⟨tag, data⟩ =>
    match Operation.ofTag tag with
    | some operation => dispatchOperation handlers conn operation data msg.controls directory
    | none =>
      if tag = Ldap.applicationAbandonRequest then ⟨directory, none, [], none⟩
      else answering directory resultProtocolError "unsupported operation"

/-! ## Critical controls -/

/-- The message has a critical control that the server does not know. -/
def Unimplemented (msg : LDAPMessage) : Prop :=
  ∃ ctrl ∈ msg.controls, ctrl.criticality ∧ ctrl.oid ∉ [persistentSearchOID, pagedResultsOID]

/-- The message has changed nothing, gives no entries now or later, and is answered with
`unavailableCriticalExtension`. -/
structure Refused (directory : σ) (outcome : Outcome σ ε) : Prop where
  unchanged : outcome.directory = directory
  noEntries : outcome.entries = []
  notWatching : outcome.watching = none
  answer : outcome.answer.map OperationResult.resultCode = some resultUnavailableCriticalExtension

lemma not_refused_answering (directory : σ) (diagnosticMessage : String)
    (hcode : resultCode ≠ resultUnavailableCriticalExtension) :
    ¬Refused directory (answering directory resultCode diagnosticMessage : Outcome σ ε) := by
  intro hrefused
  exact hcode (Option.some.inj hrefused.answer)

lemma protocolError_ne : resultProtocolError ≠ resultUnavailableCriticalExtension := by decide

section

variable (handlers : Handlers σ ε)
include handlers

/-- The search asks for persistence as something critical, and the server has none. -/
def AsksInVain (controls : List Control) : Prop :=
  handlers.persistentSearch = false ∧
    ∃ psCtrl, findPersistentSearchControl controls = .ok (some psCtrl) ∧ psCtrl.criticality

variable {handlers} in
/-- Only a search that asks for persistence in vain is refused. -/
lemma refused_handleSearch_iff {run : σ → OperationResult × List ε × σ}
    (hrun : ∀ directory, ¬Refused directory (call run directory)) (controls : List Control)
    (directory : σ) :
    Refused directory (handleSearch handlers controls run directory) ↔
      AsksInVain handlers controls := by
  unfold handleSearch AsksInVain
  cases hfind : findPersistentSearchControl controls with
  | error err => simp [not_refused_answering _ _ protocolError_ne]
  | ok found =>
    cases found with
    | none => simp [hrun]
    | some psCtrl =>
      cases hconfigured : handlers.persistentSearch with
      | true =>
        have hnot : ¬Refused directory (⟨directory, none, [], some psCtrl⟩ : Outcome σ ε) :=
          fun hrefused => Option.some_ne_none _ hrefused.notWatching
        simp [hnot]
      | false =>
        cases hcritical : psCtrl.criticality with
        | true =>
          have hrefused : Refused directory (answering directory
              resultUnavailableCriticalExtension "persistent search not supported" :
                Outcome σ ε) := ⟨rfl, rfl, rfl, rfl⟩
          simp [hrefused, hcritical]
        | false => simp [hcritical, hrun]

/-- Only a search refuses a message for its controls. -/
lemma refused_dispatchOperation_iff (conn : Connection) (operation : Operation) (data : Bytes)
    (controls : List Control) (directory : σ) :
    Refused directory (dispatchOperation handlers conn operation data controls directory) ↔
      operation = .search ∧ (handlers.handle operation data).isSome ∧
        AsksInVain handlers controls := by
  unfold dispatchOperation
  cases hhandle : handlers.handle operation data with
  | none => simp [not_refused_answering _ _ protocolError_ne]
  | some run =>
    have hrun : ∀ directory, ¬Refused directory (call (run conn) directory) :=
      fun directory hrefused => handlers.available operation data run conn directory hhandle
        (Option.some.inj hrefused.answer)
    by_cases hsearch : operation = .search
    · simp [hsearch, refused_handleSearch_iff hrun]
    · simp [hsearch, hrun]

end

/-- A message with an unknown critical control is refused exactly if it is a search that would be
refused without it, for persistence that the server does not have: such controls are ignored. -/
theorem critical_control_iff (handlers : Option (Handlers σ ε)) (conn : Connection)
    (msg : LDAPMessage) (directory : σ) :
    (Unimplemented msg → Refused directory (dispatchMessage handlers conn msg directory)) ↔
      (Unimplemented msg → ∃ configured raw, handlers = some configured ∧
        msg.operation = some raw ∧ Operation.ofTag raw.tag = some .search ∧
          (configured.handle .search raw.data).isSome ∧ AsksInVain configured msg.controls) := by
  refine imp_congr_right fun _ => ?_
  unfold dispatchMessage
  cases handlers with
  | none =>
    have hunwilling : resultUnwillingToPerform ≠ resultUnavailableCriticalExtension := by decide
    simp [not_refused_answering _ _ hunwilling]
  | some handlers =>
    cases hraw : msg.operation with
    | none => simp [not_refused_answering _ _ protocolError_ne]
    | some raw =>
      cases htag : Operation.ofTag raw.tag with
      | some operation =>
        simp only [htag, refused_dispatchOperation_iff]
        aesop
      | none =>
        have hsilent : ¬Refused directory (⟨directory, none, [], none⟩ : Outcome σ ε) :=
          fun hrefused => Option.some_ne_none _ hrefused.answer.symm
        simp only [htag]
        split <;> simp [htag, hsilent, not_refused_answering _ _ protocolError_ne]

/-- A server whose directory is a list of DNs, with the delete operation alone. -/
def deletes : Handlers (List Bytes) Bytes where
  handle operation data := if operation = .delete then
    some fun _ dns => (⟨0, [], ""⟩, [], dns.filter (· ≠ data)) else none
  persistentSearch := false
  available operation data run conn directory hrun := by
    split at hrun <;> cases hrun
    simp [resultUnavailableCriticalExtension]

/-- A delete request with a critical control that no part of the server knows. -/
def guardedDelete : LDAPMessage := ⟨1, some ⟨10, ascii "cn=a"⟩, [⟨ascii "1.2.3", true, []⟩]⟩

theorem deleted_despite_critical_control :
    Unimplemented guardedDelete ∧
      (dispatchMessage (some deletes) ⟨[]⟩ guardedDelete [ascii "cn=a"]).directory = [] :=
  ⟨⟨⟨ascii "1.2.3", true, []⟩, by decide +kernel, rfl, by decide +kernel⟩, by decide +kernel⟩

end Oba.Server.Dispatch
