import Oba.Acl.Attributes
import Oba.Backend.Requests
import Oba.Ldap.Requests
import Oba.Server.Search

/-! # Modify requests of the server

The modify handler asks for the right to write the entry and then hands all changes to the
backend. The first rule that concerns the request decides, also where it is a rule for other
attributes.
-/

namespace Oba.Server.Modify

open Storage Backend
open Acl (ACL Config AccessContext Right)

/-! ## The handler -/

inductive ResultCode
  | success
  | operationsError
  | protocolError
  | constraintViolation
  | noSuchObject
  | insufficientAccessRights
  | objectClassViolation
  deriving DecidableEq, Repr

structure OperationResult where
  resultCode : ResultCode
  matchedDN : Bytes := []
  diagnosticMessage : Bytes := []

/-- A backend; errors are given by their texts. -/
structure ModifyBackend where
  getEntry : Bytes → Except Bytes (Option Entry)
  modifyEntry : Bytes → List Modification → Except Bytes Unit

structure ModifyConfig where
  backend : Option ModifyBackend
  aclEvaluator : Option Config

def validate (req : Ldap.ModifyRequest) : Except String Unit :=
  if req.object = [] then .error "ldap: modify object DN cannot be empty"
  else if req.changes = [] then .error "ldap: modify request must have at least one modification"
  else if req.changes.any fun change => change.operation < 0 ∨ 2 < change.operation then
    .error "ldap: invalid modify operation"
  else .ok ()

def normalizeDNForModify (dn : Bytes) : Bytes := toLower (trimSpace dn)

/-- Other operations than the three have the zero value of the type. -/
def convertToBackendModification (change : Ldap.Modification) : Modification :=
  ⟨if change.operation = 1 then .delete else if change.operation = 2 then .replace else .add,
    change.attr.type, change.attr.values⟩

def mapError (err : Bytes) : OperationResult :=
  if contains err (ascii "not found") then
    ⟨.noSuchObject, [], ascii "entry does not exist"⟩
  else if contains err (ascii "invalid") then
    ⟨.constraintViolation, [], ascii "modification violates constraints: " ++ err⟩
  else if contains err (ascii "schema") ∨ contains err (ascii "objectclass") then
    ⟨.objectClassViolation, [], ascii "schema violation: " ++ err⟩
  else if contains err (ascii "attribute") ∧ contains err (ascii "required") then
    ⟨.objectClassViolation, [], ascii "required attribute missing: " ++ err⟩
  else ⟨.operationsError, [], ascii "failed to modify entry: " ++ err⟩

/-- The request of a client for its rights. The attributes in it are not looked at. -/
def accessContext (conn : Option Connection) (req : Ldap.ModifyRequest) : AccessContext :=
  ⟨(conn.map Connection.bindDN).getD [], normalizeDNForModify req.object, Right.write⟩

/-- The answer, and the changes that the backend is asked to make. -/
def handle (config : ModifyConfig) (conn : Option Connection) (req : Ldap.ModifyRequest) :
    OperationResult × Option (Bytes × List Modification) :=
  match validate req with
  | .error err => (⟨.protocolError, [], ascii err⟩, none)
  | .ok () =>
    match config.backend with
    | none => (⟨.operationsError, [], ascii "backend not configured"⟩, none)
    | some backend =>
      let dn := normalizeDNForModify req.object
      if config.aclEvaluator.any fun acl => !acl.checkAccess (some (accessContext conn req)) then
        (⟨.insufficientAccessRights, [], ascii "insufficient access rights"⟩, none)
      else
        match backend.getEntry dn with
        | .error _ => (⟨.operationsError, [], ascii "internal error during modify"⟩, none)
        | .ok none => (⟨.noSuchObject, [], ascii "entry does not exist"⟩, none)
        | .ok (some _) =>
          let changes := req.changes.map convertToBackendModification
          match backend.modifyEntry dn changes with
          | .error err => (mapError err, some (dn, changes))
          | .ok () => (⟨.success, [], []⟩, some (dn, changes))

/-! ## Rights for single attributes -/

/-- The client may write every attribute that the request names. -/
def AllowsAll (acl : Config) (conn : Option Connection) (req : Ldap.ModifyRequest) : Prop :=
  ∀ change ∈ req.changes,
    acl.checkAttributeAccess change.attr.type (some (accessContext conn req)) = true

/-- Of the rules that concern a request, the first denies or is one for the attribute, or those
behind it let the client write the attribute. -/
def Covers (policy attr : Bytes) : List ACL → Prop
  | [] => True
  | rule :: rest => rule.deny ∨ rule.appliesToAttribute attr ∨
      match rest.find? (·.appliesToAttribute attr) with
      | some later => later.deny = false
      | none => policy = ascii "allow"

/-- The request passes its own checks and names an entry. -/
def Reaches (backend : ModifyBackend) (req : Ldap.ModifyRequest) : Prop :=
  validate req = .ok () ∧ ∃ entry, backend.getEntry (normalizeDNForModify req.object) =
    .ok (some entry)

variable {backend : ModifyBackend} {acl : Config} {conn : Option Connection}
  {req : Ldap.ModifyRequest}

lemma isSome_handle : (handle ⟨some backend, some acl⟩ conn req).2.isSome ↔
    Reaches backend req ∧ acl.checkAccess (some (accessContext conn req)) = true := by
  unfold handle Reaches
  cases validate req with
  | error err => simp
  | ok _ =>
    cases haccess : acl.checkAccess (some (accessContext conn req)) with
    | false => simp [haccess]
    | true =>
      cases hentry : backend.getEntry (normalizeDNForModify req.object) with
      | error err => simp [haccess, hentry]
      | ok found =>
        cases found with
        | none => simp [haccess, hentry]
        | some entry =>
          cases hmodify : backend.modifyEntry (normalizeDNForModify req.object)
            (req.changes.map convertToBackendModification) <;> simp [haccess, hentry, hmodify]

lemma firstMatch_concerning (ctx : AccessContext) (applies : ACL → Bool) :
    Config.firstMatch ⟨acl.defaultPolicy, acl.rules.filter (·.concerns ctx)⟩ applies =
      acl.firstMatch fun rule => rule.concerns ctx && applies rule := by
  simp [Config.firstMatch, List.find?_filter, Config.isDefaultAllow]

/-- The right to write the entry gives the right to write the attribute. -/
lemma covers_iff (ctx : AccessContext) (attr : Bytes) :
    (acl.checkAccess (some ctx) = true → acl.checkAttributeAccess attr (some ctx) = true) ↔
      Covers acl.defaultPolicy attr (acl.rules.filter (·.concerns ctx)) := by
  have hentry : acl.checkAccess (some ctx) =
      Config.firstMatch ⟨acl.defaultPolicy, acl.rules.filter (·.concerns ctx)⟩ fun _ => true := by
    simp only [firstMatch_concerning, Bool.and_true]
    rfl
  rw [hentry, Acl.checkAttributeAccess_eq, ← firstMatch_concerning]
  cases acl.rules.filter (·.concerns ctx) with
  | nil => exact iff_of_true id trivial
  | cons rule rest =>
    rw [Acl.firstMatch_cons, Acl.firstMatch_cons, Covers]
    cases rule.deny with
    | true => simp
    | false =>
      cases rule.appliesToAttribute attr with
      | true => simp
      | false =>
        simp only [Config.firstMatch, Config.isDefaultAllow]
        cases rest.find? (·.appliesToAttribute attr) <;> simp

/-- The modification is made only with the right to write its attributes, exactly if the request
ends before or the rules cover every attribute. -/
theorem modify_rights_iff (acl : Config) (backend : ModifyBackend) (conn : Option Connection)
    (req : Ldap.ModifyRequest) :
    ((handle ⟨some backend, some acl⟩ conn req).2.isSome → AllowsAll acl conn req) ↔
      (Reaches backend req → ∀ change ∈ req.changes, Covers acl.defaultPolicy change.attr.type
        (acl.rules.filter (·.concerns (accessContext conn req)))) := by
  simp only [isSome_handle, AllowsAll, ← covers_iff]
  tauto

/-- A rule for telephone numbers lets a client set a password. -/
theorem password_set_by_other_right :
    let rule : ACL := ⟨ascii "*", .subtree, ascii "*", Right.write, [ascii "telephonenumber"],
      false⟩
    let backend : ModifyBackend := ⟨fun dn => .ok (some ⟨dn, ∅⟩), fun _ _ => .ok ()⟩
    let req : Ldap.ModifyRequest :=
      ⟨ascii "uid=b", [⟨2, ⟨ascii "userpassword", [ascii "secret"]⟩⟩]⟩
    (handle ⟨some backend, some ⟨ascii "deny", [rule]⟩⟩ (some ⟨ascii "uid=a"⟩) req).2 =
        some (ascii "uid=b", [⟨.replace, ascii "userpassword", [ascii "secret"]⟩]) ∧
      ¬ AllowsAll ⟨ascii "deny", [rule]⟩ (some ⟨ascii "uid=a"⟩) req := by
  refine ⟨by decide, fun h => ?_⟩
  exact absurd (h _ List.mem_cons_self) (by decide)

end Oba.Server.Modify
