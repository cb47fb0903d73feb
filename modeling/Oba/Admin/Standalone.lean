import Oba.Admin.Requests

/-! # Rules with and without a cluster

The handlers that add and update a rule check it. Without a cluster they put the rule that they
have read among the rules; with one they propose what the request says, and every replica reads
the rule once more, in a way of its own.
-/

namespace Oba.Acl

open Admin (Request)
open Raft (ACLRuleData deserializeACLCommand deserializeACLCommand_serialize deserializeCommand
  deserializeCommand_serialize)
open Storage (Bytes ascii toLower trimSpace)
open UnorderedMap (Order)

/-- What `AddRule` and `UpdateRule` ask of a rule before they put it among the rules. -/
def ACL.storable (rule : ACL) : Bool := rule.target ≠ [] ∧ rule.subject ≠ [] ∧ rule.rights ≠ 0

/-- The rule in force after a request to a server without a cluster. `none` is an error. -/
def standaloneRule (data : ACLRuleData) : Option ACL := (jsonToACLRule data).filter ACL.storable

/-- The rule in force on a replica after a request to the leader. The command of the request comes
to the replica as bytes. -/
def replicatedRule (order : Order Bytes Bytes) (version : UInt64) (request : Request) :
    Option ACL := do
  guard request.accepted
  let cmd ← deserializeCommand (request.command order version).serialize
  let aclCmd ← deserializeACLCommand cmd.aclData
  (ruleDataToACL (← aclCmd.rule)).toOption

lemma namedRight_or_all {name : Bytes} {right : Right}
    (h : namedRight name = some right) : right ||| Right.all = Right.all := by
  unfold namedRight at h
  split_ifs at h <;> cases h <;> rfl

/-- Names without blanks stand for the same rights in both readings. -/
lemma addRights_of_parseRights {rights result : Right} {names : List Bytes}
    (hrights : rights ||| Right.all = Right.all)
    (hnames : ∀ r ∈ names, trimSpace r = r) (h : parseRights rights names = some result) :
    addRights rights names = .ok result := by
  induction names generalizing rights with
  | nil =>
    rw [parseRights] at h
    rw [addRights, Option.some.inj h]
  | cons r rest ih =>
    obtain ⟨hr, hrest⟩ := List.forall_mem_cons.mp hnames
    rw [parseRights, hr] at h
    rw [addRights]
    cases hnamed : namedRight (toLower r) with
    | none =>
      rw [hnamed] at h
      cases h
    | some right =>
      rw [hnamed] at h
      split
      next hall =>
        rw [hall] at hnamed
        cases hnamed
        exact ih rfl hrest (hrights ▸ h)
      · exact ih (by rw [Nat.or_assoc, namedRight_or_all hnamed, hrights]) hrest h

/-- The two readings agree just if the rule has a scope and no blanks that one of them ignores. -/
lemma ruleDataToACL_eq_iff {data : ACLRuleData} {rule : ACL}
    (h : jsonToACLRule data = some rule) :
    ruleDataToACL data = .ok rule ↔ data.scope ≠ [] ∧ Trimmed data := by
  have haccepted : (jsonToACLRule data).isSome := by rw [h]; rfl
  have hiff := ruleDataToACL_ok_iff haccepted
  by_cases hempty : data.scope = []
  · simp only [jsonToACLRule, hempty, if_true, Option.bind_eq_bind, Option.bind_some,
      Option.bind_eq_some_iff] at h
    obtain ⟨rights, -, h⟩ := h
    cases h
    simp only [ruleDataToACL, hempty, toLower, List.map_nil, if_true]
    cases addRights 0 data.rights <;> simp [Except.map]
  · simp only [jsonToACLRule, hempty, if_false, Option.bind_eq_bind,
      Option.bind_eq_some_iff] at h
    obtain ⟨rights, hrights, scope, hscope, h⟩ := h
    cases h
    refine ⟨fun hok => ⟨hempty, hiff.mp ⟨_, hok⟩⟩, ?_⟩
    rintro ⟨_, htrim, htrims⟩
    have hlower : toLower data.scope ≠ [] := fun hnil => hempty (List.map_eq_nil_iff.mp hnil)
    rw [parseScope, htrim, if_neg hlower] at hscope
    rw [ruleDataToACL, if_neg hlower, hscope, addRights_of_parseRights rfl htrims hrights]
    rfl

section

variable {order : Order Bytes Bytes} {version : UInt64} {request : Request} {data : ACLRuleData}
  {index : Int} {rule : ACL}

/-- A command that fits its byte formats brings the rule to the replica as it is. -/
lemma replicatedRule_eq (hrequest : request = .addACLRule data index ∨
    request = .updateACLRule index data) (hfits : request.Fits order version)
    (haccepted : (jsonToACLRule data).isSome) :
    replicatedRule order version request = (ruleDataToACL data).toOption := by
  unfold replicatedRule
  rw [deserializeCommand_serialize hfits.1]
  rcases hrequest with rfl | rfl <;>
    simp [Request.accepted, Request.command, Request.aclCommand, haccepted,
      deserializeACLCommand_serialize hfits.2]

end

/-- A rule for everybody to read, without a scope. -/
def readAnywhere : ACLRuleData := ⟨ascii "*", ascii "*", [], [ascii "read"], [], false⟩

end Oba.Acl
