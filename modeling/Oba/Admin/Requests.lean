import Oba.Admin.AclManager
import Oba.Admin.ConfigManager
import Oba.Raft.Replication
import Oba.Raft.Snapshot

/-! # Requests that change the configuration or the access rules

The REST handlers of the leader check a request and propose a command for it, and every replica
applies the command to its own managers. An error of a manager has no type of its own, so it is
fatal and the replica applies nothing after it. The check of the leader and the check of the
managers are not the same.
-/

namespace Oba.Admin

open Acl (ACLCommandType Manager ManagerError Trimmed jsonToACLRule)
open ByteCodec UnorderedMap
open Raft
open Storage (Bytes ascii toLower trimSpace IndexTrees Orders)

/-! ## Replicas -/

def cmdConfigUpdate : UInt8 := 3
def cmdACLFullUpdate : UInt8 := 4
def cmdACLAddRule : UInt8 := 5
def cmdACLUpdateRule : UInt8 := 6
def cmdACLDeleteRule : UInt8 := 7
def cmdACLSetDefault : UInt8 := 8

def aclCommandType (type : UInt8) : Option ACLCommandType :=
  if type = cmdACLFullUpdate then some .fullUpdate
  else if type = cmdACLAddRule then some .addRule
  else if type = cmdACLUpdateRule then some .updateRule
  else if type = cmdACLDeleteRule then some .deleteRule
  else if type = cmdACLSetDefault then some .setDefault
  else none

/-- The state machine of a replica with the managers that are attached to it. -/
abbrev Replica (τ : Type) := FullStateMachine τ ConfigManager Manager

/-- What `Apply` can return besides nil. -/
inductive CommandError
  | ldap (err : ApplyError)
  | corrupted
  | config (err : UnknownSection)
  | acl (err : ManagerError)
  | unknownType (type : UInt8)
  deriving DecidableEq, Repr

/-- `ApplyResultFromError`: only the errors of LDAP commands have types. -/
def resultFromError : Option CommandError → ApplyResult
  | none => .applied
  | some (.ldap err) => applyResultFromError (some err)
  | some _ => .fatal

namespace Replica

variable {τ : Type} (trees : IndexTrees τ) (orders : Orders) (readers : Readers)

/-- Without a manager the command is skipped. -/
def applyConfigCommand (cmd : WireCommand) (r : Replica τ) : Option CommandError × Replica τ :=
  match r.configApplier with
  | none => (none, r)
  | some m =>
    match deserializeConfigCommand cmd.configData with
    | none => (some .corrupted, r)
    | some configCmd =>
      match m.applyFromRaft readers configCmd.sectionName configCmd.data with
      | .error err => (some (.config err), r)
      | .ok m => (none, { r with configApplier := some m })

def applyACLCommand (type : ACLCommandType) (cmd : WireCommand) (r : Replica τ) :
    Option CommandError × Replica τ :=
  match r.aclApplier with
  | none => (none, r)
  | some m =>
    match deserializeACLCommand cmd.aclData with
    | none => (some .corrupted, r)
    | some aclCmd =>
      match m.applyACLCommand type aclCmd with
      | .error err => (some (.acl err), r)
      | .ok m => (none, { r with aclApplier := some m })

/-- `Apply` -/
def apply (cmd : WireCommand) (r : Replica τ) : Option CommandError × Replica τ :=
  match cmd.ldap with
  | some ldapCmd =>
    let (err, databases) := r.toObaDBStateMachine.apply trees orders ldapCmd
    (err.map .ldap, { r with toObaDBStateMachine := databases })
  | none =>
    if cmd.type = cmdConfigUpdate then r.applyConfigCommand readers cmd
    else match aclCommandType cmd.type with
      | some type => r.applyACLCommand type cmd
      | none => (some (.unknownType cmd.type), r)

/-- An entry that cannot be read is fatal as well. -/
def applyEntry (entry : Bytes) (r : Replica τ) : ApplyResult × Replica τ :=
  match deserializeCommand entry with
  | none => (.fatal, r)
  | some cmd =>
    let (err, r) := r.apply trees orders readers cmd
    (resultFromError err, r)

/-- One round of `applyLoop` over the committed entries that are not applied, with the
iteration orders of their loops. What it leaves comes again in the next round. -/
def applyCommitted : List (Bytes × Orders) → Replica τ → List (Bytes × Orders) × Replica τ
  | [], r => ([], r)
  | (entry, orders) :: rest, r =>
    match r.applyEntry trees orders readers entry with
    | (.fatal, r) => ((entry, orders) :: rest, r)
    | (_, r) => applyCommitted rest r

end Replica

/-! ## Requests -/

/-- The requests that propose a command. The settings of a section are texts already. -/
inductive Request
  | updateConfigSection (sectionName : Bytes) (data : Settings)
  | addACLRule (rule : ACLRuleData) (index : Int)
  | updateACLRule (index : Int) (rule : ACLRuleData)
  | deleteACLRule (index : Int)
  | setDefaultPolicy (policy : Bytes)

namespace Request

/-- What the handlers check before they propose. -/
def accepted : Request → Bool
  | updateConfigSection sectionName _ => sectionName ≠ []
  | addACLRule rule _ => (jsonToACLRule rule).isSome
  | updateACLRule _ rule => (jsonToACLRule rule).isSome
  | deleteACLRule _ => true
  | setDefaultPolicy _ => true

def configCommand (data : Bytes) : WireCommand := ⟨cmdConfigUpdate, 0, [], [], [], [], data, []⟩

def aclCommand (type : UInt8) (cmd : ACLCommand) : WireCommand :=
  ⟨type, 0, [], [], [], [], [], serializeACLCommand cmd⟩

/-- The command that is proposed, with the version that follows that of the leader's manager. -/
def command (order : Order Bytes Bytes) (version : UInt64) : Request → WireCommand
  | updateConfigSection sectionName data =>
    configCommand (serializeConfigCommand order ⟨sectionName, data, version⟩)
  | addACLRule rule index => aclCommand cmdACLAddRule ⟨[], [], some rule, index, version⟩
  | updateACLRule index rule => aclCommand cmdACLUpdateRule ⟨[], [], some rule, index, version⟩
  | deleteACLRule index => aclCommand cmdACLDeleteRule ⟨[], [], none, index, version⟩
  | setDefaultPolicy policy => aclCommand cmdACLSetDefault ⟨policy, [], none, 0, version⟩

/-- The texts and lists of a request, and the command as a whole, fit the lengths of their
byte formats. -/
def Fits (order : Order Bytes Bytes) (version : UInt64) (request : Request) : Prop :=
  (request.command order version).Fits ∧ match request with
    | updateConfigSection sectionName data => ConfigCommand.Fits ⟨sectionName, data, version⟩
    | addACLRule rule index => ACLCommand.Fits ⟨[], [], some rule, index, version⟩
    | updateACLRule index rule => ACLCommand.Fits ⟨[], [], some rule, index, version⟩
    | deleteACLRule index => ACLCommand.Fits ⟨[], [], none, index, version⟩
    | setDefaultPolicy policy => ACLCommand.Fits ⟨policy, [], none, 0, version⟩

/-- The managers of a replica have no error for the request. -/
def Harmless {τ : Type} (r : Replica τ) : Request → Prop
  | updateConfigSection sectionName _ => r.configApplier.isSome → toLower sectionName ∈ hotSections
  | addACLRule rule _ => r.aclApplier.isSome → Trimmed rule
  | updateACLRule index rule => ∀ m ∈ r.aclApplier,
      Trimmed rule ∧ 0 ≤ index ∧ index < m.config.rules.length
  | deleteACLRule _ => True
  | setDefaultPolicy policy => r.aclApplier.isSome →
      toLower policy = ascii "allow" ∨ toLower policy = ascii "deny"

end Request

/-! ## Applying a request -/

section

variable {τ : Type} {trees : IndexTrees τ} {orders : Orders} {readers : Readers}

namespace Replica

lemma applyConfigCommand_final_iff (cmd : WireCommand) {configCmd : ConfigCommand}
    (hread : deserializeConfigCommand cmd.configData = some configCmd) (r : Replica τ) :
    resultFromError (r.applyConfigCommand readers cmd).1 ≠ .fatal ↔
      (r.configApplier.isSome → toLower configCmd.sectionName ∈ hotSections) := by
  unfold applyConfigCommand
  cases r.configApplier with
  | none => simp [resultFromError]
  | some m =>
    rw [← m.applyFromRaft_ok_iff readers configCmd.sectionName configCmd.data, hread]
    dsimp only
    cases m.applyFromRaft readers configCmd.sectionName configCmd.data <;> simp [resultFromError]

lemma applyACLCommand_final_iff (type : ACLCommandType) (cmd : WireCommand)
    {aclCmd : ACLCommand} (hread : deserializeACLCommand cmd.aclData = some aclCmd)
    (r : Replica τ) :
    resultFromError (r.applyACLCommand type cmd).1 ≠ .fatal ↔
      ∀ m ∈ r.aclApplier, ∃ next, m.applyACLCommand type aclCmd = .ok next := by
  unfold applyACLCommand
  cases r.aclApplier with
  | none => simp [resultFromError]
  | some m =>
    rw [hread]
    cases hnext : m.applyACLCommand type aclCmd <;> simp [resultFromError, hnext]

/-- What a round leaves is the end of what it was given. -/
lemma applyCommitted_suffix (entries : List (Bytes × Orders)) (r : Replica τ) :
    (r.applyCommitted trees readers entries).1 <:+ entries := by
  induction entries generalizing r with
  | nil => exact List.suffix_refl _
  | cons entry rest ih =>
    unfold applyCommitted
    split
    · exact List.suffix_refl _
    · exact (ih _).trans (List.suffix_cons _ _)

/-- A round gets past its first entry exactly if the result for it is final. -/
lemma applyCommitted_past_iff (entry : Bytes) (rest : List (Bytes × Orders)) (r : Replica τ) :
    (r.applyCommitted trees readers ((entry, orders) :: rest)).1 <:+ rest ↔
      (r.applyEntry trees orders readers entry).1 ≠ .fatal := by
  unfold applyCommitted
  split
  next next hfatal =>
    rw [hfatal]
    constructor
    · intro hsuffix
      have hlength := hsuffix.length_le
      simp at hlength
    · intro hfinal
      exact absurd rfl hfinal
  next result next hfinal happly =>
    rw [happly]
    exact iff_of_true (applyCommitted_suffix rest next) hfinal

end Replica

namespace Request

/-- An accepted command gives a final result exactly where it is harmless. -/
lemma apply_final_iff {order : Order Bytes Bytes} {version : UInt64} {request : Request}
    (haccepted : request.accepted) (hfits : request.Fits order version) (r : Replica τ) :
    resultFromError (r.apply trees orders readers (request.command order version)).1 ≠ .fatal ↔
      request.Harmless r := by
  have hacl (type : ACLCommandType) (code : UInt8) {cmd : ACLCommand} (hfits : cmd.Fits) :=
    Replica.applyACLCommand_final_iff type (aclCommand code cmd)
      (deserializeACLCommand_serialize hfits) r
  cases request with
  | updateConfigSection sectionName data =>
    exact Replica.applyConfigCommand_final_iff (configCommand _)
      (deserializeConfigCommand_serialize order hfits.2) r
  | addACLRule rule index =>
    refine (hacl .addRule _ hfits.2).trans ?_
    have hrule := Acl.ruleDataToACL_ok_iff haccepted
    cases happlier : r.aclApplier <;>
      simp [Harmless, happlier, Manager.applyACLCommand, Manager.addRuleFromRaft_ok_iff, hrule]
  | updateACLRule index rule =>
    refine (hacl .updateRule _ hfits.2).trans ?_
    have hrule := Acl.ruleDataToACL_ok_iff haccepted
    simp only [Harmless, Manager.applyACLCommand, Manager.updateRuleFromRaft_ok_iff, hrule]
  | deleteACLRule index =>
    refine (hacl .deleteRule _ hfits.2).trans ?_
    exact iff_of_true (fun m _ => m.deleteRuleFromRaft_ok index) trivial
  | setDefaultPolicy policy =>
    refine (hacl .setDefault _ hfits.2).trans ?_
    cases happlier : r.aclApplier <;>
      simp [Harmless, happlier, Manager.applyACLCommand, Manager.setDefaultPolicyFromRaft_ok_iff]

end Request

end

/-- A replica with both managers, no rules and no entries. -/
def freshReplica : Replica Unit := ⟨⟨.new (), none⟩, some default, some ⟨⟨ascii "deny", []⟩, 0⟩⟩

/-- Readers that accept nothing. -/
def noReaders : Readers := ⟨fun _ => none, fun _ => none⟩

def readRule (right : String) : ACLRuleData :=
  ⟨ascii "*", ascii "*", ascii "base", [ascii right], [], false⟩

lemma readRule_fits : (Request.addACLRule (readRule "read") 0).Fits .ascending 1 := by
  refine ⟨⟨by decide, by decide, by decide, by decide, by decide, by decide +kernel⟩, ?_⟩
  refine ⟨by decide, ⟨by decide, by simp⟩, fun rule hrule => ?_, by decide⟩
  cases hrule
  exact ⟨by decide, by decide, by decide, by decide, by decide⟩

/-- What the fresh replica makes of a request. -/
def freshResult (request : Request) : ApplyResult :=
  (freshReplica.applyEntry .empty (fun _ => .ascending) noReaders
    (request.command .ascending 1).serialize).1

end Oba.Admin
