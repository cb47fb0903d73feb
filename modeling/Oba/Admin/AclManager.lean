import Oba.Acl.Evaluator
import Oba.Raft.AdminCommand

/-! # The ACL manager

`manager.go` of the package `acl`: the access rules that are in force, and what a replicated
command does to them. An error leaves them as they are.
-/

namespace Oba.Acl

open Raft (ACLRuleData ACLCommand)
open Storage (Bytes ascii toLower trimSpace isSpace isSpace_lower)

inductive ManagerError
  | nilRule
  | invalidScope (scope : Bytes)
  | invalidRight (right : Bytes)
  | convert (index : Nat) (err : ManagerError)
  | outOfRange (index : Int)
  | invalidPolicy (policy : Bytes)
  deriving DecidableEq, Repr

/-- The rights by their names. -/
def namedRight (name : Bytes) : Option Right :=
  if name = ascii "read" then some Right.read
  else if name = ascii "write" then some Right.write
  else if name = ascii "add" then some Right.add
  else if name = ascii "delete" then some Right.delete
  else if name = ascii "search" then some Right.search
  else if name = ascii "compare" then some Right.compare
  else if name = ascii "all" then some Right.all
  else none

/-- The scopes by their names, but for the empty one. -/
def namedScope (name : Bytes) : Option Scope :=
  if name = ascii "base" then some .base
  else if name = ascii "one" ∨ name = ascii "onelevel" then some .one
  else if name = ascii "sub" ∨ name = ascii "subtree" then some .subtree
  else none

/-! ## Replicated rules -/

/-- The loop of `ruleDataToACL` over the rights. -/
def addRights (rights : Right) : List Bytes → Except ManagerError Right
  | [] => .ok rights
  | r :: rest =>
    if toLower r = ascii "all" then addRights Right.all rest
    else match namedRight (toLower r) with
      | some right => addRights (rights ||| right) rest
      | none => .error (.invalidRight r)

/-- An empty scope stands for the base scope here. -/
def ruleDataToACL (data : ACLRuleData) : Except ManagerError ACL :=
  match if toLower data.scope = [] then some .base else namedScope (toLower data.scope) with
  | none => .error (.invalidScope data.scope)
  | some scope => (addRights 0 data.rights).map fun rights =>
    ⟨data.target, scope, data.subject, rights, data.attributes, data.deny⟩

structure Manager where
  config : Config
  version : UInt64
  deriving DecidableEq, Repr

namespace Manager

/-- The rules of a full update, the first of them at position `index`. -/
def convertRules (index : Nat) : List ACLRuleData → Except ManagerError (List ACL)
  | [] => .ok []
  | data :: rest =>
    match ruleDataToACL data with
    | .error err => .error (.convert index err)
    | .ok rule => (convertRules (index + 1) rest).map (rule :: ·)

def applyFullConfigFromRaft (rules : List ACLRuleData) (defaultPolicy : Bytes) (m : Manager) :
    Except ManagerError Manager :=
  (convertRules 0 rules).map fun rules => ⟨⟨defaultPolicy, rules⟩, m.version + 1⟩

/-- An index outside the rules adds the rule at their end. -/
def addRuleFromRaft (data : Option ACLRuleData) (index : Int) (m : Manager) :
    Except ManagerError Manager :=
  match data with
  | none => .error .nilRule
  | some data => (ruleDataToACL data).map fun rule =>
    let rules := m.config.rules
    ⟨⟨m.config.defaultPolicy,
      if index < 0 ∨ index ≥ rules.length then rules ++ [rule]
      else rules.take index.toNat ++ rule :: rules.drop index.toNat⟩, m.version + 1⟩

def updateRuleFromRaft (data : Option ACLRuleData) (index : Int) (m : Manager) :
    Except ManagerError Manager :=
  match data with
  | none => .error .nilRule
  | some data =>
    match ruleDataToACL data with
    | .error err => .error err
    | .ok rule =>
      if index < 0 ∨ index ≥ m.config.rules.length then .error (.outOfRange index)
      else .ok ⟨⟨m.config.defaultPolicy, m.config.rules.set index.toNat rule⟩, m.version + 1⟩

/-- An index outside the rules is ignored. -/
def deleteRuleFromRaft (index : Int) (m : Manager) : Except ManagerError Manager :=
  if index < 0 ∨ index ≥ m.config.rules.length then .ok m
  else .ok ⟨⟨m.config.defaultPolicy, m.config.rules.eraseIdx index.toNat⟩, m.version + 1⟩

def setDefaultPolicyFromRaft (policy : Bytes) (m : Manager) : Except ManagerError Manager :=
  let policy := toLower policy
  if policy ≠ ascii "allow" ∧ policy ≠ ascii "deny" then .error (.invalidPolicy policy)
  else .ok ⟨⟨policy, m.config.rules⟩, m.version + 1⟩

end Manager

/-- The types of ACL commands. -/
inductive ACLCommandType
  | fullUpdate
  | addRule
  | updateRule
  | deleteRule
  | setDefault
  deriving DecidableEq, Repr

/-- `applyACLCommand` on a command that has been decoded. -/
def Manager.applyACLCommand (type : ACLCommandType) (cmd : ACLCommand) (m : Manager) :
    Except ManagerError Manager :=
  match type with
  | .fullUpdate => m.applyFullConfigFromRaft cmd.rules cmd.defaultPolicy
  | .addRule => m.addRuleFromRaft cmd.rule cmd.ruleIndex
  | .updateRule => m.updateRuleFromRaft cmd.rule cmd.ruleIndex
  | .deleteRule => m.deleteRuleFromRaft cmd.ruleIndex
  | .setDefault => m.setDefaultPolicyFromRaft cmd.defaultPolicy

/-! ## Rules of the file and of requests -/

/-- `ParseRights` -/
def parseRights (rights : Right) : List Bytes → Option Right
  | [] => some rights
  | r :: rest =>
    match namedRight (toLower (trimSpace r)) with
    | some right => parseRights (rights ||| right) rest
    | none => none

/-- An empty scope stands for the whole subtree here. -/
def parseScope (s : Bytes) : Option Scope :=
  if toLower (trimSpace s) = [] then some .subtree else namedScope (toLower (trimSpace s))

/-- The rule that a request describes. -/
def jsonToACLRule (j : ACLRuleData) : Option ACL := do
  let rights ← parseRights 0 j.rights
  let scope ← if j.scope = [] then some .subtree else parseScope j.scope
  some ⟨j.target, scope, j.subject, rights, j.attributes, j.deny⟩

/-! ## Which rules are accepted

A rule is checked twice, when it is requested and when it is applied, and only the first check
ignores blanks around the names. -/

lemma not_isSpace_of_namedRight {name : Bytes} (hnamed : (namedRight name).isSome) :
    ∀ b ∈ name, isSpace b = false := by
  unfold namedRight at hnamed
  split_ifs at hnamed
  all_goals first | (subst name; decide +kernel) | cases hnamed

lemma not_isSpace_of_namedScope {name : Bytes} (hnamed : (namedScope name).isSome) :
    ∀ b ∈ name, isSpace b = false := by
  unfold namedScope at hnamed
  split_ifs at hnamed with hbase hone hsub
  · subst name; decide +kernel
  · rcases hone with rfl | rfl <;> decide +kernel
  · rcases hsub with rfl | rfl <;> decide +kernel
  · cases hnamed

lemma trimSpace_of_lower {s : Bytes} (hs : ∀ b ∈ toLower s, isSpace b = false) :
    trimSpace s = s := by
  apply Storage.trimSpace_of_not_isSpace
  intro b hb
  rw [← isSpace_lower b]
  exact hs _ (List.mem_map_of_mem hb)

lemma addRights_ok_iff (rights : Right) (names : List Bytes) :
    (∃ result, addRights rights names = .ok result) ↔
      ∀ r ∈ names, (namedRight (toLower r)).isSome := by
  induction names generalizing rights with
  | nil => simp [addRights]
  | cons r rest ih =>
    have hall : (namedRight (ascii "all")).isSome := by decide
    rw [addRights]
    split
    next hname => simp [ih, hname, hall]
    · cases hnamed : namedRight (toLower r) with
      | none => simp [hnamed]
      | some right => simp [ih, hnamed]

lemma parseRights_isSome_iff (rights : Right) (names : List Bytes) :
    (parseRights rights names).isSome ↔
      ∀ r ∈ names, (namedRight (toLower (trimSpace r))).isSome := by
  induction names generalizing rights with
  | nil => simp [parseRights]
  | cons r rest ih =>
    rw [parseRights]
    cases hnamed : namedRight (toLower (trimSpace r)) with
    | none => simp [hnamed]
    | some right => simp [ih, hnamed]

lemma ruleDataToACL_ok (data : ACLRuleData) :
    (∃ rule, ruleDataToACL data = .ok rule) ↔
      (data.scope = [] ∨ (namedScope (toLower data.scope)).isSome) ∧
        ∀ r ∈ data.rights, (namedRight (toLower r)).isSome := by
  have hempty : toLower data.scope = [] ↔ data.scope = [] := List.map_eq_nil_iff
  rw [← addRights_ok_iff 0, ← hempty, ruleDataToACL]
  cases hrights : addRights 0 data.rights with
  | error err => split <;> simp [Except.map]
  | ok rights =>
    by_cases hscope : toLower data.scope = []
    · simp [hscope, Except.map]
    · cases hnamed : namedScope (toLower data.scope) with
      | none => simp [hscope]
      | some scope => simp [hscope, Except.map]

lemma jsonToACLRule_isSome (data : ACLRuleData) :
    (jsonToACLRule data).isSome ↔
      (trimSpace data.scope = [] ∨ (namedScope (toLower (trimSpace data.scope))).isSome) ∧
        ∀ r ∈ data.rights, (namedRight (toLower (trimSpace r))).isSome := by
  have hempty : toLower (trimSpace data.scope) = [] ↔ trimSpace data.scope = [] :=
    List.map_eq_nil_iff
  rw [← parseRights_isSome_iff 0, ← hempty, jsonToACLRule]
  cases hrights : parseRights 0 data.rights with
  | none => simp
  | some rights =>
    by_cases hscope : data.scope = []
    · simp [hscope, trimSpace, toLower]
    · by_cases htrim : toLower (trimSpace data.scope) = []
      · simp [hscope, parseScope, htrim]
      · cases hnamed : namedScope (toLower (trimSpace data.scope)) <;>
          simp [hscope, parseScope, htrim, hnamed]

/-- The texts of a rule that names are read from have no blanks around them. -/
def Trimmed (data : ACLRuleData) : Prop :=
  trimSpace data.scope = data.scope ∧ ∀ r ∈ data.rights, trimSpace r = r

/-- A rule that was accepted is applied exactly if it has no blanks that were ignored. -/
lemma ruleDataToACL_ok_iff {data : ACLRuleData} (haccepted : (jsonToACLRule data).isSome) :
    (∃ rule, ruleDataToACL data = .ok rule) ↔ Trimmed data := by
  obtain ⟨hscope, hrights⟩ := (jsonToACLRule_isSome data).mp haccepted
  rw [ruleDataToACL_ok]
  constructor
  · rintro ⟨happlied, hnamed⟩
    refine ⟨?_, fun r hr => trimSpace_of_lower (not_isSpace_of_namedRight (hnamed r hr))⟩
    rcases happlied with hempty | hsome
    · rw [hempty]
      rfl
    · exact trimSpace_of_lower (not_isSpace_of_namedScope hsome)
  · rintro ⟨htrim, htrims⟩
    rw [htrim] at hscope
    exact ⟨hscope, fun r hr => htrims r hr ▸ hrights r hr⟩

/-! ## Which commands are applied -/

namespace Manager

lemma addRuleFromRaft_ok_iff (m : Manager) (data : ACLRuleData) (index : Int) :
    (∃ next, m.addRuleFromRaft (some data) index = .ok next) ↔
      ∃ rule, ruleDataToACL data = .ok rule := by
  rw [addRuleFromRaft]
  cases ruleDataToACL data <;> simp [Except.map]

lemma updateRuleFromRaft_ok_iff (m : Manager) (data : ACLRuleData) (index : Int) :
    (∃ next, m.updateRuleFromRaft (some data) index = .ok next) ↔
      (∃ rule, ruleDataToACL data = .ok rule) ∧ 0 ≤ index ∧ index < m.config.rules.length := by
  rw [updateRuleFromRaft]
  cases ruleDataToACL data with
  | error err => simp
  | ok rule =>
    dsimp only
    split
    next houtside =>
      have hinside : ¬ (0 ≤ index ∧ index < m.config.rules.length) := by omega
      simp [hinside]
    next hinside => simp; omega

lemma deleteRuleFromRaft_ok (m : Manager) (index : Int) :
    ∃ next, m.deleteRuleFromRaft index = .ok next := by
  unfold deleteRuleFromRaft
  split
  · exact ⟨_, rfl⟩
  · exact ⟨_, rfl⟩

lemma setDefaultPolicyFromRaft_ok_iff (m : Manager) (policy : Bytes) :
    (∃ next, m.setDefaultPolicyFromRaft policy = .ok next) ↔
      toLower policy = ascii "allow" ∨ toLower policy = ascii "deny" := by
  unfold setDefaultPolicyFromRaft
  dsimp only
  split
  next hother => simp [hother]
  next hknown => simp; tauto

end Manager

end Oba.Acl
