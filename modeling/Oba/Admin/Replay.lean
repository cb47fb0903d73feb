import Oba.Admin.AclManager
import Oba.Library.Execution

/-! # The access rules after a restart

A node that restarts reads its rules from the file it has saved and then applies its whole log
once more. The file holds the effect of the log already. Commands that overwrite rules do not
change it when they come again, but commands that add or remove rules do. The file is modelled
by the values that are written into its text and the values that the parser finds there.
-/

namespace Oba.Acl

open Execution List Option Config
open Raft (ACLRuleData ACLCommand)
open Storage (Bytes ascii toLower)

variable {m next : Manager} {rules : List ACL} {final : Config}

/-! ## The file of the rules -/

/-- What is wrong with a file; rules are named by their positions. -/
inductive LoadError
  | invalidVersion
  | invalidPolicy (policy : Bytes)
  | missingTarget (index : Nat)
  | missingSubject (index : Nat)
  | missingRights (index : Nat)
  | invalidRule (index : Nat)
  deriving DecidableEq, Repr

structure FileConfig where
  version : Int
  defaultPolicy : Bytes
  rules : List ACLRuleData
  deriving DecidableEq, Repr

def Scope.string : Scope → Bytes
  | .base => ascii "base"
  | .one => ascii "one"
  | .subtree => ascii "subtree"
  | .unknown => ascii "unknown"

def rightsToStrings (r : Right) : List Bytes :=
  if r = Right.all then [ascii "all"]
  else [(Right.read, "read"), (Right.write, "write"), (Right.add, "add"),
    (Right.delete, "delete"), (Right.search, "search"), (Right.compare, "compare")].filterMap
      fun (right, name) => if r.has right then some (ascii name) else none

def ACL.toFile (rule : ACL) : ACLRuleData :=
  ⟨rule.target, rule.subject, rule.scope.string, rightsToStrings rule.rights, rule.attributes,
    rule.deny⟩

/-- The values that `configToYAML` writes. -/
def Config.toFile (c : Config) : FileConfig := ⟨1, c.defaultPolicy, c.rules.map ACL.toFile⟩

/-- The rights and the scope are read as those of a request are. -/
def convertRule (r : ACLRuleData) (index : Nat) : Except LoadError ACL :=
  if r.target = [] then .error (.missingTarget index)
  else if r.subject = [] then .error (.missingSubject index)
  else if r.rights = [] then .error (.missingRights index)
  else match jsonToACLRule r with
    | none => .error (.invalidRule index)
    | some rule => .ok rule

def convertFileConfig (fc : FileConfig) : Except LoadError Config :=
  let policy := toLower fc.defaultPolicy
  if fc.version < 1 then .error .invalidVersion
  else if policy ≠ ascii "allow" ∧ policy ≠ ascii "deny" ∧ policy ≠ [] then
    .error (.invalidPolicy fc.defaultPolicy)
  else do
    let rules ← fc.rules.zipIdx.mapM fun (rule, index) => convertRule rule index
    return ⟨if policy = [] then ascii "deny" else policy, rules⟩

/-- A rule that can be read from the file. -/
structure ACL.Loads (rule : ACL) : Prop where
  target : rule.target ≠ []
  subject : rule.subject ≠ []
  scope : rule.scope ≠ .unknown
  rights : 0 < rule.rights ∧ rule.rights ≤ Right.all

structure Config.Loads (c : Config) : Prop where
  policy : c.defaultPolicy = ascii "allow" ∨ c.defaultPolicy = ascii "deny"
  rules : ∀ rule ∈ c.rules, rule.Loads

lemma parseRights_rightsToStrings : ∀ r < 64, parseRights 0 (rightsToStrings r) = some r := by
  decide +kernel

lemma rightsToStrings_ne_nil : ∀ r < 64, 0 < r → rightsToStrings r ≠ [] := by
  decide +kernel

lemma convertRule_toFile {rule : ACL} (h : rule.Loads) (index : Nat) :
    convertRule rule.toFile index = .ok rule := by
  have hsmall : rule.rights < 64 := Nat.lt_succ_of_le h.rights.2
  have hscope : ∀ scope : Scope, scope ≠ .unknown →
      scope.string ≠ [] ∧ parseScope scope.string = some scope := by
    rintro (_ | _ | _ | _) hknown
    all_goals first | decide +kernel | exact absurd rfl hknown
  obtain ⟨hname, hparse⟩ := hscope rule.scope h.scope
  unfold convertRule jsonToACLRule ACL.toFile
  simp [h.target, h.subject, hname, hparse, rightsToStrings_ne_nil _ hsmall h.rights.1,
    parseRights_rightsToStrings _ hsmall]

lemma convertRules_toFile (h : ∀ rule ∈ rules, rule.Loads) (index : Nat) :
    ((rules.map ACL.toFile).zipIdx index).mapM
      (fun p : ACLRuleData × Nat => convertRule p.1 p.2) = .ok rules := by
  induction rules generalizing index with
  | nil => rfl
  | cons rule rest ih =>
    rw [map_cons, zipIdx_cons, mapM_cons, convertRule_toFile (h rule mem_cons_self),
      ih fun rule hrule => h rule (mem_cons_of_mem _ hrule)]
    rfl

/-- Rules that a file can hold come back from it. -/
lemma convertFileConfig_toFile (h : final.Loads) : convertFileConfig final.toFile = .ok final := by
  obtain ⟨policy, rules⟩ := final
  have hpolicy : policy = ascii "allow" ∨ policy = ascii "deny" := h.policy
  have hlower : toLower policy = policy ∧ policy ≠ [] := by
    rcases hpolicy with rfl | rfl <;> decide +kernel
  unfold convertFileConfig Config.toFile
  simp only [hlower, convertRules_toFile h.rules]
  rcases hpolicy with rfl | rfl <;> rfl

/-! ## The log -/

/-- An entry of the log. -/
abbrev LoggedCommand := ACLCommandType × ACLCommand

variable {entry : LoggedCommand} {text : FileConfig → FileConfig}

namespace Manager

/-- A command that the node has applied. -/
def step (m : Manager) (entry : LoggedCommand) : Option Manager :=
  (m.applyACLCommand entry.1 entry.2).toOption

/-- The node applies its log up to the first command that fails. -/
def replay : List LoggedCommand → Manager → Manager
  | [], m => m
  | entry :: rest, m =>
    match m.applyACLCommand entry.1 entry.2 with
    | .error _ => m
    | .ok m => replay rest m

/-- The node reads the file in which it has saved a configuration and applies its log. The
parser finds the values `text fc` in the text that was written for `fc`. -/
def restart (text : FileConfig → FileConfig) (saved : Config) (log : List LoggedCommand) :
    Except LoadError Manager :=
  (convertFileConfig (text saved.toFile)).map fun config => replay log ⟨config, 0⟩

/-- The command leaves as many rules as there were. -/
def KeepsCount (m : Manager) (entry : LoggedCommand) : Prop :=
  match entry.1 with
  | .fullUpdate => entry.2.rules.length = m.config.rules.length
  | .addRule => False
  | .updateRule => True
  | .deleteRule => entry.2.ruleIndex < 0 ∨ entry.2.ruleIndex ≥ m.config.rules.length
  | .setDefault => True

lemma replay_of_exec {log : List LoggedCommand} {last : Manager}
    (hexec : exec step m log = some last) : replay log m = last := by
  induction log generalizing m with
  | nil => exact some.inj hexec
  | cons entry rest ih =>
    simp only [exec, foldlM_cons, bind_eq_bind, bind_eq_some_iff] at hexec
    obtain ⟨next, hnext, hrest⟩ := hexec
    rw [replay]
    unfold step at hnext
    cases happly : m.applyACLCommand entry.1 entry.2 with
    | error err => simp [happly, Except.toOption] at hnext
    | ok m' =>
      obtain rfl : m' = next := by simpa [happly, Except.toOption] using hnext
      exact ih hrest

end Manager

/-! ## Commands as overwrites -/

/-- Write the default policy and some of the rules. -/
def Config.overwrite (policy : Option Bytes) (written : Nat → Option ACL) (c : Config) : Config :=
  ⟨policy.getD c.defaultPolicy, c.rules.mapIdx fun i rule => (written i).getD rule⟩

namespace Config

section

variable (policy : Option Bytes) (written : Nat → Option ACL) (c : Config)

lemma getElem?_overwrite (i : Nat) : (c.overwrite policy written).rules[i]? =
      c.rules[i]?.map fun rule => (written i).getD rule :=
  getElem?_mapIdx

lemma length_overwrite : (c.overwrite policy written).rules.length = c.rules.length :=
  length_mapIdx

end

lemma overwrite_nothing (policy : Option Bytes) (c : Config) :
    c.overwrite policy (fun _ => none) = ⟨policy.getD c.defaultPolicy, c.rules⟩ := by
  refine congrArg (mk _) (ext_getElem? fun i => ?_)
  rw [getElem?_mapIdx]
  exact map_id_apply

lemma overwrite_one (index : Nat) (rule : ACL) (c : Config) :
    c.overwrite none (fun i => if i = index then some rule else none) =
      ⟨c.defaultPolicy, c.rules.set index rule⟩ := by
  refine congrArg (mk _) (ext_getElem? fun i => ?_)
  by_cases hi : i = index
  · subst hi
    cases hrule : c.rules[i]? with
    | none => simp [List.getElem?_eq_none_iff.mp hrule]
    | some old => simp [(List.getElem?_eq_some_iff.mp hrule).1]
  · cases c.rules[i]? <;> simp [hi, Ne.symm hi]

lemma overwrite_all (policy : Bytes) {c : Config} (hlength : c.rules.length = rules.length) :
    c.overwrite (some policy) (fun i => rules[i]?) = ⟨policy, rules⟩ := by
  refine congrArg (mk _) (ext_getElem? fun i => ?_)
  by_cases hi : i < rules.length
  · simp [getElem?_eq_getElem hi, getElem?_eq_getElem (hlength ▸ hi)]
  · simp [getElem?_eq_none (hlength ▸ not_lt.mp hi),
      getElem?_eq_none (not_lt.mp hi)]

end Config

/-! ## Two runs of one log -/

/-- In the second run every part of the configuration is as it was at this point of the first
run, or still as it was at the end. -/
structure Behind (final first second : Config) : Prop where
  policy : second.defaultPolicy = first.defaultPolicy ∨ second.defaultPolicy = final.defaultPolicy
  length : second.rules.length = first.rules.length
  rule : ∀ i : Nat, second.rules[i]? = first.rules[i]? ∨ second.rules[i]? = final.rules[i]?

lemma Behind.eq {last : Config} (h : Behind final final last) : last = final := by
  have hpolicy : last.defaultPolicy = final.defaultPolicy := or_self_iff.mp h.policy
  have hrules : last.rules = final.rules := ext_getElem? fun i => or_self_iff.mp (h.rule i)
  cases last
  congr

namespace Manager

lemma convertRules_length {index : Nat} {data : List ACLRuleData}
    (h : convertRules index data = .ok rules) : rules.length = data.length := by
  induction data generalizing index rules with
  | nil => cases h; rfl
  | cons head rest ih =>
    rw [convertRules] at h
    cases hhead : ruleDataToACL head with
    | error err => simp [hhead] at h
    | ok rule =>
      cases hrest : convertRules (index + 1) rest with
      | error err => simp [hhead, hrest, Except.map] at h
      | ok tail =>
        obtain rfl : rule :: tail = rules := by simpa [hhead, hrest, Except.map] using h
        rw [length_cons, length_cons, ih hrest]

/-- An update that was applied needs nothing but its index within the rules. -/
lemma updateRuleFromRaft_of_ok {cmd : ACLCommand}
    (hstep : m.step (.updateRule, cmd) = some next) :
    ∃ rule, (∀ m' : Manager, ¬ (cmd.ruleIndex < 0 ∨ cmd.ruleIndex ≥ m'.config.rules.length) →
        m'.updateRuleFromRaft cmd.rule cmd.ruleIndex = .ok ⟨⟨m'.config.defaultPolicy,
          m'.config.rules.set cmd.ruleIndex.toNat rule⟩, m'.version + 1⟩) ∧
      ¬ (cmd.ruleIndex < 0 ∨ cmd.ruleIndex ≥ m.config.rules.length) := by
  unfold step applyACLCommand updateRuleFromRaft at hstep
  cases hdata : cmd.rule with
  | none => simp [hdata, Except.toOption] at hstep
  | some data =>
    cases hrule : ruleDataToACL data with
    | error err => simp [hdata, hrule, Except.toOption] at hstep
    | ok rule =>
      refine ⟨rule, fun m' hinside => ?_, fun houtside => ?_⟩
      · simp only [updateRuleFromRaft, hrule, if_neg hinside]
      · simp [hdata, hrule, if_pos houtside, Except.toOption] at hstep

/-- A command that keeps the number of rules writes the same policy and the same rules in
every configuration with that number of rules. -/
lemma step_overwrites (hcount : m.KeepsCount entry) (hstep : m.step entry = some next) :
    ∃ policy written, ∀ m' : Manager, m'.config.rules.length = m.config.rules.length →
      ∃ version, m'.step entry = some ⟨m'.config.overwrite policy written, version⟩ := by
  obtain ⟨type, cmd⟩ := entry
  cases type with
  | fullUpdate =>
    cases hrules : convertRules 0 cmd.rules with
    | error err =>
      simp [step, applyACLCommand, applyFullConfigFromRaft, hrules, Except.map,
        Except.toOption] at hstep
    | ok rules =>
      refine ⟨some cmd.defaultPolicy, fun i => rules[i]?, fun m' hlength =>
        ⟨m'.version + 1, ?_⟩⟩
      have hall : m'.config.rules.length = rules.length :=
        hlength.trans (hcount.symm.trans (convertRules_length hrules).symm)
      simp only [step, applyACLCommand, applyFullConfigFromRaft, hrules, Except.map,
        Except.toOption, overwrite_all cmd.defaultPolicy hall]
  | addRule => exact hcount.elim
  | updateRule =>
    obtain ⟨rule, hrule, hinside⟩ := updateRuleFromRaft_of_ok hstep
    refine ⟨none, fun i => if i = cmd.ruleIndex.toNat then some rule else none,
      fun m' hlength => ⟨m'.version + 1, ?_⟩⟩
    rw [← hlength] at hinside
    rw [step, applyACLCommand, hrule m' hinside, overwrite_one]
    rfl
  | deleteRule =>
    refine ⟨none, fun _ => none, fun m' hlength => ⟨m'.version, ?_⟩⟩
    have houtside : cmd.ruleIndex < 0 ∨ cmd.ruleIndex ≥ m'.config.rules.length :=
      hlength ▸ hcount
    simp only [step, applyACLCommand, deleteRuleFromRaft, if_pos houtside, Except.toOption,
      overwrite_nothing, getD_none]
  | setDefault =>
    refine ⟨some (toLower cmd.defaultPolicy), fun _ => none, fun m' _ => ⟨m'.version + 1, ?_⟩⟩
    have hknown : ¬ (toLower cmd.defaultPolicy ≠ ascii "allow" ∧
        toLower cmd.defaultPolicy ≠ ascii "deny") := by
      intro hother
      simp only [step, applyACLCommand, setDefaultPolicyFromRaft, if_pos hother,
        Except.toOption] at hstep
      cases hstep
    simp only [step, applyACLCommand, setDefaultPolicyFromRaft, if_neg hknown, Except.toOption,
      overwrite_nothing, getD_some]

end Manager

lemma Manager.step_length (hcount : m.KeepsCount entry) (hstep : m.step entry = some next) :
    next.config.rules.length = m.config.rules.length := by
  obtain ⟨policy, written, hall⟩ := step_overwrites hcount hstep
  obtain ⟨version, hnext⟩ := hall m rfl
  cases hnext.symm.trans hstep
  exact length_overwrite policy written m.config

/-- The same write in both runs. -/
lemma Behind.overwrite {first second : Config} (h : Behind final first second)
    (policy : Option Bytes) (written : Nat → Option ACL) :
    Behind final (first.overwrite policy written) (second.overwrite policy written) where
  policy := by
    cases policy with
    | none => exact h.policy
    | some policy => exact .inl rfl
  length := by rw [length_overwrite, length_overwrite, h.length]
  rule i := by
    rw [getElem?_overwrite, getElem?_overwrite]
    cases written i with
    | none => simpa using h.rule i
    | some rule =>
      -- both runs have a rule at this place, or neither has
      left
      by_cases hi : i < first.rules.length
      · rw [getElem?_eq_getElem hi, getElem?_eq_getElem (h.length ▸ hi)]
        rfl
      · rw [getElem?_eq_none (not_lt.mp hi),
          getElem?_eq_none (h.length ▸ not_lt.mp hi)]

/-- Rules about an entry that everyone may read. -/
def publicRule (right : String) : ACLRuleData :=
  ⟨ascii "cn=public", ascii "*", ascii "base", [ascii right], [], false⟩

/-- A node with one rule that may only be searched. -/
def searchNode : Manager :=
  ⟨⟨ascii "deny", [⟨ascii "cn=public", .base, ascii "*", Right.search, [], false⟩]⟩, 0⟩

def updateLog : List LoggedCommand :=
  [(.updateRule, ⟨[], [], some (publicRule "read"), 0, 1⟩),
    (.setDefault, ⟨ascii "allow", [], none, 0, 2⟩)]

def updatedNode : Manager :=
  ⟨⟨ascii "allow", [⟨ascii "cn=public", .base, ascii "*", Right.read, [], false⟩]⟩, 2⟩

/-- A replicated rule may be without rights, but no file with it can be read. -/
example : ruleDataToACL { publicRule "read" with rights := [] } =
      .ok ⟨ascii "cn=public", .base, ascii "*", 0, [], false⟩ ∧
    Manager.restart id ⟨ascii "deny", [⟨ascii "cn=public", .base, ascii "*", 0, [], false⟩]⟩ [] =
      .error (.missingRights 0) := by
  decide +kernel

end Oba.Acl
