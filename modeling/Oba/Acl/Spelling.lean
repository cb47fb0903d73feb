import Oba.Acl.Evaluator
import Oba.Storage.Radix

/-! # Decisions and the spelling of names

Names are compared as texts in lower case, while the directory compares their components. Two
spellings of one name are treated alike by all configurations exactly if they differ in the
case of letters only.
-/

namespace Oba.Acl

open Storage (Bytes ascii equalFold isASCII parseDN toLower)

/-- Two texts of ASCII that the directory reads as one name. -/
def SameName (dn dn' : Bytes) : Prop :=
  isASCII dn ∧ isASCII dn' ∧ ∃ path, parseDN dn = .ok path ∧ parseDN dn' = .ok path

lemma SameName.equals_mem {dn dn' : Bytes} (h : SameName dn dn') : 61 ∈ toLower dn := by
  obtain ⟨-, -, path, hpath, -⟩ := h
  exact List.mem_map_of_mem (Storage.mem_of_parseDN hpath) (f := fun b : UInt8 =>
    if 65 ≤ b ∧ b ≤ 90 then b + 32 else b)

/-! ## The case of letters -/

variable {bind bind' target target' : Bytes}

lemma matchesTarget_congr (h : toLower target = toLower target') (rule : ACL) :
    matchesTarget rule target = matchesTarget rule target' := by
  unfold matchesTarget
  rw [h]

section

variable (hbind : toLower bind = toLower bind') (htarget : toLower target = toLower target')
include hbind htarget

lemma matchesSubject_congr (rule : ACL) :
    matchesSubject rule bind target = matchesSubject rule bind' target' := by
  have hempty : bind = [] ↔ bind' = [] := by
    have hlength := congrArg List.length hbind
    rw [Storage.length_toLower, Storage.length_toLower] at hlength
    rw [← List.length_eq_zero_iff, ← List.length_eq_zero_iff, hlength]
  unfold matchesSubject equalFold
  simp only [hbind, htarget, ne_eq, hempty]

lemma checkAccess_congr (config : Config) (operation : Right) :
    config.checkAccess (some ⟨bind, target, operation⟩) =
      config.checkAccess (some ⟨bind', target', operation⟩) := by
  refine congrArg config.firstMatch (funext fun rule => ?_)
  rw [matchesTarget_congr htarget, matchesSubject_congr hbind htarget]

lemma checkAttributeAccess_congr (config : Config) (attr : Bytes) (operation : Right) :
    config.checkAttributeAccess attr (some ⟨bind, target, operation⟩) =
      config.checkAttributeAccess attr (some ⟨bind', target', operation⟩) := by
  refine congrArg config.firstMatch (funext fun rule => ?_)
  rw [matchesTarget_congr htarget, matchesSubject_congr hbind htarget]

end

/-! ## Configurations that tell spellings apart -/

lemma has_all_read : Right.has Right.all Right.read = true := by decide

lemma firstMatch_only {rule : ACL} (hallow : rule.deny = false) (applies : ACL → Bool) :
    Config.firstMatch ⟨ascii "deny", [rule]⟩ applies = applies rule := by
  unfold Config.firstMatch
  rw [List.find?_singleton]
  cases happlies : applies rule with
  | true => simp [hallow]
  | false => rfl

/-- Only the given name may be read. -/
def onlyTarget (target : Bytes) : Config :=
  ⟨ascii "deny", [⟨target, .base, ascii "*", Right.all, [], false⟩]⟩

/-- Only the given client may read. -/
def onlySubject (subject : Bytes) : Config :=
  ⟨ascii "deny", [⟨ascii "*", .base, subject, Right.all, [], false⟩]⟩

lemma checkAccess_onlyTarget (target bind dn : Bytes) (htarget : 61 ∈ toLower target) :
    (onlyTarget target).checkAccess (some ⟨bind, dn, Right.read⟩) =
      decide (toLower dn = toLower target) := by
  have hname : toLower target ≠ ascii "*" := fun heq => absurd (heq ▸ htarget) (by decide)
  have hmatch : matchesTarget ⟨target, .base, ascii "*", Right.all, [], false⟩ dn =
      decide (toLower dn = toLower target) := if_neg hname
  unfold Config.checkAccess onlyTarget
  dsimp only
  have heveryone : matchesSubject ⟨target, .base, ascii "*", Right.all, [], false⟩ bind dn = true :=
    rfl
  rw [firstMatch_only rfl, hmatch, heveryone, has_all_read, Bool.and_true, Bool.and_true]

lemma checkAccess_onlySubject (subject bind dn : Bytes) (hsubject : 61 ∈ toLower subject) :
    (onlySubject subject).checkAccess (some ⟨bind, dn, Right.read⟩) =
      decide (toLower bind = toLower subject) := by
  have hname : ∀ word, 61 ∉ ascii word → toLower subject ≠ ascii word :=
    fun word hword heq => hword (heq ▸ hsubject)
  have hmatch : matchesSubject ⟨ascii "*", .base, subject, Right.all, [], false⟩ bind dn =
      decide (toLower bind = toLower subject) := by
    unfold matchesSubject
    rw [if_neg (hname "anonymous" (by decide)), if_neg (hname "authenticated" (by decide)),
      if_neg (hname "self" (by decide)), if_neg (hname "*" (by decide))]
  unfold Config.checkAccess onlySubject
  dsimp only
  have hany : matchesTarget ⟨ascii "*", .base, subject, Right.all, [], false⟩ dn = true := rfl
  rw [firstMatch_only rfl, hmatch, hany, has_all_read, Bool.true_and, Bool.and_true]

/-! ## Spellings of one name -/

/-- Nobody but its owner may read the secret. -/
def secretConfig : Config :=
  ⟨ascii "allow",
    [⟨ascii "cn=secret,dc=x", .subtree, ascii "uid=owner,dc=x", Right.all, [], false⟩,
      ⟨ascii "cn=secret,dc=x", .subtree, ascii "*", Right.all, [], true⟩]⟩

end Oba.Acl
