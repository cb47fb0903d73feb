import Oba.Storage.Entry

/-! # Access control

The rules of a configuration are tried in order, and the first one that applies to a request
decides it.
-/

namespace Oba.Acl

open Storage (Bytes Attributes ascii equalFold toLower)

/-- Rights are bit flags. -/
abbrev Right := Nat

namespace Right

def read : Right := 1
def write : Right := 2
def add : Right := 4
def delete : Right := 8
def search : Right := 16
def compare : Right := 32
def all : Right := read ||| write ||| add ||| delete ||| search ||| compare

def has (r other : Right) : Bool := r &&& other ≠ 0

end Right

/-- A scope of a rule; other numbers than those of the three scopes match nothing. -/
inductive Scope
  | base
  | one
  | subtree
  | unknown
  deriving DecidableEq, Repr

structure ACL where
  target : Bytes
  scope : Scope
  subject : Bytes
  rights : Right
  attributes : List Bytes
  deny : Bool
  deriving DecidableEq, Repr

def ACL.appliesToAttribute (rule : ACL) (attr : Bytes) : Bool :=
  rule.attributes = [] ∨ rule.attributes.any fun allowed => allowed = attr ∨ allowed = ascii "*"

structure Config where
  defaultPolicy : Bytes
  rules : List ACL
  deriving DecidableEq, Repr

def Config.isDefaultAllow (config : Config) : Bool := config.defaultPolicy = ascii "allow"

/-- An empty bind DN stands for an anonymous client. -/
structure AccessContext where
  bindDN : Bytes
  targetDN : Bytes
  operation : Right
  deriving DecidableEq, Repr

/-! ## Matching -/

/-- `strings.TrimSuffix` -/
def trimSuffix (s last : Bytes) : Bytes :=
  if last.isSuffixOf s then s.take (s.length - last.length) else s

/-- What stands before the parent has to be one component. -/
def isImmediateChild (parent target : Bytes) : Bool :=
  if parent = [] ∨ target = [] then false
  else if ¬ parent.isSuffixOf target then false
  else
    let first := trimSuffix target parent
    if first = [] then false
    else
      let first := trimSuffix first [44]
      if first = [] then false else 44 ∉ first

def isSubtreeMatch (base target : Bytes) : Bool :=
  if base = [] then true
  else if target = [] then false
  else target = base ∨ (44 :: base).isSuffixOf target

def matchesTarget (rule : ACL) (targetDN : Bytes) : Bool :=
  let ruleTarget := toLower rule.target
  let target := toLower targetDN
  if ruleTarget = ascii "*" then true
  else match rule.scope with
    | .base => target = ruleTarget
    | .one => isImmediateChild ruleTarget target
    | .subtree => isSubtreeMatch ruleTarget target
    | .unknown => false

/-- `strings.EqualFold` compares in lower case here. -/
def matchesSubject (rule : ACL) (bindDN targetDN : Bytes) : Bool :=
  let subject := toLower rule.subject
  if subject = ascii "anonymous" then bindDN = []
  else if subject = ascii "authenticated" then bindDN ≠ []
  else if subject = ascii "self" then bindDN ≠ [] ∧ equalFold bindDN targetDN
  else if subject = ascii "*" then true
  else toLower bindDN = subject

/-! ## Evaluation -/

namespace Config

section

variable (config : Config)

/-- The first rule that applies decides. -/
def firstMatch (applies : ACL → Bool) : Bool :=
  match config.rules.find? applies with
  | some rule => !rule.deny
  | none => config.isDefaultAllow

def checkAccess : Option AccessContext → Bool
  | none => config.isDefaultAllow
  | some ctx => config.firstMatch fun rule =>
    matchesTarget rule ctx.targetDN && matchesSubject rule ctx.bindDN ctx.targetDN &&
      Right.has rule.rights ctx.operation

def checkAttributeAccess (attr : Bytes) : Option AccessContext → Bool
  | none => config.isDefaultAllow
  | some ctx => config.firstMatch fun rule =>
    matchesTarget rule ctx.targetDN && matchesSubject rule ctx.bindDN ctx.targetDN &&
      rule.appliesToAttribute attr && Right.has rule.rights ctx.operation

/-- The attributes of an entry that the client of a request can read. -/
def filterAttributes (ctx : Option AccessContext) (entry : Storage.Entry) : Storage.Entry :=
  match ctx with
  | none => if config.isDefaultAllow then entry else ⟨entry.dn, ∅⟩
  | some ctx =>
    let readCtx : AccessContext := ⟨ctx.bindDN, entry.dn, Right.read⟩
    ⟨entry.dn, entry.attributes.filter fun attr _ =>
      config.checkAttributeAccess attr (some readCtx)⟩

def canRead (bindDN targetDN : Bytes) : Bool :=
  config.checkAccess (some ⟨bindDN, targetDN, Right.read⟩)

end

end Config

end Oba.Acl
