import Oba.Filters.Types
import Oba.Library.Greedy

/-! # The filter parser

`parser.go`: a filter is taken apart at its outer parentheses, and the parts of a list are found
by counting parentheses. A simple filter is split at the first operator of a fixed order of
operators, wherever that stands.
-/

namespace Oba.Filters

open Greedy (index)
open Storage (Bytes ascii trimSpace)

inductive FilterError
  | emptyFilter
  | invalidFilter
  | unbalancedParens
  | missingAttribute
  deriving DecidableEq, Repr

/-! ## Simple filters -/

/-- The first part is the initial component, the last one the final component; empty parts
between them are skipped. -/
def parseSubstringFilter (attr value : Bytes) : Filter :=
  let parts := value.splitOn 42
  .substring ⟨attr, parts.headD [], parts.tail.dropLast.filter (· ≠ []), parts.getLastD []⟩

/-- The text before an operator and the text behind it, if the operator does not come first. -/
def splitAtOperator (op s : Bytes) : Option (Bytes × Bytes) :=
  match index op s with
  | some (idx + 1) => some (trimSpace (s.take (idx + 1)), s.drop (idx + 1 + op.length))
  | _ => none

/-- A filter on an attribute, which has to have a name. -/
def named (attr : Bytes) (filter : Filter) : Except FilterError Filter :=
  if attr = [] then .error .missingAttribute else .ok filter

/-- What is read behind a single equals sign. -/
def readEquals (attr value : Bytes) : Filter :=
  if value = [42] then .present attr
  else if 42 ∈ value then parseSubstringFilter attr value
  else .equality attr value

def parseSimpleFilter (s : Bytes) : Except FilterError Filter :=
  match splitAtOperator (ascii ">=") s with
  | some (attr, value) => named attr (.greaterOrEqual attr value)
  | none =>
    match splitAtOperator (ascii "<=") s with
    | some (attr, value) => named attr (.lessOrEqual attr value)
    | none =>
      match splitAtOperator (ascii "~=") s with
      | some (attr, value) => named attr (.approxMatch attr value)
      | none =>
        match splitAtOperator (ascii "=") s with
        | some (attr, value) => named attr (readEquals attr value)
        | none => .error .invalidFilter

lemma named_eq_ok {attr : Bytes} {filter result : Filter} :
    named attr filter = .ok result ↔ attr ≠ [] ∧ filter = result := by
  unfold named
  split <;> simp_all

/-! ## Composite filters -/

/-- The position of the parenthesis that brings the depth back to zero. -/
def closing : Int → Bytes → Option Nat
  | _, [] => none
  | depth, c :: rest =>
    if c = 40 then (closing (depth + 1) rest).map (· + 1)
    else if c = 41 then
      if depth - 1 = 0 then some 0 else (closing (depth - 1) rest).map (· + 1)
    else (closing depth rest).map (· + 1)

/-- The filters of a list that is left, at most as many as the counter says. -/
def parseFilterLoop (parseFilter : Bytes → Except FilterError Filter) :
    Nat → Bytes → Except FilterError (List Filter)
  | _, [] => .ok []
  | 0, _ :: _ => .error .invalidFilter
  | n + 1, c :: s =>
    if c ≠ 40 then .error .invalidFilter
    else match closing 0 (c :: s) with
      | none => .error .unbalancedParens
      | some last =>
        match parseFilter ((c :: s).take (last + 1)) with
        | .error err => .error err
        | .ok filter =>
          (parseFilterLoop parseFilter n (trimSpace ((c :: s).drop (last + 1)))).map (filter :: ·)

/-- Every turn of the loop takes at least one byte. -/
def parseFilterList (parseFilter : Bytes → Except FilterError Filter) (s : Bytes) :
    Except FilterError (List Filter) :=
  parseFilterLoop parseFilter s.length (trimSpace s)

/-- An AND or OR filter of the filters in a list, of which there has to be one. -/
def parseComposite (make : List Filter → Filter) (children : Except FilterError (List Filter)) :
    Except FilterError Filter :=
  match children with
  | .error err => .error err
  | .ok children => if children = [] then .error .invalidFilter else .ok (make children)

/-- The filter without its outer parentheses. -/
def parseInner (parseFilter : Bytes → Except FilterError Filter) (inner : Bytes) :
    Except FilterError Filter :=
  match inner with
  | [] => .error .emptyFilter
  | c :: rest =>
    if c = 38 then parseComposite .and (parseFilterList parseFilter rest)
    else if c = 124 then parseComposite .or (parseFilterList parseFilter rest)
    else if c = 33 then (parseFilter (trimSpace rest)).map .not
    else parseSimpleFilter (c :: rest)

/-- A filter is read from fewer bytes than the one around it, so the first argument only has to
be larger than the length of the text. -/
def parseFilter : Nat → Bytes → Except FilterError Filter
  | 0, _ => .error .invalidFilter
  | fuel + 1, s =>
    let s := trimSpace s
    if s = [] then .error .emptyFilter
    else if s.head? = some 40 ∧ s.getLast? = some 41 then
      parseInner (parseFilter fuel) (s.drop 1).dropLast
    else if 40 ∈ s then .error .invalidFilter
    else parseInner (parseFilter fuel) s

def parse (filterStr : Bytes) : Except FilterError Filter :=
  let s := trimSpace filterStr
  if s = [] then .error .emptyFilter else parseFilter (s.length + 1) s

end Oba.Filters
