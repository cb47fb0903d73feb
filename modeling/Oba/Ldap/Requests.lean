import Oba.Ldap.Message

/-! # Requests

Search, Add and Modify requests are read from the data of an operation. Lists of elements are read
by loops that go on while they are before the end of the element around them.
-/

namespace Oba.Ldap

open Ber
open Storage (Bytes)

/-! ## Reading -/

/-- The offset of the decoder. -/
def position : Parse Nat := fun d => (.ok d.offset, d)

/-- An error of the decoder with a given offset. -/
def sayingAt {α : Type} (offset : Nat) (message : String) (p : Decode α) : Parse α :=
  Scanner.mapError (fun _ err => .parse offset message (.ber err)) p

/-- `for more { p }`, where every step reads at least one byte. -/
def repeatWhile {α : Type} (more : Decoder → Bool) (p : Parse α) : Parse (List α) := fun d =>
  Scanner.many more p d.remaining d

/-- Walk through an element and read the elements that it is made of. -/
def elementsOf {α : Type} (expect : Parse Nat) (p : Parse α) : Parse (List α) := do
  let length ← expect
  let offset ← position
  repeatWhile (before (offset + length)) p

/-! ## Search requests -/

structure SubstringComponents where
  initial : Bytes
  any : List Bytes
  final : Bytes
  deriving DecidableEq, Repr

structure ExtensibleMatchComponents where
  matchingRule : Bytes
  type : Bytes
  matchValue : Bytes
  dnAttributes : Bool
  deriving DecidableEq, Repr

/-- The filters with an attribute and a value. -/
inductive Comparison
  | equality
  | greaterOrEqual
  | lessOrEqual
  | approxMatch
  deriving DecidableEq, Repr

inductive SearchFilter
  | and (children : List SearchFilter)
  | or (children : List SearchFilter)
  | not (child : SearchFilter)
  | comparison (type : Comparison) (attr value : Bytes)
  | substrings (attr : Bytes) (components : SubstringComponents)
  | present (attr : Bytes)
  | extensibleMatch (components : ExtensibleMatchComponents)

/-- One component of a substring filter, put to those before it. -/
def substringComponent : Parse (SubstringComponents → SubstringComponents) := do
  let (tagNum, _, value) ← saying "failed to read substring component" readTaggedValue
  let offset ← position
  match tagNum with
  | 0 => return fun components => { components with initial := value }
  | 1 => return fun components => { components with any := components.any ++ [value] }
  | 2 => return fun components => { components with final := value }
  | _ => Scanner.fail (.parse offset "unknown substring component tag" .invalidSubstringFilter)

/-- The loop of `parseSubstringFilter` looks at the offset only. -/
def substringComponents (length : Nat) : Parse SubstringComponents := do
  let offset ← position
  let components ← Scanner.many (fun d => d.offset < offset + length) substringComponent length
  return components.foldl (fun components put => put components) ⟨[], [], []⟩

def parseSubstringFilter : Parse SearchFilter := do
  let attr ← saying "failed to read substring attribute" readOctetString
  let subSeqLen ← saying "failed to read substrings sequence" expectSequence
  let components ← substringComponents subSeqLen
  return .substrings attr components

/-- One component of an extensible match. Others are passed over. -/
def extensibleComponent : Parse (ExtensibleMatchComponents → ExtensibleMatchComponents) := do
  let (tagNum, _, value) ← saying "failed to read extensible match component" readTaggedValue
  match tagNum with
  | 1 => return fun components => { components with matchingRule := value }
  | 2 => return fun components => { components with type := value }
  | 3 => return fun components => { components with matchValue := value }
  | 4 => return fun components =>
    { components with dnAttributes := components.dnAttributes || value.headD 0 ≠ 0 }
  | _ => return id

def parseExtensibleMatch : Parse SearchFilter := do
  let components ← repeatWhile (fun d => 0 < d.remaining) extensibleComponent
  return .extensibleMatch
    (components.foldl (fun components put => put components) ⟨[], [], [], false⟩)

/-- What a comparison holds. The offset of errors is that of the decoder around it. -/
def comparisonFields (type : Comparison) (offset : Nat) : Parse SearchFilter := do
  let attr ← sayingAt offset "failed to read filter attribute" readOctetString
  let value ← sayingAt offset "failed to read filter value" readOctetString
  return .comparison type attr value

/-- A filter that has to be of a form. -/
def demand (holds : Bool) (offset : Nat) (message : String) (p : Parse SearchFilter) :
    Parse SearchFilter :=
  if holds then p else Scanner.fail (.parse offset message .invalidFilter)

/-- A comparison, from a decoder of its own. -/
def comparisonFilter (type : Comparison) (offset : Nat) (constructed : Bool) (filterData : Bytes) :
    Parse SearchFilter :=
  demand constructed offset "comparison filter must be constructed"
    (inside filterData (comparisonFields type offset))

/-- The filters that a filter is made of. -/
def childFilters (child : Parse SearchFilter) : Parse (List SearchFilter) :=
  repeatWhile (fun d => 0 < d.remaining) child

/-- The `switch` of `parseSearchFilter` over the number of the tag. -/
def filterBody (child : Parse SearchFilter) (offset tagNum : Nat) (constructed : Bool)
    (filterData : Bytes) : Parse SearchFilter :=
  match tagNum with
  | 0 => demand constructed offset "AND/OR filter must be constructed" do
      let children ← inside filterData (childFilters child)
      return .and children
  | 1 => demand constructed offset "AND/OR filter must be constructed" do
      let children ← inside filterData (childFilters child)
      return .or children
  | 2 => demand constructed offset "NOT filter must be constructed" do
      let child ← inside filterData child
      return .not child
  | 3 => comparisonFilter .equality offset constructed filterData
  | 4 => demand constructed offset "substring filter must be constructed"
      (inside filterData parseSubstringFilter)
  | 5 => comparisonFilter .greaterOrEqual offset constructed filterData
  | 6 => comparisonFilter .lessOrEqual offset constructed filterData
  | 7 => demand (!constructed) offset "present filter must be primitive"
      (return .present filterData)
  | 8 => comparisonFilter .approxMatch offset constructed filterData
  | 9 => demand constructed offset "extensible match filter must be constructed"
      (inside filterData parseExtensibleMatch)
  | _ => Scanner.fail (.parse offset "unknown filter type" .invalidFilter)

/-- Filters that are nested up to a depth. -/
def parseFilterTo : Nat → Parse SearchFilter
  | 0 => Scanner.fail .invalidFilter
  | depth + 1 => do
    let (tagNum, constructed, filterData) ← plainly readTaggedValue
    let offset ← position
    filterBody (parseFilterTo depth) offset tagNum constructed filterData

/-- Every filter inside another one is shorter. -/
def parseSearchFilter : Parse SearchFilter := fun d => parseFilterTo (d.remaining + 1) d

structure SearchRequest where
  baseObject : Bytes
  scope : Int
  derefAliases : Int
  sizeLimit : Int
  timeLimit : Int
  typesOnly : Bool
  filter : SearchFilter
  attributes : List Bytes

/-- An ENUMERATED with a largest value. -/
def enumeratedTo (largest : Int) (message : String) (err : Error) : Parse Int := do
  let value ← saying message readEnumerated
  if value < 0 ∨ value > largest then Scanner.fail err else return value

def readSearchRequest : Parse SearchRequest := do
  let baseObject ← saying "failed to read baseObject" readOctetString
  let scope ← enumeratedTo 2 "failed to read scope" .invalidSearchScope
  let derefAliases ← enumeratedTo 3 "failed to read derefAliases" .invalidDerefAliases
  let sizeLimit ← saying "failed to read sizeLimit" readInteger
  let timeLimit ← saying "failed to read timeLimit" readInteger
  let typesOnly ← saying "failed to read typesOnly" readBoolean
  let filter ← Scanner.mapError (fun d err => .parse d.offset "failed to read filter" err)
    parseSearchFilter
  let attributes ← elementsOf (saying "failed to read attributes sequence" expectSequence)
    (saying "failed to read attribute" readOctetString)
  return ⟨baseObject, scope, derefAliases, sizeLimit, timeLimit, typesOnly, filter, attributes⟩

/-! ## Add and Modify requests -/

structure Attribute where
  type : Bytes
  values : List Bytes
  deriving DecidableEq, Repr

/-- The contents of an attribute. The offset of errors is that of the decoder around it. -/
def attributeFields (offset : Nat) : Parse Attribute := do
  let type ← sayingAt offset "failed to read attribute type" readOctetString
  let values ← elementsOf (sayingAt offset "failed to read attribute values set" expectSet)
    (sayingAt offset "failed to read attribute value" readOctetString)
  return ⟨type, values⟩

/-- `parseAttribute` and `parsePartialAttribute`, with the message for the SEQUENCE. -/
def attributeAfter (message : String) : Parse Attribute := do
  let contents ← saying message readSequenceContents
  let offset ← position
  inside contents (attributeFields offset)

def parseAttribute : Parse Attribute := attributeAfter "failed to read attribute sequence"

def parsePartialAttribute : Parse Attribute :=
  attributeAfter "failed to read partial attribute sequence"

structure AddRequest where
  entry : Bytes
  attributes : List Attribute
  deriving DecidableEq, Repr

def readAddRequest : Parse AddRequest := do
  let entry ← saying "failed to read entry DN" readOctetString
  let attributes ← elementsOf (saying "failed to read attributes sequence" expectSequence)
    parseAttribute
  return ⟨entry, attributes⟩

structure Modification where
  operation : Int
  attr : Attribute
  deriving DecidableEq, Repr

/-- The contents of a change. -/
def modificationFields (offset : Nat) : Parse Modification := do
  let operation ← sayingAt offset "failed to read operation" readEnumerated
  if operation < 0 ∨ operation > 2 then Scanner.fail .invalidModifyOperation
  else
    let attr ← parsePartialAttribute
    return ⟨operation, attr⟩

def parseModification : Parse Modification := do
  let contents ← saying "failed to read change sequence" readSequenceContents
  let offset ← position
  inside contents (modificationFields offset)

structure ModifyRequest where
  object : Bytes
  changes : List Modification
  deriving DecidableEq, Repr

def readModifyRequest : Parse ModifyRequest := do
  let object ← saying "failed to read object DN" readOctetString
  let changes ← elementsOf (saying "failed to read changes sequence" expectSequence)
    parseModification
  return ⟨object, changes⟩

/-! ## The three parsers -/

/-- A request of one of the three kinds. -/
inductive Request
  | search (request : SearchRequest)
  | add (request : AddRequest)
  | modify (request : ModifyRequest)

inductive RequestKind
  | search
  | add
  | modify
  deriving DecidableEq, Repr

/-- The kind of request, as the texts of errors have it. -/
def RequestKind.name : RequestKind → String
  | .search => "search"
  | .add => "add"
  | .modify => "modify"

def readRequest : RequestKind → Parse Request
  | .search => return .search (← readSearchRequest)
  | .add => return .add (← readAddRequest)
  | .modify => return .modify (← readModifyRequest)

/-- `ParseSearchRequest`, `ParseAddRequest` and `ParseModifyRequest`, with the decoder. -/
def parseRequest (kind : RequestKind) (data : Bytes) : Except Error Request × Decoder :=
  if data.length = 0 then
    (.error (.parse 0 ("empty " ++ kind.name ++ " request data") .none), newBERDecoder data)
  else readRequest kind (newBERDecoder data)

end Oba.Ldap
