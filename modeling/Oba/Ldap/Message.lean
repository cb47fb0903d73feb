import Oba.Ber.Encoder

/-! # LDAP messages

The envelope of a message: its number, the operation as raw bytes, and the controls. Besides the
message, the parser gives the two decoders it has used.
-/

namespace Oba.Ldap

open Ber
open Storage (Bytes)

/-- A control. A value that is absent is an empty one. -/
structure Control where
  oid : Bytes
  criticality : Bool
  value : Bytes
  deriving DecidableEq, Repr

structure RawOperation where
  tag : Int
  data : Bytes
  deriving DecidableEq, Repr

structure LDAPMessage where
  messageID : Int
  operation : Option RawOperation
  controls : List Control
  deriving DecidableEq, Repr

inductive Error
  | none
  | emptyMessage
  | invalidMessageID
  | missingOperation
  | invalidOperation
  | invalidSearchScope
  | invalidDerefAliases
  | invalidFilter
  | invalidSubstringFilter
  | invalidModifyOperation
  | ber (cause : Ber.Error)
  | encode (cause : EncodeError)
  | parse (offset : Nat) (message : String) (cause : Error)
  deriving DecidableEq

abbrev Parse (α : Type) : Type := Scanner Decoder Error α

def minMessageID : Int := 0
def maxMessageID : Int := 2147483647

def contextTagControls : Nat := 0

def applicationUnbindRequest : Int := 2
def applicationDelRequest : Int := 10
def applicationAbandonRequest : Int := 16

/-- An error of the decoder as it is. -/
def plainly {α : Type} (p : Decode α) : Parse α := Scanner.mapError (fun _ err => .ber err) p

/-- An error of the decoder with the offset at which it happened. -/
def saying {α : Type} (message : String) (p : Decode α) : Parse α :=
  Scanner.mapError (fun d err => .parse d.offset message (.ber err)) p

/-! ## Parsing -/

/-- A field that is read if its tag comes next. -/
def optionalField {α : Type} (number : Nat) (message : String) (p : Decode α) (absent : α) :
    Parse α := do
  let d ← Scanner.here
  if 0 < d.remaining ∧ nextIs classUniversal number d then saying message p else return absent

/-- What `parseControl` reads from the contents of the SEQUENCE. Anything after the value is not
looked at. -/
def controlFields : Parse Control := do
  let oid ← saying "failed to read control OID" readOctetString
  let criticality ← optionalField tagBoolean "failed to read control criticality" readBoolean false
  let value ← optionalField tagOctetString "failed to read control value" readOctetString []
  return ⟨oid, criticality, value⟩

def parseControl : Parse Control := do
  let contents ← plainly readSequenceContents
  inside contents controlFields

/-- The decoder after a control that could not be read. -/
def giveUp (before after : Decoder) : Decoder :=
  { before with inner := after.elements ++ after.inner }

/-- The condition of the loop over a SEQUENCE of controls. -/
abbrev before (stop : Nat) (d : Decoder) : Bool := d.offset < stop ∧ 0 < d.remaining

/-- The steps of `parseControls` after the header of the field, from where the contents start. -/
def controlsContents (start : Decoder) : Parse (List Control) := do
  let tag ← plainly peekTag
  if tag.tagClass = classUniversal ∧ tag.number = tagSequence then
    let seqLength ← plainly expectSequence
    let d ← Scanner.here
    let seqEnd := d.offset + seqLength
    if 0 < d.remaining ∧ nextIs classUniversal tagOctetString d then
      -- the element is a control itself, and is read again
      let _ ← Scanner.restore start
      let ctrl ← parseControl
      let d ← Scanner.here
      let controls ← Scanner.attempts (fun d => 0 < d.remaining) parseControl giveUp d.remaining
      return ctrl :: controls
    else Scanner.many (before seqEnd) parseControl d.remaining
  else Scanner.fail (.parse start.offset "expected SEQUENCE for controls" .none)

def parseControls : Parse (List Control) := do
  let ctrlSeqLength ← plainly (expectContextTag contextTagControls)
  if ctrlSeqLength = 0 then return []
  else
    let start ← Scanner.here
    controlsContents start

/-- The number and the operation, with the end of the outer SEQUENCE. -/
def readEnvelope : Parse (LDAPMessage × Nat) := do
  let seqLength ← Scanner.mapError
    (fun _ err => .parse 0 "expected SEQUENCE for LDAPMessage" (.ber err)) expectSequence
  let d ← Scanner.here
  let seqContentEnd := d.offset + seqLength
  let msgID ← saying "failed to read messageID" readInteger
  if msgID < minMessageID ∨ msgID > maxMessageID then Scanner.fail .invalidMessageID
  else
    let opStart ← Scanner.here
    let tag ← Scanner.mapError
      (fun _ err => .parse opStart.offset "failed to read protocolOp tag" (.ber err)) readTag
    if tag.tagClass ≠ classApplication then
      Scanner.fail (.parse opStart.offset "protocolOp must have APPLICATION tag class"
        .invalidOperation)
    else
      let opLength ← saying "failed to read protocolOp length" readLength
      let opData ← saying "truncated protocolOp data"
        (readContents opStart.offset opLength fun _ => .unexpectedEOF)
      return (⟨msgID, some ⟨tag.number, opData⟩, []⟩, seqContentEnd)

/-- A message with the decoder of the envelope and the one of the controls. -/
structure Parsed where
  message : LDAPMessage
  decoder : Decoder
  controlsDecoder : Decoder

/-- The bytes between the operation and the end of the outer SEQUENCE. -/
def remainingData (data : Bytes) (opContentEnd seqContentEnd : Nat) : Bytes :=
  if opContentEnd < seqContentEnd then (data.take seqContentEnd).drop opContentEnd else []

def parseDecoders (data : Bytes) : Except Error Parsed :=
  if data.length = 0 then .error .emptyMessage
  else match readEnvelope (newBERDecoder data) with
    | (.error err, _) => .error err
    | (.ok (msg, seqContentEnd), decoder) =>
      let controlsDecoder := newBERDecoder (remainingData data decoder.offset seqContentEnd)
      if 0 < controlsDecoder.remaining ∧ isContextTag contextTagControls controlsDecoder then
        match parseControls controlsDecoder with
        | (.error err, _) => .error (.parse decoder.offset "failed to parse controls" err)
        | (.ok controls, controlsDecoder) => .ok ⟨{ msg with controls }, decoder, controlsDecoder⟩
      else .ok ⟨msg, decoder, controlsDecoder⟩

def parseLDAPMessage (data : Bytes) : Except Error LDAPMessage :=
  (parseDecoders data).map (·.message)

/-! ## Encoding -/

/-- Most operations are SEQUENCEs. -/
def isConstructedOperation (tag : Int) : Bool :=
  tag ≠ applicationUnbindRequest ∧ tag ≠ applicationAbandonRequest ∧ tag ≠ applicationDelRequest

/-- A part that is written under a condition. -/
def writeIf (present : Bool) (write : Bytes → Except EncodeError Bytes) (buf : Bytes) :
    Except EncodeError Bytes :=
  if present then write buf else .ok buf

def encodeControl (ctrl : Control) (buf : Bytes) : Except EncodeError Bytes := do
  let (seqPos, buf) := beginSequence buf
  let buf ← writeOctetString ctrl.oid buf
  let buf ← writeIf ctrl.criticality (writeBoolean true) buf
  let buf ← writeIf (0 < ctrl.value.length) (writeOctetString ctrl.value) buf
  fixupLength seqPos buf

def encodeControls (controls : List Control) (buf : Bytes) : Except EncodeError Bytes := do
  let (ctxPos, buf) := writeContextTag contextTagControls true buf
  let (seqPos, buf) := beginSequence buf
  let buf ← controls.foldlM (fun buf ctrl => encodeControl ctrl buf) buf
  let buf ← fixupLength seqPos buf
  fixupLength ctxPos buf

/-- The body of `Encode`, once the number and the operation have been checked. -/
def encodeBody (messageID : Int) (operation : RawOperation) (controls : List Control) :
    Except EncodeError Bytes := do
  let (seqPos, buf) := beginSequence []
  let buf ← writeInteger messageID buf
  let (appPos, buf) :=
    writeApplicationTag operation.tag (isConstructedOperation operation.tag) buf
  let buf ← fixupLength appPos (buf ++ operation.data)
  let buf ← writeIf (0 < controls.length) (encodeControls controls) buf
  fixupLength seqPos buf

def LDAPMessage.encode (m : LDAPMessage) : Except Error Bytes :=
  if m.messageID < minMessageID ∨ m.messageID > maxMessageID then .error .invalidMessageID
  else match m.operation with
    | none => .error .missingOperation
    | some operation => (encodeBody m.messageID operation m.controls).mapError .encode

end Oba.Ldap
