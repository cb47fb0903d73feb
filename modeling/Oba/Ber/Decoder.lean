import Oba.Library.Scanner
import Oba.Storage.Entry

/-! # The BER decoder

An element is a tag, a length and as many bytes of contents. The decoder reads elements at an
offset of its data. Some functions read an element as a whole; others only check its tag and leave
the decoder at the beginning of its contents, for the caller to walk through.

The decoder here keeps a history beside what the program has: the elements that were read, each
with the declared end of the element around it.
-/

namespace Oba.Ber

open Storage (Bytes)

inductive Error
  | none
  | unexpectedEOF
  | invalidLength
  | indefiniteLength
  | invalidBoolean
  | invalidInteger
  | decode (offset : Nat) (message : String) (cause : Error)
  | tagMismatch (offset expectedClass : Nat) (expectedNumber : Int)
      (actualClass actualNumber actualConstructed : Nat)
  deriving DecidableEq, Repr

/-! ## Tags -/

def classUniversal : Nat := 0x00
def classApplication : Nat := 0x40
def classContextSpecific : Nat := 0x80
def typePrimitive : Nat := 0x00
def typeConstructed : Nat := 0x20
def tagBoolean : Nat := 0x01
def tagInteger : Nat := 0x02
def tagOctetString : Nat := 0x04
def tagEnumerated : Nat := 0x0A
def tagSequence : Nat := 0x10
def tagSet : Nat := 0x11

structure Tag where
  tagClass : Nat
  constructed : Nat
  number : Nat
  deriving DecidableEq, Repr

/-! ## The decoder -/

/-- An element that was read, at offsets of the data of its decoder: where it starts, where its
contents start and where they are declared to end, and the declared end of the element around it.
The contents of an element that is walked are read from the same decoder. -/
structure Element where
  start : Nat
  contents : Nat
  stop : Nat
  bound : Nat
  walked : Bool
  deriving DecidableEq, Repr

/-- A decoder. The history is the declared end of the element that is walked, the elements that
were read, and the elements that decoders of parts of the data have read. The program never sets
`cut`: a decoder with it reads no further than the element that is walked. -/
structure Decoder where
  data : Bytes
  offset : Nat
  bound : Nat
  elements : List Element
  inner : List Element
  cut : Bool
  deriving DecidableEq

abbrev Decode (α : Type) : Type := Scanner Decoder Error α

def newBERDecoder (data : Bytes) : Decoder := ⟨data, 0, data.length, [], [], false⟩

namespace Decoder

section

variable (d : Decoder)

def remaining : Nat := d.data.length - d.offset

/-- The bytes that are left. -/
def rest : Bytes := d.data.drop d.offset

def advance (count : Nat) : Decoder := { d with offset := d.offset + count }

/-- Read over the contents of an element with the given start. -/
def consume (start length : Nat) : Decoder :=
  { d with
    offset := d.offset + length
    elements := d.elements ++ [⟨start, d.offset, d.offset + length, d.bound, false⟩] }

/-- Begin to walk through the contents of an element with the given start. -/
def walk (start length : Nat) : Decoder :=
  { d with
    data := if d.cut then d.data.take (d.offset + length) else d.data
    bound := d.offset + length
    elements := d.elements ++ [⟨start, d.offset, d.offset + length, d.bound, true⟩] }

/-- A decoder of its own for some bytes. -/
def sub (bytes : Bytes) : Decoder := { newBERDecoder bytes with cut := d.cut }

/-- Keep what a decoder of a part has read. -/
def absorb (part : Decoder) : Decoder :=
  { d with inner := d.inner ++ part.elements ++ part.inner }

end

end Decoder

/-- Read contents from a decoder of their own. -/
def inside {ε α : Type} (contents : Bytes) (p : Scanner Decoder ε α) : Scanner Decoder ε α :=
  fun d =>
    let (result, part) := p (d.sub contents)
    (result, d.absorb part)

/-! ## Tags and lengths -/

/-- `readBase128`, from the byte at the offset on. -/
def readBase128 : Bytes → Nat → Nat → Except Error Nat × Nat
  | [], _, offset => (.error .unexpectedEOF, offset)
  | b :: rest, result, offset =>
    if result > 2 ^ 24 then (.error (.decode offset "tag number overflow" .none), offset + 1)
    else
      let result := result * 128 + b.toNat % 128
      if b < 128 then (.ok result, offset + 1) else readBase128 rest result (offset + 1)

def readTag : Decode Tag := fun d =>
  match d.rest with
  | [] => (.error (.decode d.offset "cannot read tag" .unexpectedEOF), d)
  | firstByte :: rest =>
    let tag := Tag.mk (firstByte &&& 0xC0).toNat (firstByte &&& 0x20).toNat
    if (firstByte &&& 0x1F).toNat = 0x1F then
      match readBase128 rest 0 (d.offset + 1) with
      | (.ok number, offset) => (.ok (tag number), { d with offset })
      | (.error err, offset) =>
        (.error (.decode d.offset "cannot read long form tag number" err), { d with offset })
    else (.ok (tag (firstByte &&& 0x1F).toNat), d.advance 1)

/-- The loop of `ReadLength` over the bytes of the length, with the number of bytes it has read. -/
def lengthLoop : Bytes → Nat → Nat → Option Nat × Nat
  | [], length, read => (some length, read)
  | b :: rest, length, read =>
    if length > 2 ^ 24 then (none, read) else lengthLoop rest (length * 256 + b.toNat) (read + 1)

def readLength : Decode Nat := fun d =>
  match d.rest with
  | [] => (.error (.decode d.offset "cannot read length" .unexpectedEOF), d)
  | firstByte :: rest =>
    if firstByte < 128 then (.ok firstByte.toNat, d.advance 1)
    else
      let numBytes := firstByte.toNat % 128
      if numBytes = 0 then
        (.error (.decode d.offset "indefinite length encoding" .indefiniteLength), d.advance 1)
      else if rest.length < numBytes then
        (.error (.decode d.offset "truncated length encoding" .unexpectedEOF), d.advance 1)
      else match lengthLoop (rest.take numBytes) 0 0 with
        | (some length, read) => (.ok length, d.advance (1 + read))
        | (none, read) =>
          (.error (.decode d.offset "length value overflow" .invalidLength), d.advance (1 + read))

def peekTag : Decode Tag := fun d => ((readTag d).1, d)

/-- Whether the next tag is there and is of the given class and number. -/
def nextIs (tagClass number : Nat) (d : Decoder) : Bool :=
  match (peekTag d).1 with
  | .error _ => false
  | .ok tag => tag.tagClass = tagClass ∧ tag.number = number

def isContextTag (num : Nat) (d : Decoder) : Bool := nextIs classContextSpecific num d

/-! ## Elements -/

/-- Read a tag that has to be as expected. -/
def expectTag (accepts : Tag → Bool) (expectedClass : Nat) (expectedNumber : Int) : Decode Tag := do
  let start ← Scanner.here
  let tag ← readTag
  if accepts tag then return tag
  else Scanner.fail (.tagMismatch start.offset expectedClass expectedNumber tag.tagClass tag.number
    tag.constructed)

def primitive (tagClass number : Nat) (tag : Tag) : Bool :=
  tag.tagClass = tagClass ∧ tag.constructed = typePrimitive ∧ tag.number = number

def constructed (tagClass number : Nat) (tag : Tag) : Bool :=
  tag.tagClass = tagClass ∧ tag.constructed = typeConstructed ∧ tag.number = number

def either (tagClass number : Nat) (tag : Tag) : Bool :=
  tag.tagClass = tagClass ∧ tag.number = number

/-- The contents of the element that starts at an offset. -/
def readContents (start length : Nat) (err : Decoder → Error) : Decode Bytes := fun d =>
  if d.data.length < d.offset + length then (.error (err d), d)
  else (.ok (d.rest.take length), d.consume start length)

def readBoolean : Decode Bool := do
  let start ← Scanner.here
  let _ ← expectTag (primitive classUniversal tagBoolean) classUniversal tagBoolean
  let length ← readLength
  if length ≠ 1 then
    Scanner.fail (.decode start.offset "boolean must have length 1" .invalidBoolean)
  else
    let value ← readContents start.offset 1 fun d =>
      .decode d.offset "cannot read boolean value" .unexpectedEOF
    return value ≠ [0]

/-- The number in two's complement. -/
def decodeInteger : Bytes → Int
  | [] => 0
  | firstByte :: rest =>
    let first : Int := if firstByte < 128 then firstByte.toNat else firstByte.toNat - 256
    rest.foldl (fun result b => result * 256 + b.toNat) first

/-- Numbers of at most eight bytes; the texts of the errors have the name of the type. -/
def readNumber (tagNumber : Nat) (name : String) : Decode Int := do
  let start ← Scanner.here
  let _ ← expectTag (primitive classUniversal tagNumber) classUniversal tagNumber
  let length ← readLength
  if length = 0 then
    Scanner.fail (.decode start.offset (name ++ " must have at least 1 byte") .invalidInteger)
  else if length > 8 then
    Scanner.fail (.decode start.offset (name ++ " too large for int64") .invalidInteger)
  else
    let value ← readContents start.offset length fun d =>
      .decode d.offset ("truncated " ++ name ++ " value") .unexpectedEOF
    return decodeInteger value

def readInteger : Decode Int := readNumber tagInteger "integer"

def readEnumerated : Decode Int := readNumber tagEnumerated "enumerated"

def readOctetString : Decode Bytes := do
  let start ← Scanner.here
  let tag ← expectTag (either classUniversal tagOctetString) classUniversal tagOctetString
  if tag.constructed ≠ typePrimitive then
    Scanner.fail (.decode start.offset "constructed octet string not supported" .none)
  else
    let length ← readLength
    readContents start.offset length fun d =>
      .decode d.offset "truncated octet string value" .unexpectedEOF

/-- The number of the tag, whether it is constructed, and the contents. -/
def readTaggedValue : Decode (Nat × Bool × Bytes) := do
  let start ← Scanner.here
  let tag ← expectTag (·.tagClass = classContextSpecific) classContextSpecific (-1)
  let length ← readLength
  let value ← readContents start.offset length fun d =>
    .decode d.offset "truncated tagged value" .unexpectedEOF
  return (tag.number, tag.constructed = typeConstructed, value)

/-- The header of an element whose contents the data has: its start and its length. -/
def readHeader (accepts : Tag → Bool) (expectedClass expectedNumber : Nat) (message : String) :
    Decode (Nat × Nat) := do
  let start ← Scanner.here
  let _ ← expectTag accepts expectedClass expectedNumber
  let length ← readLength
  let d ← Scanner.here
  if d.data.length < d.offset + length then
    Scanner.fail (.decode start.offset message .unexpectedEOF)
  else return (start.offset, length)

/-- Read a header and walk through the contents. -/
def expectElement (accepts : Tag → Bool) (expectedClass expectedNumber : Nat) (message : String) :
    Decode Nat := do
  let (start, length) ← readHeader accepts expectedClass expectedNumber message
  fun d => (.ok length, d.walk start length)

def expectSequence : Decode Nat :=
  expectElement (constructed classUniversal tagSequence) classUniversal tagSequence
    "truncated sequence content"

def expectSet : Decode Nat :=
  expectElement (constructed classUniversal tagSet) classUniversal tagSet "truncated set content"

def expectContextTag (num : Nat) : Decode Nat :=
  expectElement (either classContextSpecific num) classContextSpecific num
    "truncated context-tagged content"

/-- The contents of a SEQUENCE, for a decoder of their own. -/
def readSequenceContents : Decode Bytes := do
  let (start, length) ← readHeader (constructed classUniversal tagSequence) classUniversal
    tagSequence "truncated sequence content"
  fun d => (.ok (d.rest.take length), d.consume start length)

end Oba.Ber
