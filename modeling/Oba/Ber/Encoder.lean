import Mathlib.Data.Nat.Digits.Defs
import Oba.Ber.Decoder

/-! # The BER encoder

Elements that hold others are written before their length is known: four bytes are kept for the
length, and what has been written after them is moved when the element ends.
-/

namespace Oba.Ber

open Storage (Bytes)

inductive EncodeError
  | invalidTagClass
  | invalidTagNumber
  | lengthOverflow
  | negativeLength
  deriving DecidableEq, Repr

/-! ## Tags and lengths -/

/-- The digits in base 128, all but the last one with the continuation bit. -/
def writeBase128 (value : Int) (buf : Bytes) : Bytes :=
  if value = 0 then buf ++ [0]
  else match (Nat.digits 128 value.toNat).map UInt8.ofNat with
    | [] => buf
    | last :: more => buf ++ more.reverse.map (· ||| 0x80) ++ [last]

/-- The bytes of a tag. A number of at most 30 is put into the first byte as it is. -/
def writeTagBytes (tagClass constructed : Nat) (num : Int) (buf : Bytes) : Bytes :=
  let flags := UInt8.ofNat tagClass ||| UInt8.ofNat constructed
  if num ≤ 30 then buf ++ [flags ||| UInt8.ofInt num]
  else writeBase128 num (buf ++ [flags ||| 0x1F])

def writeTag (tagClass constructed : Nat) (number : Int) (buf : Bytes) : Except EncodeError Bytes :=
  if tagClass ∉ [0x00, 0x40, 0x80, 0xC0] then .error .invalidTagClass
  else if number < 0 then .error .invalidTagNumber
  else .ok (writeTagBytes tagClass constructed number buf)

def writeLength (length : Nat) (buf : Bytes) : Except EncodeError Bytes :=
  if length ≤ 127 then .ok (buf ++ [UInt8.ofNat length])
  else
    let numBytes := (Nat.digits 256 length).length
    if numBytes > 127 then .error .lengthOverflow
    else .ok (buf ++ [UInt8.ofNat (0x80 + numBytes)] ++
      (Nat.digits 256 length).reverse.map UInt8.ofNat)

/-! ## Values -/

def writeBoolean (v : Bool) (buf : Bytes) : Except EncodeError Bytes := do
  let buf ← writeTag classUniversal typePrimitive tagBoolean buf
  let buf ← writeLength 1 buf
  return buf ++ [if v then 0xFF else 0x00]

/-- A number of 64 bits in two's complement, without the leading bytes that only repeat the
sign. -/
def encodeInteger (v : Int) : Bytes :=
  if v = 0 then [0]
  else
    let uv := (v % 2 ^ 64).toNat
    let byteAt := fun i => UInt8.ofNat (uv / 256 ^ i)
    if v < 0 then
      let bytes := [7, 6, 5, 4, 3, 2, 1, 0].foldl (fun bytes i =>
        if bytes ≠ [] ∨ byteAt i ≠ 0xFF ∨ (0 < i ∧ byteAt (i - 1) < 128) then bytes ++ [byteAt i]
        else bytes) []
      let bytes := if bytes = [] then [0xFF] else bytes
      if bytes.headD 0 < 128 then 0xFF :: bytes else bytes
    else
      let bytes := [7, 6, 5, 4, 3, 2, 1, 0].foldl (fun bytes i =>
        if bytes ≠ [] ∨ byteAt i ≠ 0 then bytes ++ [byteAt i] else bytes) []
      if 128 ≤ bytes.headD 0 then 0 :: bytes else bytes

def writeInteger (v : Int) (buf : Bytes) : Except EncodeError Bytes := do
  let buf ← writeTag classUniversal typePrimitive tagInteger buf
  let encoded := encodeInteger v
  let buf ← writeLength encoded.length buf
  return buf ++ encoded

def writeOctetString (v : Bytes) (buf : Bytes) : Except EncodeError Bytes := do
  let buf ← writeTag classUniversal typePrimitive tagOctetString buf
  let buf ← writeLength v.length buf
  return buf ++ v

/-! ## Elements that hold others -/

/-- Keep four bytes for a length. The position is that of the first one. -/
def reserve (buf : Bytes) : Nat × Bytes := (buf.length, buf ++ [0, 0, 0, 0])

def beginSequence (buf : Bytes) : Nat × Bytes := reserve (buf ++ [0x30])

def writeContextTag (num : Int) (constructed : Bool) (buf : Bytes) : Nat × Bytes :=
  reserve (writeTagBytes classContextSpecific
    (if constructed then typeConstructed else typePrimitive)
    num buf)

def writeApplicationTag (num : Int) (constructed : Bool) (buf : Bytes) : Nat × Bytes :=
  reserve (writeTagBytes classApplication (if constructed then typeConstructed else typePrimitive)
    num buf)

/-- `copy(buf[start:], src)` where the source is not longer than what it overwrites. -/
def copyTo (buf : Bytes) (start : Nat) (src : Bytes) : Bytes :=
  buf.take start ++ src ++ buf.drop (start + src.length)

/-- Write the length of what comes after the four bytes at a position, and close the gap. -/
def fixupLength (pos : Nat) (buf : Bytes) : Except EncodeError Bytes :=
  if buf.length < pos + 4 then .error .negativeLength
  else
    let contentLength := buf.length - pos - 4
    let byteAt := fun i => UInt8.ofNat (contentLength / 256 ^ i)
    if contentLength ≤ 127 then
      let buf := buf.set pos (byteAt 0)
      let buf := copyTo buf (pos + 1) (buf.drop (pos + 4))
      .ok (buf.take (buf.length - 3))
    else if contentLength ≤ 0xFF then
      let buf := (buf.set pos 0x81).set (pos + 1) (byteAt 0)
      let buf := copyTo buf (pos + 2) (buf.drop (pos + 4))
      .ok (buf.take (buf.length - 2))
    else if contentLength ≤ 0xFFFF then
      let buf := ((buf.set pos 0x82).set (pos + 1) (byteAt 1)).set (pos + 2) (byteAt 0)
      let buf := copyTo buf (pos + 3) (buf.drop (pos + 4))
      .ok (buf.take (buf.length - 1))
    else if contentLength ≤ 0xFFFFFF then
      .ok ((((buf.set pos 0x83).set (pos + 1) (byteAt 2)).set (pos + 2) (byteAt 1)).set (pos + 3)
        (byteAt 0))
    else
      let buf := buf.set pos 0x84 ++ [0]
      let buf := copyTo buf (pos + 5) ((buf.take (buf.length - 1)).drop (pos + 4))
      .ok ((((buf.set (pos + 1) (byteAt 3)).set (pos + 2) (byteAt 2)).set (pos + 3)
        (byteAt 1)).set (pos + 4) (byteAt 0))

end Oba.Ber
