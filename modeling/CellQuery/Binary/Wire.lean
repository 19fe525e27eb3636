import CellQuery.Binary.Varint
import CellQuery.Root

/-! # The binary format

    Fields are written one after another without names.

    * A wire value is its tag number, its payload and its children: the number
      of children, then each of them.
    * A payload is 0 if there is none; otherwise 1, then its kind (0 a truth
      value, 1 a number, 2 a byte string), then its content.
    * A call is its name, with its length in front, and its expression.
    * A root is the number of its calls, then each of them.

    Readers check a tag as soon as it is read, and the shape of an expression as
    soon as that expression is complete. -/

namespace CellQuery

open Binary

/-! ### Writing -/

/-- The bytes of a payload. -/
def Primitive.binary : Primitive → List UInt8
  | truth b => [0, if b then 1 else 0]
  | number n => 1 :: varint n.toNat
  | raw data => 2 :: (varint data.length ++ data)

/-- The bytes of a payload that may be missing. -/
def Primitive.binaryOption : Option Primitive → List UInt8
  | none => [0]
  | some p => 1 :: p.binary

namespace Wire

mutual

/-- The bytes of a wire value. -/
def binary : Wire → List UInt8
  | ⟨tag, primitive, children⟩ =>
    varint (zigzag tag.number.toInt) ++ Primitive.binaryOption primitive
      ++ varint children.length ++ binaryAll children

/-- The bytes of each wire value of a list. -/
def binaryAll : List Wire → List UInt8
  | [] => []
  | w :: ws => binary w ++ binaryAll ws

end

end Wire

/-- The bytes of a value. -/
def Value.binary (v : Value) : List UInt8 :=
  (Wire.ofValue v).binary

/-- The bytes of a call. -/
def Call.binary (call : Call) : List UInt8 :=
  let name := call.name.toUTF8.data.toList
  varint name.length ++ name ++ call.result.binary

/-- The bytes of a root. -/
def Root.binary (root : Root) : List UInt8 :=
  varint root.calls.length ++ root.calls.flatMap Call.binary

/-! ### Reading -/

namespace Binary

/-- A tag by its number. -/
def readTag : Reader Tag := do
  let n := unzigzag (← readVarint .word)
  match Tag.ofInteger? n with
  | some tag => return tag
  | none => Reader.fail (.unknownTag (.number n))

/-- A truth value. -/
def readBool : Reader Bool := do
  let b ← Reader.byte
  if b = 0 then return false
  else if b = 1 then return true
  else Reader.fail .badBool

/-- A payload. -/
def readPrimitive : Reader Primitive := do
  let kind ← readVarint .word
  match kind with
  | 0 => return .truth (← readBool)
  | 1 => return .number (UInt64.ofNat (← readVarint .long))
  | 2 => return .raw (← Reader.take (← readVarint .long))
  | _ => Reader.fail (.unknownPayload kind)

/-- A payload that may be missing. -/
def readPrimitiveOption : Reader (Option Primitive) := do
  let mark ← Reader.byte
  if mark = 0 then return none
  else if mark = 1 then return some (← readPrimitive)
  else Reader.fail .badOption

/-- A wire value that is nested at most as deep as the given number.  Every level
    takes bytes of its own, so the bytes have ended when the number has. -/
def readWireWithin : Nat → Reader Wire
  | 0 => Reader.fail .unexpectedEnd
  | depth + 1 => do
    let tag ← readTag
    let primitive ← readPrimitiveOption
    let count ← readVarint .long
    let children ← Reader.times (readWireWithin depth) count
    return ⟨tag, primitive, children⟩

/-- A wire value. -/
def readWire : Reader Wire :=
  fun bytes => readWireWithin bytes.length bytes

/-- A value: its shape is checked when the whole wire value has been read. -/
def readValue : Reader Value := do
  let w ← readWire
  match w.toValue with
  | .ok v => return v
  | .error e => Reader.fail (.shape e)

/-- A text, with the number of its bytes in front. -/
def readText : Reader String := do
  let bytes ← Reader.take (← readVarint .long)
  match String.fromUTF8? ⟨bytes.toArray⟩ with
  | some s => return s
  | none => Reader.fail .badText

/-- A call. -/
def readCall : Reader Call := do
  let name ← readText
  let result ← readValue
  return ⟨name, result⟩

/-- A root. -/
def readRoot : Reader Root := do
  let count ← readVarint .long
  return ⟨← Reader.times readCall count⟩

end Binary

/-- The value at the front of a byte string. -/
def Value.decodeBinary (bytes : List UInt8) : Except Binary.ReadError Value :=
  Binary.readValue.run bytes

/-- The root at the front of a byte string. -/
def Root.decodeBinary (bytes : List UInt8) : Except Binary.ReadError Root :=
  Binary.readRoot.run bytes

end CellQuery
