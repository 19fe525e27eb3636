import CellQuery.Json.Decode
import CellQuery.Text.Digits
import CellQuery.Wire.Basic

/-! # Wire values as JSON

    A wire value is a record with the fields `t` (the tag by name; by number,
    too, when it is read), `primitive` (null, or an object with the one field
    `u`, `b` or `raw`) and `children` (an array).

    * `Wire.json` writes all three fields in this order, without blanks.
    * `Wire.ofJson` reads a record; `primitive` and `children` may be missing,
      and fields with other names are passed over. -/

namespace CellQuery

namespace Primitive

/-- The text of a payload. -/
def json : Primitive → List Char
  | truth b => "\x7b\"b\":".toList ++ (if b then "true".toList else "false".toList) ++ ['}']
  | number n => "\x7b\"u\":".toList ++ Text.decimal n.toNat ++ ['}']
  | raw data =>
    "\x7b\"raw\":[".toList ++ Json.commaSeparated (data.map fun b => Text.decimal b.toNat)
      ++ [']', '}']

end Primitive

namespace Wire

/-! ### Writing -/

/-- The field `t`. -/
def tagField (tag : Tag) : List Char :=
  "\"t\":".toList ++ Json.quoted tag.name.toList

/-- The field `primitive`. -/
def primitiveField (primitive : Option Primitive) : List Char :=
  "\"primitive\":".toList ++
    match primitive with
    | none => "null".toList
    | some p => p.json

mutual

/-- The text of a wire value. -/
def json : Wire → List Char
  | ⟨tag, primitive, children⟩ =>
    '{' :: (tagField tag ++ ',' :: (primitiveField primitive ++ ",\"children\":[".toList
      ++ jsonItems children ++ [']', '}']))

/-- The texts of a list of wire values, separated by commas. -/
def jsonItems : List Wire → List Char
  | [] => []
  | w :: ws => json w ++ jsonAfter ws

/-- The texts of a list of wire values, each after a comma. -/
def jsonAfter : List Wire → List Char
  | [] => []
  | w :: ws => ',' :: (json w ++ jsonAfter ws)

end

/-! ### Reading -/

/-- A tag by name or number. -/
def tagOf : Json → Except DecodeError Tag
  | .string (some name) =>
    match Tag.ofName? name with
    | some tag => .ok tag
    | none => .error (.unknownTag (.name name))
  | .integer n =>
    match Tag.ofInteger? n with
    | some tag => .ok tag
    | none => .error (.unknownTag (.number n))
  | _ => .error .malformed

/-- A byte. -/
def byteOf : Json → Except DecodeError UInt8
  | .integer n => if 0 ≤ n ∧ n < 256 then .ok (UInt8.ofNat n.toNat) else .error .malformed
  | _ => .error .malformed

/-- A payload under its field. -/
def payloadOf (room : Nat) : Json.Key → Json → Except DecodeError Primitive
  | some "b", .bool b => .ok (.truth b)
  | some "u", .integer n =>
    if 0 ≤ n ∧ n < (UInt64.size : Int) then .ok (.number (UInt64.ofNat n.toNat)) else .error .malformed
  | some "raw", json => (Json.arrayOf room (fun _ => byteOf) json).map .raw
  | _, _ => .error .malformed

/-- Null, or an object with one payload. -/
def primitiveOf (room : Nat) : Json → Except DecodeError (Option Primitive)
  | .null => .ok none
  | .object [(key, json)] => do
    let room ← Json.enter room
    (payloadOf room key json).map some
  | _ => .error .malformed

/-- The names of the fields in order. -/
def fieldNames : List String := ["t", "primitive", "children"]

/-- The fields that have been read so far. -/
structure Draft where
  tag : Option Tag
  primitive : Option (Option Primitive)
  children : Option (List Wire)

namespace Draft

/-- No field yet. -/
def empty : Draft := ⟨none, none, none⟩

/-- The wire value, if the tag has been read. -/
def finish (draft : Draft) : Except DecodeError Wire := do
  let tag ← Json.required draft.tag
  .ok ⟨tag, draft.primitive.getD none, draft.children.getD []⟩

end Draft

mutual

/-- A wire value within the given limit of nested containers. -/
def ofJson (room : Nat) : Json → Except DecodeError Wire
  | .object fields => do
    let room ← Json.enter room
    let draft ← addFields room .empty fields
    draft.finish
  | .array items => do
    let room ← Json.enter room
    let draft ← addItems room .empty fieldNames items
    draft.finish
  | _ => .error .malformed

/-- The fields of an object, one after another. -/
def addFields (room : Nat) (draft : Draft) : List (Json.Key × Json) → Except DecodeError Draft
  | [] => .ok draft
  | (key, value) :: fields => do
    let draft ← addField room draft key value
    addFields room draft fields

/-- The items of an array, each for the next of the given names. -/
def addItems (room : Nat) (draft : Draft) : List String → List Json → Except DecodeError Draft
  | _, [] => .ok draft
  | [], _ :: _ => .error .malformed
  | name :: names, value :: items => do
    let draft ← addField room draft (some name) value
    addItems room draft names items

/-- One field: a known one is read once, another one is passed over. -/
def addField (room : Nat) (draft : Draft) (key : Json.Key) (value : Json) :
    Except DecodeError Draft :=
  if key = some "t" then do
    let tag ← Json.once draft.tag (tagOf value)
    .ok { draft with tag }
  else if key = some "primitive" then do
    let primitive ← Json.once draft.primitive (primitiveOf room value)
    .ok { draft with primitive }
  else if key = some "children" then
    match value with
    | .array items => do
      let children ← Json.once draft.children (Json.enter room >>= fun room => ofItems room items)
      .ok { draft with children }
    | _ => .error .malformed
  else if key.isSome && value.sound then .ok draft
  else .error .malformed

/-- The wire values of a list of items. -/
def ofItems (room : Nat) : List Json → Except DecodeError (List Wire)
  | [] => .ok []
  | j :: js => do
    let w ← ofJson room j
    let ws ← ofItems room js
    .ok (w :: ws)

end

end Wire

/-! ### Values -/

namespace Value

/-- The compact JSON text of a value. -/
def json (v : Value) : List Char :=
  (Wire.ofValue v).json

/-- A value: the whole wire value is read before its shape is checked. -/
def ofJson (room : Nat) (j : Json) : Except DecodeError Value := do
  let w ← Wire.ofJson room j
  match w.toValue with
  | .ok v => .ok v
  | .error e => .error (.shape e)

/-- The value of a JSON text. -/
def decodeJson (text : String) : Except DecodeError Value :=
  Json.decode ofJson text

end Value

end CellQuery
