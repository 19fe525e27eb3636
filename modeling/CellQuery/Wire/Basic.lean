import CellQuery.Value.Basic

/-! # Wire values

    Both encodings carry a value as a wire value: a tag, at most one primitive
    payload and a list of children.  Not every wire value is the image of a
    value; the shape check finds the first node, parents before children and
    children from left to right, that no value has.

    * `Wire.ofValue` writes a value as a wire value.
    * `Wire.toValue` checks the shape and reads the value back. -/

namespace CellQuery

/-- The kinds of payload. -/
inductive PayloadKind where
  | truth
  | number
  | raw
  deriving DecidableEq

/-- The field under which a payload of the kind is written. -/
def PayloadKind.field : PayloadKind → String
  | truth => "b"
  | number => "u"
  | raw => "raw"

/-- A payload. -/
inductive Primitive where
  | truth (b : Bool)
  | number (n : UInt64)
  | raw (data : List UInt8)
  deriving DecidableEq

/-- A tag, at most one payload and children, in any combination. -/
structure Wire where
  tag : Tag
  primitive : Option Primitive
  children : List Wire

/-- What can be wrong with the shape of a node. -/
inductive ShapeError where
  /-- The tag needs a payload and has none. -/
  | missingPayload (tag : Tag) (expected : PayloadKind)
  /-- The tag cannot carry the payload that it has. -/
  | unexpectedPayload (tag : Tag)
  /-- The tag is that of a leaf, yet there are children. -/
  | leafWithChildren (tag : Tag) (count : Nat)
  deriving DecidableEq

/-- The text of a shape error. -/
def ShapeError.message : ShapeError → String
  | missingPayload tag expected =>
    tag.name ++ " requires a " ++ expected.field ++ " payload"
  | unexpectedPayload tag => tag.name ++ " cannot carry this primitive payload"
  | leafWithChildren tag count =>
    tag.name ++ " is a leaf and cannot have " ++ toString count ++ " children"

/-- The kind of payload that a tag needs. -/
def Tag.payload? : Tag → Option PayloadKind
  | uint64 | arg | param => some .number
  | bool => some .truth
  | bytes => some .raw
  | _ => none

namespace Wire

/-! ### From values -/

mutual

/-- The wire value of a value. -/
def ofValue : Value → Wire
  | .uint n => ⟨.uint64, some (.number n), []⟩
  | .nil => ⟨.nil, none, []⟩
  | .bool b => ⟨.bool, some (.truth b), []⟩
  | .bytes data => ⟨.bytes, some (.raw data), []⟩
  | .arg i => ⟨.arg, some (.number i), []⟩
  | .param i => ⟨.param, some (.number i), []⟩
  | .node tag children => ⟨tag, none, ofValues children⟩

/-- The wire values of a list of values. -/
def ofValues : List Value → List Wire
  | [] => []
  | v :: vs => ofValue v :: ofValues vs

end

/-! ### To values -/

/-- The leaf with the given tag and payload, if the tag can carry it. -/
def leaf? : Tag → Primitive → Option Value
  | .uint64, .number n => some (.uint n)
  | .bool, .truth b => some (.bool b)
  | .bytes, .raw data => some (.bytes data)
  | .arg, .number i => some (.arg i)
  | .param, .number i => some (.param i)
  | _, _ => none

mutual

/-- The value of a wire value.  At one node, children below a leaf come before
    faults of the payload, and those before faults of the children. -/
def toValue : Wire → Except ShapeError Value
  | ⟨tag, primitive, children⟩ =>
    if tag.isLeaf && !children.isEmpty then
      .error (.leafWithChildren tag children.length)
    else
      match primitive with
      | some p =>
        match leaf? tag p with
        | some v => .ok v
        | none => .error (.unexpectedPayload tag)
      | none =>
        -- Without a payload the tag must be that of `NIL` or of a node.
        match tag.payload? with
        | some kind => .error (.missingPayload tag kind)
        | none =>
          if tag = .nil then .ok .nil
          else
            match toValues children with
            | .ok vs => .ok (.node tag vs)
            | .error e => .error e

/-- The values of a list of wire values; the first fault wins. -/
def toValues : List Wire → Except ShapeError (List Value)
  | [] => .ok []
  | w :: ws =>
    match toValue w with
    | .error e => .error e
    | .ok v =>
      match toValues ws with
      | .error e => .error e
      | .ok vs => .ok (v :: vs)

end

end Wire

end CellQuery
