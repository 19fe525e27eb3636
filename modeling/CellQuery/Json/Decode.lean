import CellQuery.Json.Tree
import CellQuery.Wire.Basic

/-! # Reading data out of a JSON tree

    What is common to all readers: the errors, the limit on nested containers,
    and records.  A record is an object with its fields in any order, or an
    array with them in the order of their declaration. -/

namespace CellQuery

/-- Why a JSON text does not hold what was asked for. -/
inductive DecodeError where
  /-- The text is not JSON, or holds data of another form. -/
  | malformed
  /-- A tag is not known. -/
  | unknownTag (e : UnknownTag)
  /-- A node has the wrong shape. -/
  | shape (e : ShapeError)
  deriving DecidableEq

namespace Json

/-- How many containers may be nested in one another. -/
def maxNesting : Nat := 127

/-- One container is entered; what is left of the limit. -/
def enter : Nat → Except DecodeError Nat
  | 0 => .error .malformed
  | room + 1 => .ok room

/-- The items of an array in the order of the fields that they stand for.  An
    item too many is a fault. -/
def named : List String → List Json → List (Key × Json)
  | _, [] => []
  | [], _ :: _ => [(none, broken)]
  | name :: names, item :: items => (some name, item) :: named names items

/-- The fields of a record, given the names of the fields in order. -/
def fields? (names : List String) : Json → Option (List (Key × Json))
  | object fields => some fields
  | array items => some (named names items)
  | _ => none

/-- All fields, one after another. -/
def addFields {α : Type} (add : α → Key → Json → Except DecodeError α) (draft : α) :
    List (Key × Json) → Except DecodeError α
  | [] => .ok draft
  | (key, value) :: fields =>
    match add draft key value with
    | .error e => .error e
    | .ok draft => addFields add draft fields

/-- A record, read field by field into a draft. -/
def record {α : Type} (names : List String) (room : Nat) (draft : α)
    (add : Nat → α → Key → Json → Except DecodeError α) (json : Json) : Except DecodeError α := do
  match json.fields? names with
  | none => .error .malformed
  | some fields =>
    let room ← enter room
    addFields (add room) draft fields

/-- Every item of a list, in order; the first fault wins. -/
def each {α : Type} (f : Json → Except DecodeError α) : List Json → Except DecodeError (List α)
  | [] => .ok []
  | j :: js =>
    match f j with
    | .error e => .error e
    | .ok a =>
      match each f js with
      | .error e => .error e
      | .ok as => .ok (a :: as)

/-- An array of items. -/
def arrayOf {α : Type} (room : Nat) (f : Nat → Json → Except DecodeError α) :
    Json → Except DecodeError (List α)
  | array items => do
    let room ← enter room
    each (f room) items
  | _ => .error .malformed

/-- A field that may be given once only. -/
def once {α : Type} (given : Option α) (value : Except DecodeError α) :
    Except DecodeError (Option α) :=
  match given with
  | some _ => .error .malformed
  | none => value.map some

/-- A field that must have been given. -/
def required {α : Type} : Option α → Except DecodeError α
  | some a => .ok a
  | none => .error .malformed

/-- A text. -/
def asText : Json → Except DecodeError String
  | string (some s) => .ok s
  | _ => .error .malformed

/-- A whole text, read by `f`; only blanks may follow the value. -/
def decode {α : Type} (f : Nat → Json → Except DecodeError α) (text : String) :
    Except DecodeError α := do
  let (json, rest) := ofText text.toList
  let a ← f maxNesting json
  if rest.isEmpty then .ok a else .error .malformed

end Json

end CellQuery
