import CellQuery.Json.Token

/-! # The tree of a JSON text

    `Json.read` turns tokens into a tree.  A text with a fault still has a tree:
    it holds what was read up to the fault, and `broken` where the fault is.
    Whoever walks the tree in the order of the text therefore meets the faults
    of the text and its own in the order in which they were written.

    The reader keeps the containers that are open as a list, innermost first,
    and takes one token at a time; the nesting of a text is not limited here. -/

namespace CellQuery

/-- A key of an object; `none` if its characters do not make a text. -/
abbrev Json.Key := Option String

/-- What was read from a JSON text. -/
inductive Json where
  /-- The text has a fault here. -/
  | broken
  | null
  | bool (b : Bool)
  /-- A whole number of 64 bits. -/
  | integer (n : Int)
  /-- Any other number. -/
  | decimal
  /-- A string, without its characters if they do not make a text. -/
  | string (s : Option String)
  | array (items : List Json)
  /-- The fields in the order in which they were written, repeated ones too. -/
  | object (fields : List (Json.Key × Json))

namespace Json

mutual

/-- The text had no fault within this tree. -/
def sound : Json → Bool
  | broken => false
  | array items => soundItems items
  | object fields => soundFields fields
  | _ => true

/-- The text had no fault within these items. -/
def soundItems : List Json → Bool
  | [] => true
  | j :: js => j.sound && soundItems js

/-- The text had no fault within these fields. -/
def soundFields : List (Key × Json) → Bool
  | [] => true
  | (_, j) :: fields => j.sound && soundFields fields

end

/-! ### The reader's state -/

/-- Where a value goes when it is complete: into a container with the items or
    fields read before it, last first. -/
inductive Place where
  | item (before : List Json)
  | field (before : List (Key × Json)) (key : Key)

/-- What may come next. -/
inductive Expected where
  /-- A value. -/
  | value
  /-- The first item of an array, or its end. -/
  | firstItem
  /-- A comma, or the end of the array. -/
  | afterItem (items : List Json)
  /-- The first key of an object, or its end. -/
  | firstKey
  /-- A key. -/
  | key (fields : List (Key × Json))
  /-- The colon after a key. -/
  | colon (fields : List (Key × Json)) (key : Key)
  /-- A comma, or the end of the object. -/
  | afterField (fields : List (Key × Json))

/-- What a token leads to. -/
inductive Move where
  /-- The reader goes on. -/
  | next (expected : Expected) (places : List Place)
  /-- The outermost value is complete. -/
  | done (value : Json)
  /-- The token cannot stand here. -/
  | stuck

/-! ### Steps -/

/-- A complete value goes to its place. -/
def deliver (value : Json) : List Place → Move
  | [] => .done value
  | .item before :: places => .next (.afterItem (value :: before)) places
  | .field before key :: places => .next (.afterField ((key, value) :: before)) places

/-- A token that starts a value. -/
def start (places : List Place) : Token → Move
  | .null => deliver null places
  | .bool b => deliver (bool b) places
  | .integer n => deliver (integer n) places
  | .decimal => deliver decimal places
  | .string s => deliver (string s) places
  | .openArray => .next .firstItem places
  | .openObject => .next .firstKey places
  | _ => .stuck

/-- One token. -/
def step : Expected → List Place → Token → Move
  | .value, places, token => start places token
  | .firstItem, places, .closeArray => deliver (array []) places
  | .firstItem, places, token => start (.item [] :: places) token
  | .afterItem items, places, .comma => .next .value (.item items :: places)
  | .afterItem items, places, .closeArray => deliver (array items.reverse) places
  | .firstKey, places, .closeObject => deliver (object []) places
  | .firstKey, places, .string s => .next (.colon [] s) places
  | .key fields, places, .string s => .next (.colon fields s) places
  | .colon fields key, places, .colon => .next .value (.field fields key :: places)
  | .afterField fields, places, .comma => .next (.key fields) places
  | .afterField fields, places, .closeObject => deliver (object fields.reverse) places
  | _, _, _ => .stuck

/-- The containers around an unfinished value, closed after it. -/
def closeAll (value : Json) : List Place → Json
  | [] => value
  | .item before :: places => closeAll (array (value :: before).reverse) places
  | .field before key :: places => closeAll (object ((key, value) :: before).reverse) places

/-- The tree of a text that has a fault where something else was expected. -/
def breakOff : Expected → List Place → Json
  | .value, places => closeAll broken places
  | .firstItem, places => closeAll (array [broken]) places
  | .afterItem items, places => closeAll (array (broken :: items).reverse) places
  | .firstKey, places => closeAll (object [(none, broken)]) places
  | .key fields, places => closeAll (object ((none, broken) :: fields).reverse) places
  | .colon fields key, places => closeAll (object ((key, broken) :: fields).reverse) places
  | .afterField fields, places => closeAll (object ((none, broken) :: fields).reverse) places

/-- The tree that starts with the given tokens, and the tokens after it. -/
def read (expected : Expected) (places : List Place) : List Token → Json × List Token
  | [] => (breakOff expected places, [])
  | token :: rest =>
    match step expected places token with
    | .next expected places => read expected places rest
    | .done value => (value, rest)
    | .stuck => (breakOff expected places, rest)

/-- The tree of a text, and the tokens that follow its value. -/
def ofText (text : List Char) : Json × List Token :=
  read .value [] (tokens text)

end Json

end CellQuery
