import CellQuery.Text.Digits
import CellQuery.Value.Basic

/-! # The text of a value

    A leaf is its tag's name with the payload in parentheses, `NIL` alone; a
    node is its tag's name with the children in parentheses, separated by a
    comma and a space: `CELL(UINT64(100), NIL, NIL, BYTES(0xab01))`. -/

namespace CellQuery.Value

/-- A truth value as `true` or `false`. -/
def boolChars (b : Bool) : List Char :=
  if b then ['t', 'r', 'u', 'e'] else ['f', 'a', 'l', 's', 'e']

/-- A tag's name in front of a text in parentheses. -/
def tagged (tag : Tag) (inside : List Char) : List Char :=
  tag.name.toList ++ '(' :: (inside ++ [')'])

mutual

/-- The characters of the text of a value. -/
def chars : Value → List Char
  | uint n => tagged .uint64 (Text.decimal n.toNat)
  | nil => Tag.nil.name.toList
  | bool b => tagged .bool (boolChars b)
  | bytes data => tagged .bytes ('0' :: 'x' :: Text.hex data)
  | arg i => tagged .arg (Text.decimal i.toNat)
  | param i => tagged .param (Text.decimal i.toNat)
  | node tag children => tagged tag (charsAll children)

/-- The texts of a list of values, separated by a comma and a space. -/
def charsAll : List Value → List Char
  | [] => []
  | v :: vs => v.chars ++ charsAfter vs

/-- The texts of a list of values, each after a comma and a space. -/
def charsAfter : List Value → List Char
  | [] => []
  | v :: vs => ',' :: ' ' :: (v.chars ++ charsAfter vs)

end

/-- The text of a value. -/
def text (v : Value) : String :=
  String.ofList v.chars

end CellQuery.Value
