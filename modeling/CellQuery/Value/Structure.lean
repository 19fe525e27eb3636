import CellQuery.Text.Digits
import CellQuery.Value.Text

/-! # The structure of a value, spelled out

    For debugging a value is shown as the term that it is, with the payload of
    each leaf and the tag and children of each node by name.

    * `Value.structure` writes it on one line:
      `Node(Node { tag: Equal, children: [Param(0), Nil] })`.
    * `Value.outline` writes it over many lines with an indent of four for every
      bracket, and a comma after each item.

    Both show tags by name in mixed case: `GET_DATA_HASH` is `GetDataHash`. -/

namespace CellQuery

/-! ### Names in mixed case -/

/-- Lower case, but the first letter and each letter after an underscore keep
    their case; the underscores go. -/
def mixedCase : List Char → List Char :=
  go true
where
  /-- `start` says that a word starts here. -/
  go (start : Bool) : List Char → List Char
    | [] => []
    | c :: cs =>
      if c = '_' then go true cs
      else (if start then c else c.toLower) :: go false cs

/-- The name of a tag in mixed case. -/
def Tag.mixedName (tag : Tag) : List Char :=
  mixedCase tag.name.toList

namespace Value

/-! ### On one line -/

/-- A word in front of a text in parentheses. -/
def call (word inside : List Char) : List Char :=
  word ++ '(' :: (inside ++ [')'])

/-- Items in brackets, separated by a comma and a space. -/
def bracketed (items : List (List Char)) : List Char :=
  '[' :: (List.intercalate [',', ' '] items ++ [']'])

/-- The bytes of a string as numbers. -/
def byteItems (data : List UInt8) : List (List Char) :=
  data.map fun b => Text.decimal b.toNat

mutual

/-- The characters of the one-line form. -/
def structureChars : Value → List Char
  | uint n => call "Uint64".toList (Text.decimal n.toNat)
  | nil => "Nil".toList
  | bool b => call "Bool".toList (boolChars b)
  | bytes data => call "Bytes".toList (bracketed (byteItems data))
  | arg i => call "Arg".toList (Text.decimal i.toNat)
  | param i => call "Param".toList (Text.decimal i.toNat)
  | node tag children =>
    call "Node".toList
      ("Node \x7b tag: ".toList ++ tag.mixedName ++ ", children: ".toList
        ++ bracketed (structureItems children) ++ " \x7d".toList)

/-- The one-line forms of a list of values. -/
def structureItems : List Value → List (List Char)
  | [] => []
  | v :: vs => structureChars v :: structureItems vs

end

/-- The structure of a value on one line. -/
def structureText (v : Value) : String :=
  String.ofList v.structureChars

/-! ### Over many lines -/

/-- A line, and how many levels it is indented. -/
abbrev OutlineLine := Nat × List Char

/-- Every line one level further in. -/
def indented (lines : List OutlineLine) : List OutlineLine :=
  lines.map fun (level, line) => (level + 1, line)

/-- A text after the last line. -/
def closeLast (ending : List Char) : List OutlineLine → List OutlineLine
  | [] => []
  | [(level, line)] => [(level, line ++ ending)]
  | line :: lines => line :: closeLast ending lines

/-- An opening and a closing line around an item, with a comma after the item. -/
def enclosed (opening closing : List Char) (items : List (List OutlineLine)) :
    List OutlineLine :=
  match items with
  | [] => [(0, opening ++ closing)]
  | items =>
    (0, opening) :: (indented (items.flatMap (closeLast [','])) ++ [(0, closing)])

/-- A word with one item in parentheses. -/
def callOutline (word : List Char) (item : List OutlineLine) : List OutlineLine :=
  enclosed (word ++ ['(']) [')'] [item]

/-- A named field: its name goes in front of the first line of its value. -/
def fieldOutline (name : List Char) : List OutlineLine → List OutlineLine
  | [] => []
  | (level, line) :: lines => (level, name ++ ':' :: ' ' :: line) :: lines

/-- A single line. -/
def lineOutline (line : List Char) : List OutlineLine :=
  [(0, line)]

mutual

/-- The lines of the form over many lines. -/
def outline : Value → List OutlineLine
  | uint n => callOutline "Uint64".toList (lineOutline (Text.decimal n.toNat))
  | nil => lineOutline "Nil".toList
  | bool b => callOutline "Bool".toList (lineOutline (boolChars b))
  | bytes data =>
    callOutline "Bytes".toList (enclosed ['['] [']'] ((byteItems data).map lineOutline))
  | arg i => callOutline "Arg".toList (lineOutline (Text.decimal i.toNat))
  | param i => callOutline "Param".toList (lineOutline (Text.decimal i.toNat))
  | node tag children =>
    callOutline "Node".toList
      (enclosed "Node \x7b".toList ['}']
        [fieldOutline "tag".toList (lineOutline tag.mixedName),
         fieldOutline "children".toList (enclosed ['['] [']'] (outlineItems children))])

/-- The lines of each value of a list. -/
def outlineItems : List Value → List (List OutlineLine)
  | [] => []
  | v :: vs => outline v :: outlineItems vs

end

/-- The structure of a value over many lines; every line ends in a newline. -/
def outlineText (v : Value) : String :=
  String.ofList
    (v.outline.flatMap fun (level, line) => List.replicate (4 * level) ' ' ++ line ++ ['\n'])

end Value

end CellQuery
