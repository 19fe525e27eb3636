/-! # Tags: the kinds of node

    Every node of a query carries a tag.  A tag has a 32-bit wire number and an
    upper-case wire name.  The numbers are sparse: the gaps between blocks are
    left for later kinds, so whatever classifies a tag compares its number with
    the tag at the border of a block.

    * `Tag.all` lists the tags in the order of their numbers.
    * `Tag.ofNumber?` finds a number in that list by bisection.
    * `Tag.ofInteger?` takes any integer and refuses what is not 32 bits wide.
    * `Tag.ofName?` finds a name.
    * `Tag.nodeClass` tells how the evaluator treats a node with the tag. -/

namespace CellQuery

/-- The kind of a node. -/
inductive Tag where
  /-- A 64-bit unsigned number. -/
  | uint64
  /-- The absent value. -/
  | nil
  /-- A truth value. -/
  | bool
  /-- A byte string. -/
  | bytes
  /-- A positional argument. -/
  | arg
  /-- A parameter of the caller. -/
  | param
  /-- Record: a reference to the output of a transaction. -/
  | outPoint
  /-- Record: a dependency on a cell. -/
  | cellDep
  /-- Record: a script. -/
  | script
  /-- Record: a cell. -/
  | cell
  /-- Record: a transaction. -/
  | transaction
  /-- A body applied to arguments. -/
  | apply
  /-- A list folded into one value. -/
  | reduce
  /-- A list of given elements. -/
  | list
  /-- The cells that the host finds. -/
  | queryCells
  /-- A list with a body applied to each element. -/
  | map
  /-- The elements of a list that satisfy a predicate. -/
  | filter
  | getCapacity
  | getData
  | getLock
  | getType
  | getDataHash
  | getOutPoint
  | getCodeHash
  | getHashType
  | getArgs
  | hash
  | not
  | and
  | or
  | xor
  | equal
  | less
  | len
  | slice
  | index
  | plus
  | minus
  deriving DecidableEq

namespace Tag

/-! ### Numbers and names -/

/-- The wire number. -/
def number : Tag → Int32
  | uint64 => 0
  | nil => 1
  | bool => 2
  | bytes => 3
  | arg => 16
  | param => 17
  | outPoint => 18
  | cellDep => 19
  | script => 20
  | cell => 21
  | transaction => 22
  | apply => 23
  | reduce => 24
  | list => 25
  | queryCells => 26
  | map => 27
  | filter => 28
  | getCapacity => 48
  | getData => 49
  | getLock => 50
  | getType => 51
  | getDataHash => 52
  | getOutPoint => 53
  | getCodeHash => 54
  | getHashType => 55
  | getArgs => 56
  | hash => 73
  | not => 74
  | and => 75
  | or => 76
  | xor => 77
  | equal => 78
  | less => 79
  | len => 80
  | slice => 81
  | index => 82
  | plus => 83
  | minus => 84

/-- The wire name. -/
def name : Tag → String
  | uint64 => "UINT64"
  | nil => "NIL"
  | bool => "BOOL"
  | bytes => "BYTES"
  | arg => "ARG"
  | param => "PARAM"
  | outPoint => "OUT_POINT"
  | cellDep => "CELL_DEP"
  | script => "SCRIPT"
  | cell => "CELL"
  | transaction => "TRANSACTION"
  | apply => "APPLY"
  | reduce => "REDUCE"
  | list => "LIST"
  | queryCells => "QUERY_CELLS"
  | map => "MAP"
  | filter => "FILTER"
  | getCapacity => "GET_CAPACITY"
  | getData => "GET_DATA"
  | getLock => "GET_LOCK"
  | getType => "GET_TYPE"
  | getDataHash => "GET_DATA_HASH"
  | getOutPoint => "GET_OUT_POINT"
  | getCodeHash => "GET_CODE_HASH"
  | getHashType => "GET_HASH_TYPE"
  | getArgs => "GET_ARGS"
  | hash => "HASH"
  | not => "NOT"
  | and => "AND"
  | or => "OR"
  | xor => "XOR"
  | equal => "EQUAL"
  | less => "LESS"
  | len => "LEN"
  | slice => "SLICE"
  | index => "INDEX"
  | plus => "PLUS"
  | minus => "MINUS"

/-- Every tag, in the order of the wire numbers. -/
def all : List Tag :=
  [uint64, nil, bool, bytes,
   arg, param,
   outPoint, cellDep, script, cell, transaction,
   apply, reduce,
   list, queryCells, map, filter,
   getCapacity, getData, getLock, getType, getDataHash, getOutPoint, getCodeHash, getHashType,
   getArgs,
   hash, not, and, or, xor, equal, less, len, slice, index, plus, minus]

/-- Tags are ordered by their wire numbers. -/
instance : Ord Tag where
  compare a b := compare a.number.toInt b.number.toInt

/-! ### Looking tags up -/

/-- The tags as a table with constant-time access. -/
def table : Array Tag := all.toArray

/-- Bisection between the positions `low` and `high` (exclusive) of the table. -/
def search (target : Int32) (low high : Nat) : Option Tag :=
  if low < high then
    let middle := low + (high - low) / 2
    match table[middle]? with
    | none => none
    | some tag =>
      if tag.number = target then some tag
      else if tag.number < target then search target (middle + 1) high
      else search target low middle
  else none
termination_by high - low

/-- The tag with the given wire number. -/
def ofNumber? (number : Int32) : Option Tag :=
  search number 0 table.size

/-- An integer as a 32-bit number, if it fits. -/
def narrow? (n : Int) : Option Int32 :=
  if -2147483648 ≤ n ∧ n ≤ 2147483647 then some (Int32.ofInt n) else none

/-- The tag with the given wire number; no integer wraps around to one. -/
def ofInteger? (n : Int) : Option Tag :=
  (narrow? n).bind ofNumber?

/-- The tag with the given wire name. -/
def ofName? (name : String) : Option Tag :=
  all.find? (·.name = name)

/-! ### Classes -/

/-- How the evaluator treats a node. -/
inductive NodeClass where
  /-- Evaluates to itself. -/
  | primitive
  /-- Every child is evaluated, then the results are combined. -/
  | operator
  /-- One operand is evaluated, then a field of it is read. -/
  | structuralGet
  /-- Has an order of evaluation of its own. -/
  | controlForm
  deriving DecidableEq

/-- The tag evaluates to itself. -/
def isPrimitive (tag : Tag) : Bool :=
  tag.number < arg.number

/-- The tag combines operands. -/
def isOperator (tag : Tag) : Bool :=
  hash.number ≤ tag.number

/-- The tag reads a field. -/
def isStructuralGet (tag : Tag) : Bool :=
  getCapacity.number ≤ tag.number && tag.number < hash.number

/-- The tag makes sense only where a list is expected. -/
def isListForm (tag : Tag) : Bool :=
  list.number ≤ tag.number && tag.number ≤ filter.number

/-- The tag is that of a record. -/
def isRecord (tag : Tag) : Bool :=
  outPoint.number ≤ tag.number && tag.number ≤ transaction.number

/-- The class of a tag. -/
def nodeClass (tag : Tag) : NodeClass :=
  if tag.isPrimitive then .primitive
  else if tag.isOperator then .operator
  else if tag.isStructuralGet then .structuralGet
  else .controlForm

/-- A node with the tag carries a scalar instead of children. -/
def hasPayload : Tag → Bool
  | uint64 | bool | bytes | arg | param => true
  | _ => false

/-- A node with the tag has no children: the payload tags and `NIL`. -/
def isLeaf (tag : Tag) : Bool :=
  tag.hasPayload || tag = nil

end Tag

/-! ### Unknown tags -/

/-- A number or a name that belongs to no tag. -/
inductive UnknownTag where
  | number (n : Int)
  | name (s : String)
  deriving DecidableEq

/-- The text of an unknown tag; a number is given as it was written. -/
def UnknownTag.message : UnknownTag → String
  | .number n => "unknown value type number " ++ toString n
  | .name s => "unknown value type name `" ++ s ++ "`"

end CellQuery
