import CellQuery.Tag

/-! # Values

    A value is a query expression and also what a query yields.  Leaves carry
    their payload; every other value is a node: a tag with a list of children,
    which are the fields of a record or the operands of an expression.

    * `Value.WellFormed` says that no node has the tag of a leaf.
    * `Value.node?` and the builders after it make well-formed values only. -/

namespace CellQuery

/-- An expression, or the result of one. -/
inductive Value where
  /-- A number. -/
  | uint (n : UInt64)
  /-- The absent value. -/
  | nil
  /-- A truth value. -/
  | bool (b : Bool)
  /-- A byte string. -/
  | bytes (data : List UInt8)
  /-- A positional argument, counted from the innermost binder. -/
  | arg (index : UInt64)
  /-- A parameter of the caller, or the placeholder of one that has no value yet. -/
  | param (index : UInt64)
  /-- A tag with children. -/
  | node (tag : Tag) (children : List Value)

namespace Value

/-! ### Parts of a value -/

/-- The tag of a value. -/
def tag : Value → Tag
  | uint _ => .uint64
  | nil => .nil
  | bool _ => .bool
  | bytes _ => .bytes
  | arg _ => .arg
  | param _ => .param
  | node tag _ => tag

/-- The children of a node; leaves have none. -/
def children : Value → List Value
  | node _ children => children
  | _ => []

/-- The number that a value is. -/
def asUInt? : Value → Option UInt64
  | uint n => some n
  | _ => none

/-- The truth value that a value is. -/
def asBool? : Value → Option Bool
  | bool b => some b
  | _ => none

/-- The byte string that a value is. -/
def asBytes? : Value → Option (List UInt8)
  | bytes data => some data
  | _ => none

/-- The value is the absent one. -/
def isNil : Value → Bool
  | nil => true
  | _ => false

/-- The value is a parameter. -/
def isParam : Value → Bool
  | param _ => true
  | _ => false

/-! ### Well-formed values -/

mutual

/-- No node of the value has the tag of a leaf. -/
def WellFormed : Value → Prop
  | node tag children => tag.isLeaf = false ∧ AllWellFormed children
  | _ => True

/-- Every value of the list is well formed. -/
def AllWellFormed : List Value → Prop
  | [] => True
  | v :: vs => v.WellFormed ∧ AllWellFormed vs

end

/-! ### Structural equality -/

mutual

/-- Same tag, payload and children. -/
def same : Value → Value → Bool
  | uint a, uint b => a == b
  | nil, nil => true
  | bool a, bool b => a == b
  | bytes a, bytes b => a == b
  | arg a, arg b => a == b
  | param a, param b => a == b
  | node t cs, node u ds => t == u && sameAll cs ds
  | _, _ => false

/-- Equal lengths, and the same values place by place. -/
def sameAll : List Value → List Value → Bool
  | [], [] => true
  | v :: vs, w :: ws => v.same w && sameAll vs ws
  | _, _ => false

end

mutual

theorem eq_of_same : ∀ {v w : Value}, v.same w = true → v = w
  | uint _, w, h => by cases w <;> simp_all [same]
  | nil, w, h => by cases w <;> simp_all [same]
  | bool _, w, h => by cases w <;> simp_all [same]
  | bytes _, w, h => by cases w <;> simp_all [same]
  | arg _, w, h => by cases w <;> simp_all [same]
  | param _, w, h => by cases w <;> simp_all [same]
  | node t cs, w, h => by
    cases w with
    | node u ds =>
      simp only [same, Bool.and_eq_true, beq_iff_eq] at h
      rw [h.1, eq_of_sameAll h.2]
    | _ => simp [same] at h

theorem eq_of_sameAll : ∀ {vs ws : List Value}, sameAll vs ws = true → vs = ws
  | [], ws, h => by cases ws <;> simp_all [sameAll]
  | v :: vs, ws, h => by
    cases ws with
    | nil => simp [sameAll] at h
    | cons w ws =>
      simp only [sameAll, Bool.and_eq_true] at h
      rw [eq_of_same h.1, eq_of_sameAll h.2]

end

mutual

theorem same_self : ∀ v : Value, v.same v = true
  | uint _ => by simp [same]
  | nil => by simp [same]
  | bool _ => by simp [same]
  | bytes _ => by simp [same]
  | arg _ => by simp [same]
  | param _ => by simp [same]
  | node _ cs => by simp [same, sameAll_self cs]

theorem sameAll_self : ∀ vs : List Value, sameAll vs vs = true
  | [] => by simp [sameAll]
  | v :: vs => by simp [sameAll, same_self v, sameAll_self vs]

end

instance : DecidableEq Value := fun v w =>
  if h : v.same w = true then isTrue (eq_of_same h)
  else isFalse fun e => h (e ▸ same_self v)

/-! ### Builders -/

/-- The tag of a leaf, used where a node was to be built. -/
structure PayloadTag where
  tag : Tag

/-- The text of the refusal. -/
def PayloadTag.message (e : PayloadTag) : String :=
  e.tag.name ++ " carries a primitive payload and cannot be built as a compound node"

/-- A node, unless the tag is that of a leaf. -/
def node? (tag : Tag) (children : List Value) : Except PayloadTag Value :=
  if tag.isLeaf then .error ⟨tag⟩ else .ok (node tag children)

/-- `CELL` with its four fields. -/
def cell (capacity lock type data : Value) : Value :=
  node .cell [capacity, lock, type, data]

/-- `SCRIPT` with its three fields. -/
def script (codeHash hashType args : Value) : Value :=
  node .script [codeHash, hashType, args]

/-- `OUT_POINT` with its two fields. -/
def outPoint (txHash index : Value) : Value :=
  node .outPoint [txHash, index]

/-- `CELL_DEP` with its two fields. -/
def cellDep (outPoint depType : Value) : Value :=
  node .cellDep [outPoint, depType]

/-- `TRANSACTION` with any fields. -/
def transaction (fields : List Value) : Value :=
  node .transaction fields

/-- `APPLY(body, args…)`. -/
def apply (body : Value) (args : List Value) : Value :=
  node .apply (body :: args)

/-- `REDUCE(body, start, list)`. -/
def reduce (body start list : Value) : Value :=
  node .reduce [body, start, list]

/-- `MAP(body, list)`. -/
def map (body list : Value) : Value :=
  node .map [body, list]

/-- `FILTER(predicate, list)`. -/
def filter (predicate list : Value) : Value :=
  node .filter [predicate, list]

/-- `LIST(elements…)`. -/
def list (elements : List Value) : Value :=
  node .list elements

/-- `QUERY_CELLS(predicate)`. -/
def queryCells (predicate : Value) : Value :=
  node .queryCells [predicate]

/-- `QUERY_CELLS()`: every cell of the host. -/
def queryAllCells : Value :=
  node .queryCells []

/-- A field read from a record, unless the tag is that of a leaf. -/
def get? (field : Tag) (record : Value) : Except PayloadTag Value :=
  node? field [record]

end Value

end CellQuery
