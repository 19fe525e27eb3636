import CellQuery.Digest.Sha256
import CellQuery.Eval.Error
import CellQuery.Run

/-! # Operators on evaluated operands

    `compute` combines the operands of every operator but `EQUAL`, which may ask
    the host.  Each operator checks the number of its operands first, then their
    types from left to right.  Arithmetic is modulo 2^64. -/

namespace CellQuery

variable {ε : Type}

/-! ### Operands -/

namespace Operands

/-- The one operand. -/
def one (tag : Tag) : List Value → Outcome (EvalError ε) Value
  | [x] => .ok x
  | operands => .error (.arity tag (.exactly 1) operands.length)

/-- The two operands. -/
def two (tag : Tag) : List Value → Outcome (EvalError ε) (Value × Value)
  | [x, y] => .ok (x, y)
  | operands => .error (.arity tag (.exactly 2) operands.length)

/-- The three operands. -/
def three (tag : Tag) : List Value → Outcome (EvalError ε) (Value × Value × Value)
  | [x, y, z] => .ok (x, y, z)
  | operands => .error (.arity tag (.exactly 3) operands.length)

/-- The operand is a number. -/
def uint (tag : Tag) (v : Value) : Outcome (EvalError ε) UInt64 :=
  match v.asUInt? with
  | some n => .ok n
  | none => .error (.typeMismatch tag .uint64 v.tag)

/-- The operand is a truth value. -/
def bool (tag : Tag) (v : Value) : Outcome (EvalError ε) Bool :=
  match v.asBool? with
  | some b => .ok b
  | none => .error (.typeMismatch tag .bool v.tag)

/-- The operand is a byte string. -/
def bytes (tag : Tag) (v : Value) : Outcome (EvalError ε) (List UInt8) :=
  match v.asBytes? with
  | some data => .ok data
  | none => .error (.typeMismatch tag .bytes v.tag)

/-- The two operands are numbers. -/
def uints (tag : Tag) (operands : List Value) : Outcome (EvalError ε) (UInt64 × UInt64) := do
  let (x, y) ← two tag operands
  let x ← uint tag x
  let y ← uint tag y
  .ok (x, y)

end Operands

open Operands

/-! ### Operators -/

/-- Truth values up to the first that decides; those after it may be anything. -/
def foldBool (tag : Tag) (decisive : Bool) : List Value → Outcome (EvalError ε) Value
  | [] => .ok (.bool (!decisive))
  | x :: xs => do
    let b ← bool tag x
    if b = decisive then .ok (.bool decisive) else foldBool tag decisive xs

/-- `AND` and `OR` need an operand at least. -/
def junction (tag : Tag) (decisive : Bool) (operands : List Value) :
    Outcome (EvalError ε) Value :=
  match operands with
  | [] => .error (.arity tag (.atLeast 1) 0)
  | operands => foldBool tag decisive operands

/-- The length of a byte string, or the number of fields of a record. -/
def len (operands : List Value) : Outcome (EvalError ε) Value := do
  let x ← one .len operands
  match x with
  | .bytes data => .ok (.uint (UInt64.ofNat data.length))
  | .node tag children =>
    if tag.isRecord then .ok (.uint (UInt64.ofNat children.length))
    else .error (.typeMismatch .len .bytes tag)
  | x => .error (.typeMismatch .len .bytes x.tag)

/-- A byte of a byte string as a number, or a field of a record. -/
def index (operands : List Value) : Outcome (EvalError ε) Value := do
  let (target, position) ← two .index operands
  let position ← uint .index position
  match target with
  | .bytes data =>
    match data[position.toNat]? with
    | some b => .ok (.uint (UInt64.ofNat b.toNat))
    | none => .error (.outOfRange .index position data.length)
  | .node tag children =>
    if tag.isRecord then
      match children[position.toNat]? with
      | some v => .ok v
      | none => .error (.outOfRange .index position children.length)
    else .error (.typeMismatch .index .bytes tag)
  | target => .error (.typeMismatch .index .bytes target.tag)

/-- A bound of a slice as a position, at most the length. -/
def bound (n : UInt64) (len : Nat) : Outcome (EvalError ε) Nat :=
  if n.toNat ≤ len then .ok n.toNat else .error (.outOfRange .slice n len)

/-- The bytes between two positions, if they are in order and within the list. -/
def between? (data : List UInt8) (start stop : Nat) : Option (List UInt8) :=
  if start ≤ stop ∧ stop ≤ data.length then some ((data.take stop).drop start) else none

/-- The bytes from the first bound up to the second.  A first bound past the second
    counts as out of a range that the second one ends. -/
def slice (operands : List Value) : Outcome (EvalError ε) Value := do
  let (data, start, stop) ← three .slice operands
  let data ← bytes .slice data
  let start ← uint .slice start
  let stop ← uint .slice stop
  let first ← bound start data.length
  let last ← bound stop data.length
  -- Both bounds are within the data here; only their order is left to check.
  if last < first then .error (.outOfRange .slice start last)
  else
    let part ← Outcome.ofOption .sliceBounds (between? data first last)
    .ok (.bytes part)

/-- The result of an operator other than `EQUAL`. -/
def compute (tag : Tag) (operands : List Value) : Outcome (EvalError ε) Value :=
  match tag with
  | .plus => do
    let (x, y) ← uints .plus operands
    .ok (.uint (x + y))
  | .minus => do
    let (x, y) ← uints .minus operands
    .ok (.uint (x - y))
  | .less => do
    let (x, y) ← uints .less operands
    .ok (.bool (x < y))
  | .and => junction .and false operands
  | .or => junction .or true operands
  | .not => do
    let x ← one .not operands
    let b ← bool .not x
    .ok (.bool (!b))
  | .xor => do
    let (x, y) ← two .xor operands
    let a ← bool .xor x
    let b ← bool .xor y
    .ok (.bool (a != b))
  | .hash => do
    let x ← one .hash operands
    let data ← bytes .hash x
    .ok (.bytes (Digest.sha256 data))
  | .len => len operands
  | .index => index operands
  | .slice => slice operands
  | tag => .error (.unsupported tag .value)

end CellQuery
