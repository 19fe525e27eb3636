import CellQuery.Digest.Sha256
import CellQuery.Eval.Error
import CellQuery.Run

/-! # Reading fields of records

    A `GET_…` tag reads one field of a record.  `NIL` has every field, and each of
    them is `NIL`.  Otherwise the kind of the record is checked, then the number
    of its fields, before the field is read. -/

namespace CellQuery

/-- Where a field is found. -/
structure Field where
  /-- The tag of the record. -/
  record : Tag
  /-- How many fields the record has. -/
  arity : Nat
  /-- The position of the field. -/
  position : Nat

/-- The field that a tag reads; `GET_OUT_POINT` has none. -/
def Tag.field? : Tag → Option Field
  | getCapacity => some ⟨.cell, 4, 0⟩
  | getLock => some ⟨.cell, 4, 1⟩
  | getType => some ⟨.cell, 4, 2⟩
  | getData => some ⟨.cell, 4, 3⟩
  | getDataHash => some ⟨.cell, 4, 3⟩
  | getCodeHash => some ⟨.script, 3, 0⟩
  | getHashType => some ⟨.script, 3, 1⟩
  | getArgs => some ⟨.script, 3, 2⟩
  | _ => none

variable {ε : Type}

/-- The digest of a byte string that may be missing. -/
def dataHash : Value → Outcome (EvalError ε) Value
  | .nil => .ok .nil
  | .bytes data => .ok (.bytes (Digest.sha256 data))
  | v => .error (.typeMismatch .getDataHash .bytes v.tag)

/-- The field of a record that a tag reads. -/
def project (tag : Tag) (record : Value) : Outcome (EvalError ε) Value :=
  if record.isNil then .ok .nil
  else
    match tag.field? with
    | none => .error (.unsupported tag .value)
    | some field =>
      if record.tag = field.record then
        if record.children.length = field.arity then do
          let value ← Outcome.ofOption .fieldPosition record.children[field.position]?
          if tag = .getDataHash then dataHash value else .ok value
        else .error (.arity tag (.exactly field.arity) record.children.length)
      else .error (.typeMismatch tag field.record record.tag)

end CellQuery
