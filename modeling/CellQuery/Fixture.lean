import CellQuery.Host.Memory
import CellQuery.Root.Json

/-! # Fixtures

    A fixture is a root together with the data of a host in memory.  It is a record
    with the fields `args`, `params`, `cells` and `root`, of which all but the root
    may be missing; other fields are not accepted.  A parameter that is null is
    declared without a value. -/

namespace CellQuery

/-- A root, and what a host needs to serve it. -/
structure Fixture where
  args : List Value
  params : List (Option Value)
  cells : List Value
  root : Root

namespace Fixture

/-! ### Reading -/

/-- The fields that have been read so far. -/
structure Draft where
  args : Option (List Value)
  params : Option (List (Option Value))
  cells : Option (List Value)
  root : Option Root

/-- A parameter, or null. -/
def slotOf (room : Nat) : Json → Except DecodeError (Option Value)
  | .null => .ok none
  | json => (Value.ofJson room json).map some

/-- One field. -/
def addField (room : Nat) (draft : Draft) (key : Json.Key) (value : Json) :
    Except DecodeError Draft :=
  if key = some "args" then do
    let args ← Json.once draft.args (Json.arrayOf room Value.ofJson value)
    .ok { draft with args }
  else if key = some "params" then do
    let params ← Json.once draft.params (Json.arrayOf room slotOf value)
    .ok { draft with params }
  else if key = some "cells" then do
    let cells ← Json.once draft.cells (Json.arrayOf room Value.ofJson value)
    .ok { draft with cells }
  else if key = some "root" then do
    let root ← Json.once draft.root (Root.ofJson room value)
    .ok { draft with root }
  else .error .malformed

/-- A fixture. -/
def ofJson (room : Nat) (j : Json) : Except DecodeError Fixture := do
  let draft ← Json.record ["args", "params", "cells", "root"] room ⟨none, none, none, none⟩
    addField j
  let root ← Json.required draft.root
  .ok ⟨draft.args.getD [], draft.params.getD [], draft.cells.getD [], root⟩

/-- The fixture of a JSON text. -/
def decodeJson (text : String) : Except DecodeError Fixture :=
  Json.decode ofJson text

/-! ### Serving -/

/-- What the host of a fixture is given, under the given limits for predicates. -/
def data (fixture : Fixture) (limits : Limits) : Memory.Data :=
  ⟨fixture.args, fixture.cells, limits⟩

/-- The host's state at the beginning. -/
def state (fixture : Fixture) : Memory.State :=
  .fresh fixture.params

end Fixture

end CellQuery
