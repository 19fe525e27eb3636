import CellQuery.Root
import CellQuery.Wire.Json

/-! # Roots as JSON

    A call is a record with the fields `name` and `result`, a root a record with
    the one field `calls`.  Each expression has its shape checked as soon as it
    has been read, before the text after it is looked at. -/

namespace CellQuery

namespace Call

/-! ### Writing -/

/-- The compact JSON text of a call. -/
def json (call : Call) : List Char :=
  "\x7b\"name\":".toList ++ Json.quoted call.name.toList ++ ",\"result\":".toList
    ++ call.result.json ++ ['}']

/-! ### Reading -/

/-- The fields of a call that have been read so far. -/
structure Draft where
  name : Option String
  result : Option Value

/-- One field of a call. -/
def addField (room : Nat) (draft : Draft) (key : Json.Key) (value : Json) :
    Except DecodeError Draft :=
  if key = some "name" then do
    let name ← Json.once draft.name value.asText
    .ok { draft with name }
  else if key = some "result" then do
    let result ← Json.once draft.result (Value.ofJson room value)
    .ok { draft with result }
  else if key.isSome && value.sound then .ok draft
  else .error .malformed

/-- A call; both fields are needed. -/
def ofJson (room : Nat) (j : Json) : Except DecodeError Call := do
  let draft ← Json.record ["name", "result"] room ⟨none, none⟩ addField j
  let name ← Json.required draft.name
  let result ← Json.required draft.result
  .ok ⟨name, result⟩

end Call

namespace Root

/-! ### Writing -/

/-- The compact JSON text of a root. -/
def json (root : Root) : List Char :=
  "\x7b\"calls\":[".toList ++ Json.commaSeparated (root.calls.map Call.json) ++ [']', '}']

/-! ### Reading -/

/-- One field of a root. -/
def addField (room : Nat) (draft : Option (List Call)) (key : Json.Key) (value : Json) :
    Except DecodeError (Option (List Call)) :=
  if key = some "calls" then Json.once draft (Json.arrayOf room Call.ofJson value)
  else if key.isSome && value.sound then .ok draft
  else .error .malformed

/-- A root; the calls are needed. -/
def ofJson (room : Nat) (j : Json) : Except DecodeError Root := do
  let draft ← Json.record ["calls"] room none addField j
  let calls ← Json.required draft
  .ok ⟨calls⟩

/-- The root of a JSON text. -/
def decodeJson (text : String) : Except DecodeError Root :=
  Json.decode ofJson text

end Root

end CellQuery
