import CellQuery.Eval.Basic
import CellQuery.Value.Text

/-! # A scripted host

    The host answers from fixed lists and follows a script for the requests that may
    fail.  It keeps no state: what it was asked is read off the events. -/

namespace CellQuery.Scripted

/-- How a request is answered. -/
inductive Reply where
  /-- It is granted. -/
  | grant
  /-- It is refused for a reason of the host. -/
  | refuse
  /-- It is refused with a limit on depth. -/
  | stack
  /-- It is refused with a limit on elements. -/
  | iterations
  deriving DecidableEq

/-- The host's own errors. -/
inductive Error where
  | refusedParameter (index : Nat)
  | noCellIndex
  deriving DecidableEq

/-- The text of an error. -/
def Error.message : Error → String
  | refusedParameter index => "host refused parameter " ++ toString index
  | noCellIndex => "cell index unavailable"

/-- What the host is given. -/
structure Script where
  args : List Value
  params : List Value
  cells : List Value
  /-- The reply to requests for a binding. -/
  bind : Reply
  /-- The reply to queries. -/
  query : Reply

/-- The refusal that a reply is, given the host's own error. -/
def Reply.refusal? (own : Error) : Reply → Option (Refusal Error)
  | grant => none
  | refuse => some (.own own)
  | stack => some (.limit (.stackOverflow 7 7))
  | iterations => some (.limit (.iterations .map 9))

/-- The host that follows a script. -/
def host (script : Script) : Host Unit Error where
  arg index s := (script.args[index]?, s)
  param index s := (script.params[index]?, s)
  bind index _ s :=
    match script.bind.refusal? (.refusedParameter index) with
    | some e => (.error e, s)
    | none => (.ok (), s)
  query _ :=
    match script.query.refusal? .noCellIndex with
    | some e => Run.fail e
    | none => pure script.cells

/-- How a request is written in a log. -/
def logLine? {ε : Type} : Event ε → Option String
  | .activation _ => none
  | .arg index => some ("arg(" ++ toString index ++ ")")
  | .param index => some ("param(" ++ toString index ++ ")")
  | .bind index value _ =>
    some ("index_param(" ++ toString index ++ ", " ++ value.text ++ ")")
  | .query query _ _ => some ("query_cell(" ++ query.text ++ ")")

/-- The log of a run: its requests to the host in order. -/
def log {ε : Type} (events : List (Event ε)) : List String :=
  (Event.requestsOf events).filterMap logLine?

end CellQuery.Scripted
