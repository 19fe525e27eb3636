import CellQuery.Eval.Basic
import CellQuery.Value.Height
import CellQuery.Value.Text

/-! # A host in memory

    The host holds arguments, parameters and cells.  A parameter that was declared
    without a value is solved on the way: the first `EQUAL` that compares it gives
    it its value.

    A query with a predicate is answered by evaluating the predicate on every cell,
    in a fresh evaluator whose only scope is the cell.  What a predicate solves is
    forgotten after each cell.

    Predicates may hold queries.  All the evaluators that are then at work share the
    one limit on depth: the height of the outermost predicate bounds the whole
    chain, and the host keeps count of how much of it is in use. -/

namespace CellQuery

/-! ### Parameters -/

/-- A declared parameter. -/
inductive Slot where
  /-- Declared with a value. -/
  | supplied (v : Value)
  /-- Declared without a value, and not solved. -/
  | unbound
  /-- Declared without a value, and solved. -/
  | solved (v : Value)
  deriving DecidableEq

namespace Slot

/-- The value of a parameter. -/
def value? : Slot → Option Value
  | supplied v => some v
  | unbound => none
  | solved v => some v

/-- The value that was found for a parameter, if one was. -/
def solution? : Slot → Option Value
  | solved v => some v
  | _ => none

/-- The parameter as it was declared. -/
def reset : Slot → Slot
  | solved _ => unbound
  | slot => slot

/-- The parameter as a caller declares it. -/
def declared : Option Value → Slot
  | some v => supplied v
  | none => unbound

end Slot

namespace Memory

/-! ### Errors -/

/-- Why the host refuses a request. -/
inductive Error where
  /-- The parameter is not declared. -/
  | unknownParam (index declared : Nat)
  /-- The parameter has another value. -/
  | conflict (index : Nat) (bound requested : Value)
  /-- A query has more than one predicate. -/
  | malformedQuery (children : Nat)
  /-- A predicate yields something other than a truth value. -/
  | nonBoolPredicate (found : Tag)
  /-- A predicate fails on the cell at the given position. -/
  | predicate (cell : Nat) (source : EvalError Error)

namespace Error

/-- The text of a refusal. -/
def message : Error → String
  | unknownParam index declared =>
    "parameter " ++ toString index ++ " is not declared (only " ++ toString declared
      ++ " parameters)"
  | conflict index bound requested =>
    "parameter " ++ toString index ++ " is already " ++ bound.text ++ ", cannot bind it to "
      ++ requested.text
  | malformedQuery children =>
    "QUERY_CELLS takes at most one predicate, got " ++ toString children
  | nonBoolPredicate found => "cell predicate must produce BOOL, got " ++ found.name
  | predicate cell _ => "cell predicate failed on cell " ++ toString cell

/-- The texts of the errors below a refusal, from the outside in. -/
def causes : Error → List String
  | predicate _ source =>
    source.messageWith message ::
      match source with
      | .host e => e.causes
      | _ => []
  | _ => []

end Error

/-! ### Data and state -/

/-- What the host is given once and for all. -/
structure Data where
  args : List Value
  cells : List Value
  /-- The limits for predicates. -/
  limits : Limits

/-- What changes while the host is in use. -/
structure State where
  /-- The declared parameters. -/
  slots : List Slot
  /-- The height that the predicates at work have been charged; zero outside
      queries. -/
  charge : Nat

namespace State

/-- A state in which nothing has been solved. -/
def fresh (params : List (Option Value)) : State :=
  ⟨params.map Slot.declared, 0⟩

/-- The parameters that have been solved, with their values, in order. -/
def bindings (s : State) : List (Nat × Value) :=
  s.slots.zipIdx.filterMap fun (slot, index) => slot.solution?.map fun v => (index, v)

/-- Forgets what has been solved. -/
def resetBindings (s : State) : State :=
  { s with slots := s.slots.map Slot.reset }

end State

/-! ### Parameters of the host -/

/-- The value of a parameter, or its placeholder. -/
def param (index : Nat) (s : State) : Option Value :=
  s.slots[index]?.map fun slot => slot.value?.getD (.param (UInt64.ofNat index))

/-- Gives a value to a parameter that has none; one that has a value keeps it, and
    asking for another is a conflict. -/
def bind (index : Nat) (value : Value) (s : State) : Except (Refusal Error) Unit × State :=
  match s.slots[index]? with
  | none => (.error (.own (.unknownParam index s.slots.length)), s)
  | some slot =>
    match slot.value? with
    | some v =>
      if v = value then (.ok (), s) else (.error (.own (.conflict index v value)), s)
    | none => (.ok (), { s with slots := s.slots.set index (.solved value) })

/-! ### Queries -/

/-- A part of the answer to a query. -/
abbrev Step (α : Type) := Run (Event Error) State (Refusal Error) α

/-- The host, given how it answers queries. -/
def hostWith (data : Data) (query : Value → Step (List Value)) : Host State Error where
  arg index s := (data.args[index]?, s)
  param index s := (param index s, s)
  bind := bind
  query := query

/-- How much of the charge was in use when a predicate with the given reach starts:
    it lies within the predicate that was charged, and its reach below. -/
def levelsUsed (charge reach : Nat) : Nat :=
  charge - reach

/-- A step under the charge of a predicate, which ends with the step.  The step is
    given the limits that are left. -/
def charged {α : Type} (data : Data) (predicate : Value) (step : Limits → Step α) : Step α :=
  fun s =>
    let reach := predicate.scanHeight
    let used := levelsUsed s.charge reach
    -- What the predicates around this one use is not left for it.
    let limits := { data.limits with maxDepth := data.limits.maxDepth - used }
    let r := step limits { s with charge := used + reach }
    { r with state := { r.state with charge := s.charge } }

/-- The error of a predicate on a cell as a refusal: a limit stays what it is. -/
def predicateRefusal (position : Nat) : EvalError Error → Refusal Error
  | .limit l => .limit l
  | source => .own (.predicate position source)

/-- Whether a predicate accepts a cell, whatever the states of the host are. -/
def matchesCell {σ : Type} (host : Host σ Error) (limits : Limits) (predicate : Value)
    (position : Nat) (cell : Value) : Run (Event Error) σ (Refusal Error) Bool := fun s =>
  let r := Evaluator.eval host limits predicate [[cell]] ⟨0, s⟩
  let outcome : Outcome (Refusal Error) Bool :=
    match r.outcome with
    | .ok (.bool b) => .ok b
    | .ok v => .error (.own (.nonBoolPredicate v.tag))
    | .error e => .error (predicateRefusal position e)
    | .fault f => .fault f
  ⟨outcome, r.state.host, r.events⟩

/-- A step after which the parameters are what they were before. -/
def forgetting {α : Type} (step : Step α) : Step α := fun s =>
  let r := step s
  { r with state := { r.state with slots := s.slots } }

/-- The cells that a predicate accepts, in order. -/
def filterCells (host : Host State Error) (limits : Limits) (predicate : Value)
    (cells : List Value) : Step (List Value) := do
  let accepted ← Run.keep
    (fun (cell, position) => forgetting (matchesCell host limits predicate position cell))
    cells.zipIdx
  return accepted.map Prod.fst

/-- The answer to a query within which queries nest at most as deep as the given
    number. -/
def answerWithin (data : Data) : Nat → Value → Step (List Value)
  | 0, _ => Run.fault .queryNesting
  | depth + 1, query =>
    match query.children with
    | [] => pure data.cells
    | [predicate] =>
      charged data predicate fun limits =>
        filterCells (hostWith data (answerWithin data depth)) limits predicate data.cells
    | children => Run.fail (.own (.malformedQuery children.length))

/-- The answer to a query.  Queries nest no deeper than the tree of the query. -/
def answer (data : Data) (query : Value) : Step (List Value) :=
  answerWithin data query.height query

/-- The host. -/
def host (data : Data) : Host State Error :=
  hostWith data (answer data)

end Memory

/-! ### Texts of evaluation errors -/

/-- The text of an error of an evaluation on the host in memory. -/
def EvalError.message (e : EvalError Memory.Error) : String :=
  e.messageWith Memory.Error.message

/-- The texts of the errors below it, from the outside in. -/
def EvalError.causes (e : EvalError Memory.Error) : List String :=
  e.causesWith Memory.Error.causes

end CellQuery
