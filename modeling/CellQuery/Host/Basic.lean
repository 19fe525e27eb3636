import CellQuery.Eval.Error
import CellQuery.Run

/-! # Hosts: where arguments, parameters and cells come from

    The evaluator resolves no argument, parameter or cell by itself; it asks a
    host.  A host is any state machine that answers the four requests below.

    What happens during an evaluation is recorded as a tree of events: an
    activation holds the events that happened while it was live, and a query
    holds those that happened on the host while it was answered. -/

namespace CellQuery

/-! ### Events -/

/-- What happens during an evaluation; `ε` is the type of the host's errors. -/
inductive Event (ε : Type) where
  /-- An activation of the evaluator, from its entry until it is left. -/
  | activation (during : List (Event ε))
  /-- The host was asked for an argument. -/
  | arg (index : Nat)
  /-- The host was asked for a parameter. -/
  | param (index : Nat)
  /-- The host was asked to bind a parameter. -/
  | bind (index : Nat) (value : Value) (refusal : Option (Refusal ε))
  /-- The host was asked for the cells of a query. -/
  | query (query : Value) (during : List (Event ε)) (refusal : Option (Refusal ε))

namespace Event

mutual

/-- The requests that an event makes of the host, in order.  What happens on the
    host's side is not part of them. -/
def requests {ε : Type} : Event ε → List (Event ε)
  | activation during => requestsOf during
  | event => [event]

/-- The requests that a list of events makes of the host, in order. -/
def requestsOf {ε : Type} : List (Event ε) → List (Event ε)
  | [] => []
  | event :: events => requests event ++ requestsOf events

end

end Event

/-! ### Hosts -/

/-- A host with states of type `σ` and errors of type `ε`. -/
structure Host (σ ε : Type) where
  /-- The argument at an index. -/
  arg : Nat → σ → Option Value × σ
  /-- The parameter at an index.  A host that solves for parameters answers with
      the placeholder `PARAM(index)` while the parameter has no value. -/
  param : Nat → σ → Option Value × σ
  /-- Records or checks that a parameter has a value. -/
  bind : Nat → Value → σ → Except (Refusal ε) Unit × σ
  /-- The cells of a query, in order. -/
  query : Value → Run (Event ε) σ (Refusal ε) (List Value)

/-! ### Scopes -/

/-- The arguments that enclosing forms have bound, innermost form first. -/
abbrev Scopes := List (List Value)

namespace Scopes

/-- Where an argument is found. -/
inductive Found where
  /-- In one of the scopes. -/
  | bound (v : Value)
  /-- On the host, at the index that is left. -/
  | outside (index : Nat)

/-- Looks an argument up.  An index that a scope does not hold is reduced by the
    size of the scope and looked up further out. -/
def find {ε : Type} : Scopes → Nat → Outcome ε Found
  | [], index => .ok (.outside index)
  | scope :: scopes, index =>
    match scope[index]? with
    | some v => .ok (.bound v)
    | none =>
      match minus? index scope.length with
      | some index => find scopes index
      | none => .fault .scopeIndex

end Scopes

end CellQuery
