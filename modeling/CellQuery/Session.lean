import CellQuery.Host.Memory
import CellQuery.Root.Run

/-! # Sessions: many requests to one host

    A session is a host in memory together with one evaluator, which serve one step
    after another.  Every step may stand under scopes, which shadow the arguments of
    the host. -/

namespace CellQuery

namespace Session

/-- What a session can be asked to do. -/
inductive Request where
  /-- Evaluate an expression. -/
  | eval (e : Value)
  /-- Evaluate an expression where a list is expected. -/
  | evalList (e : Value)
  /-- Run a root, with an evaluator of its own. -/
  | runRoot (root : Root)
  /-- Look an argument up. -/
  | arg (index : Nat)
  /-- Look a parameter up. -/
  | param (index : Nat)
  /-- Bind a parameter. -/
  | bind (index : Nat) (value : Value)
  /-- Find the cells of a query, which may have any tag. -/
  | query (query : Value)
  /-- Show what has been solved. -/
  | bindings
  /-- Forget what has been solved. -/
  | reset
  /-- List all cells. -/
  | cells

/-- A request, the scopes that it stands under, innermost first, and the limits of
    the evaluation that it may start. -/
structure Step where
  request : Request
  scopes : Scopes
  limits : Limits

/-- What a session answers. -/
inductive Answer where
  | value (v : Outcome (EvalError Memory.Error) Value)
  | list (vs : Outcome (EvalError Memory.Error) (List Value))
  | results (calls : List (CallResult Memory.Error))
  | found (v : Outcome (EvalError Memory.Error) (Option Value))
  | granted (done : Outcome (Refusal Memory.Error) Unit)
  | cells (vs : Outcome (Refusal Memory.Error) (List Value))
  | done

end Session

/-- The machine of a session, its depth being that of the evaluator. -/
abbrev Session := Machine Memory.State

namespace Session

/-- A session with a new evaluator on a new host. -/
def new (params : List (Option Value)) : Session :=
  ⟨0, .fresh params⟩

/-- An argument under scopes. -/
def lookup (data : Memory.Data) (scopes : Scopes) (index : Nat) :
    Outcome (EvalError Memory.Error) (Option Value) := do
  match ← scopes.find index with
  | .bound v => return some v
  | .outside index => return data.args[index]?

/-- An outcome of a request that has no faults. -/
def ofExcept {ε α : Type} : Except ε α → Outcome ε α
  | .ok a => .ok a
  | .error e => .error e

/-- The answer to one step, and the session after it. -/
def step (data : Memory.Data) (s : Session) (step : Step) : Answer × Session :=
  let host := Memory.host data
  match step.request with
  | .eval e =>
    let r := Evaluator.eval host step.limits e step.scopes s
    (.value r.outcome, r.state)
  | .evalList e =>
    let r := Evaluator.evalList host step.limits e step.scopes s
    (.list r.outcome, r.state)
  | .runRoot root =>
    let (results, state) := root.run host step.limits step.scopes s.host
    (.results results, { s with host := state })
  | .arg index => (.found (lookup data step.scopes index), s)
  | .param index => (.found (.ok (Memory.param index s.host)), s)
  | .bind index value =>
    let (done, state) := Memory.bind index value s.host
    (.granted (ofExcept done), { s with host := state })
  | .query query =>
    let r := host.query query s.host
    (.cells r.outcome, { s with host := r.state })
  | .bindings => (.done, s)
  | .reset => (.done, { s with host := s.host.resetBindings })
  | .cells => (.cells (.ok data.cells), s)

/-- The answers to steps in order, each with the bindings after it. -/
def run (data : Memory.Data) (s : Session) : List Step → List (Answer × List (Nat × Value))
  | [] => []
  | first :: steps =>
    let (answer, s) := step data s first
    (answer, s.host.bindings) :: run data s steps

end Session

end CellQuery
