import CellQuery.Eval.Field
import CellQuery.Eval.Operator
import CellQuery.Host.Basic

/-! # Steps of an evaluation

    The parts of which an evaluation is made: activations, which keep the limit on
    depth, requests to the host, and what is done with their answers.

    Every evaluation of an expression is an activation.  It counts against the
    limit on depth from its entry until it is left, whether it succeeds or not. -/

namespace CellQuery

/-- The state of an evaluator and its host. -/
structure Machine (σ : Type) where
  /-- How many activations are live. -/
  depth : Nat
  /-- The state of the host. -/
  host : σ

namespace Evaluator

variable {σ ε : Type}

/-- A part of an evaluation. -/
abbrev Step (σ ε α : Type) := Run (Event ε) (Machine σ) (EvalError ε) α

/-! ### Activations -/

/-- A step as an activation: refused at the limit, else one level deeper until it
    ends. -/
def activation {α : Type} (limits : Limits) (step : Step σ ε α) : Step σ ε α := fun m =>
  if limits.maxDepth ≤ m.depth then
    ⟨.error (.limit (.stackOverflow m.depth limits.maxDepth)), m, []⟩
  else
    let r := step { m with depth := m.depth + 1 }
    match minus? r.state.depth 1 with
    | some depth => ⟨r.outcome, { r.state with depth }, [.activation r.events]⟩
    | none => ⟨.fault .depthCounter, r.state, [.activation r.events]⟩

/-! ### Requests to the host -/

/-- Asks the host for an argument. -/
def askArg (host : Host σ ε) (index : Nat) : Step σ ε (Option Value) := fun m =>
  let (v, s) := host.arg index m.host
  ⟨.ok v, { m with host := s }, [.arg index]⟩

/-- Asks the host for a parameter. -/
def askParam (host : Host σ ε) (index : Nat) : Step σ ε (Option Value) := fun m =>
  let (v, s) := host.param index m.host
  ⟨.ok v, { m with host := s }, [.param index]⟩

/-- Asks the host to bind a parameter. -/
def askBind (host : Host σ ε) (index : Nat) (value : Value) : Step σ ε Unit := fun m =>
  match host.bind index value m.host with
  | (.ok (), s) => ⟨.ok (), { m with host := s }, [.bind index value none]⟩
  | (.error e, s) => ⟨.error e.toEvalError, { m with host := s }, [.bind index value (some e)]⟩

/-- Asks the host for the cells of a query. -/
def askQuery (host : Host σ ε) (query : Value) : Step σ ε (List Value) := fun m =>
  let r := host.query query m.host
  let m := { m with host := r.state }
  match r.outcome with
  | .ok cells => ⟨.ok cells, m, [.query query r.events none]⟩
  | .error e => ⟨.error e.toEvalError, m, [.query query r.events (some e)]⟩
  | .fault f => ⟨.fault f, m, [.query query r.events none]⟩

/-! ### Bindings -/

/-- The value that was found for an index. -/
def found (kind : BindingKind) (index : UInt64) : Option Value → Step σ ε Value
  | some v => pure v
  | none => Run.fail (.lookup kind index)

/-- An argument: from the scopes, else from the host. -/
def lookupArg (host : Host σ ε) (index : UInt64) (scopes : Scopes) : Step σ ε Value := do
  match ← Run.lift (scopes.find index.toNat) with
  | .bound v => return v
  | .outside i => found .arg index (← askArg host i)

/-- A parameter of the host. -/
def lookupParam (host : Host σ ε) (index : UInt64) : Step σ ε Value := do
  found .param index (← askParam host index.toNat)

/-! ### Equality -/

/-- The binding that an `EQUAL` asks for: of a parameter on one side to the other
    side, unless that is a parameter too, or `NIL`. -/
def binding? : Value → Value → Option (UInt64 × Value)
  | .param _, .param _ => none
  | .param i, v => if v.isNil then none else some (i, v)
  | v, .param i => if v.isNil then none else some (i, v)
  | _, _ => none

/-- `EQUAL` binds a parameter, or compares. -/
def equal (host : Host σ ε) (operands : List Value) : Step σ ε Value := do
  let (x, y) ← Run.lift (Operands.two .equal operands)
  match binding? x y with
  | some (i, v) =>
    -- The host has agreed, so the two sides are equal from here on.
    askBind host i.toNat v
    return .bool true
  | none => return .bool (x = y)

/-- The result of an operator. -/
def combine (host : Host σ ε) (tag : Tag) (operands : List Value) : Step σ ε Value :=
  if tag = .equal then equal host operands else Run.lift (compute tag operands)

/-- The verdict of a `FILTER` on an element. -/
def verdict (v : Value) : Step σ ε Bool :=
  Run.lift (Operands.bool .filter v)

/-- The number of elements of a loop is within the limit. -/
def checkIterations (limits : Limits) (tag : Tag) (elements : List Value) : Step σ ε Unit :=
  Run.check ((limits.iterationFault? tag elements.length).map .limit)

end Evaluator

end CellQuery
