import CellQuery.Eval.Step

/-! # Evaluation

    An expression means a value; where a list is expected (the last operand of
    `REDUCE`, `MAP` and `FILTER`) it means a list.  Both meanings of a node are made
    from the meanings of its children:

    * A primitive is its own value.
    * An operator has all its children evaluated, left to right, and combined.
    * A `GET_…` has its one child evaluated and a field of it read.
    * `ARG` looks through the scopes and then asks the host; `PARAM` asks the host.
    * `APPLY`, `REDUCE`, `MAP` and `FILTER` evaluate a body under one more scope.
    * `QUERY_CELLS` is handed to the host as it stands.
    * Records and list forms have no value, and nothing else is a list.

    `Evaluator.eval` and `Evaluator.evalList` run the two meanings. -/

namespace CellQuery

namespace Evaluator

variable {σ ε : Type}

/-- What an expression means under scopes. -/
structure Meaning (σ ε : Type) where
  /-- As a value. -/
  value : Scopes → Step σ ε Value
  /-- Where a list is expected. -/
  list : Scopes → Step σ ε (List Value)

/-- The values of several expressions, left to right. -/
def values (parts : List (Meaning σ ε)) (scopes : Scopes) : Step σ ε (List Value) :=
  Run.each (fun part => part.value scopes) parts

/-! ### Forms -/

/-- `GET_…`: a field of the one operand. -/
def getValue (tag : Tag) (parts : List (Meaning σ ε)) (scopes : Scopes) : Step σ ε Value :=
  match parts with
  | [operand] => do
    let record ← operand.value scopes
    Run.lift (project tag record)
  | parts => Run.fail (.arity tag (.exactly 1) parts.length)

/-- `APPLY`: the body under a scope of the arguments. -/
def applyValue (parts : List (Meaning σ ε)) (scopes : Scopes) : Step σ ε Value :=
  match parts with
  | [] => Run.fail (.arity .apply (.atLeast 1) 0)
  | body :: args => do
    let scope ← values args scopes
    body.value (scope :: scopes)

/-- `REDUCE`: the body, for each element in turn, under a scope of what has been
    reached and the element. -/
def reduceValue (limits : Limits) (parts : List (Meaning σ ε)) (scopes : Scopes) :
    Step σ ε Value :=
  match parts with
  | [body, start, list] => do
    let acc ← start.value scopes
    let elements ← list.list scopes
    checkIterations limits .reduce elements
    Run.fold (fun acc x => body.value ([acc, x] :: scopes)) acc elements
  | parts => Run.fail (.arity .reduce (.exactly 3) parts.length)

/-- `MAP`: the values of the body under a scope of each element. -/
def mapList (limits : Limits) (parts : List (Meaning σ ε)) (scopes : Scopes) :
    Step σ ε (List Value) :=
  match parts with
  | [body, list] => do
    let elements ← list.list scopes
    checkIterations limits .map elements
    Run.each (fun x => body.value ([x] :: scopes)) elements
  | parts => Run.fail (.arity .map (.exactly 2) parts.length)

/-- `FILTER`: the elements for which the predicate is true under a scope of the
    element. -/
def filterList (limits : Limits) (parts : List (Meaning σ ε)) (scopes : Scopes) :
    Step σ ε (List Value) :=
  match parts with
  | [predicate, list] => do
    let elements ← list.list scopes
    checkIterations limits .filter elements
    Run.keep (fun x => predicate.value ([x] :: scopes) >>= verdict) elements
  | parts => Run.fail (.arity .filter (.exactly 2) parts.length)

/-! ### Nodes -/

/-- The value of a node, from the meanings of its children. -/
def nodeValue (host : Host σ ε) (limits : Limits) (tag : Tag) (children : List Value)
    (parts : List (Meaning σ ε)) (scopes : Scopes) : Step σ ε Value :=
  match tag.nodeClass with
  | .primitive => pure (.node tag children)
  | .operator => values parts scopes >>= combine host tag
  | .structuralGet => getValue tag parts scopes
  | .controlForm =>
    if tag = .apply then applyValue parts scopes
    else if tag = .reduce then reduceValue limits parts scopes
    else Run.fail (.unsupported tag .value)

/-- The list that a node stands for, from the meanings of its children. -/
def nodeList (host : Host σ ε) (limits : Limits) (tag : Tag) (children : List Value)
    (parts : List (Meaning σ ε)) (scopes : Scopes) : Step σ ε (List Value) :=
  if tag = .queryCells then askQuery host (.node tag children)
  else if tag = .map then mapList limits parts scopes
  else if tag = .filter then filterList limits parts scopes
  else if tag = .list then values parts scopes
  else Run.fail (.unsupported tag .list)

/-! ### Expressions -/

/-- The meaning of a leaf: a value, but no list. -/
def leaf (limits : Limits) (tag : Tag) (value : Scopes → Step σ ε Value) : Meaning σ ε where
  value scopes := activation limits (value scopes)
  list _ := activation limits (Run.fail (.unsupported tag .list))

/-- The meaning of a node. -/
def node (host : Host σ ε) (limits : Limits) (tag : Tag) (children : List Value)
    (parts : List (Meaning σ ε)) : Meaning σ ε where
  value scopes := activation limits (nodeValue host limits tag children parts scopes)
  list scopes := activation limits (nodeList host limits tag children parts scopes)

mutual

/-- The meaning of an expression. -/
def meaning (host : Host σ ε) (limits : Limits) : Value → Meaning σ ε
  | .uint n => leaf limits .uint64 fun _ => pure (.uint n)
  | .nil => leaf limits .nil fun _ => pure .nil
  | .bool b => leaf limits .bool fun _ => pure (.bool b)
  | .bytes data => leaf limits .bytes fun _ => pure (.bytes data)
  | .arg index => leaf limits .arg (lookupArg host index)
  | .param index => leaf limits .param fun _ => lookupParam host index
  | .node tag children => node host limits tag children (meanings host limits children)

/-- The meanings of several expressions. -/
def meanings (host : Host σ ε) (limits : Limits) : List Value → List (Meaning σ ε)
  | [] => []
  | e :: es => meaning host limits e :: meanings host limits es

end

/-- The value of an expression under scopes. -/
def eval (host : Host σ ε) (limits : Limits) (e : Value) (scopes : Scopes) : Step σ ε Value :=
  (meaning host limits e).value scopes

/-- The list that an expression stands for under scopes. -/
def evalList (host : Host σ ε) (limits : Limits) (e : Value) (scopes : Scopes) :
    Step σ ε (List Value) :=
  (meaning host limits e).list scopes

end Evaluator

end CellQuery
