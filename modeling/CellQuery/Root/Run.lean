import CellQuery.Eval.Basic
import CellQuery.Root

/-! # Running a root

    The calls of a root are evaluated in order, each with what the calls before it
    have left on the host.  A call that fails does not keep the next from running. -/

namespace CellQuery

/-- How the evaluation of a call ended. -/
structure CallResult (ε : Type) where
  name : String
  result : Outcome (EvalError ε) Value

namespace Root

variable {σ ε : Type}

/-- The results of calls, and the machine after the last of them. -/
def runCalls (host : Host σ ε) (limits : Limits) (scopes : Scopes) :
    List Call → Machine σ → List (CallResult ε) × Machine σ
  | [], m => ([], m)
  | call :: calls, m =>
    let r := Evaluator.eval host limits call.result scopes m
    let (results, m) := runCalls host limits scopes calls r.state
    (⟨call.name, r.outcome⟩ :: results, m)

/-- The results of the calls of a root, evaluated by an evaluator of their own, and
    the state in which they leave the host. -/
def run (root : Root) (host : Host σ ε) (limits : Limits) (scopes : Scopes) (s : σ) :
    List (CallResult ε) × σ :=
  let (results, m) := runCalls host limits scopes root.calls ⟨0, s⟩
  (results, m.host)

end Root

end CellQuery
