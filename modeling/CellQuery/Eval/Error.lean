import CellQuery.Limits
import CellQuery.Value.Basic

/-! # Errors of an evaluation

    An evaluation fails for a reason of its own, because a limit is exceeded, or
    because its host refused a request; the type of the host's own errors is a
    parameter.  A refusal that reports a limit is that limit and nothing else,
    so a limit stays visible through any number of hosts and evaluations. -/

namespace CellQuery

/-! ### Parts of errors -/

/-- How many operands a tag takes. -/
inductive Arity where
  | exactly (n : Nat)
  | atLeast (n : Nat)
  deriving DecidableEq

/-- The words for an arity. -/
def Arity.text : Arity → String
  | exactly n => "exactly " ++ toString n
  | atLeast n => "at least " ++ toString n

/-- What an index can refer to. -/
inductive BindingKind where
  | arg
  | param
  deriving DecidableEq

/-- The word for a kind of binding. -/
def BindingKind.text : BindingKind → String
  | arg => "arg"
  | param => "param"

/-- What is expected where an expression stands. -/
inductive Position where
  | value
  | list
  deriving DecidableEq

/-- The word for a position. -/
def Position.text : Position → String
  | value => "value"
  | list => "list"

/-- Why a host does not do what it is asked. -/
inductive Refusal (ε : Type) where
  /-- A reason of the host. -/
  | own (e : ε)
  /-- A limit was exceeded on the host's side. -/
  | limit (l : LimitExceeded)
  deriving DecidableEq

/-! ### Errors -/

/-- Why an evaluation fails. -/
inductive EvalError (ε : Type) where
  /-- The number of operands is wrong. -/
  | arity (tag : Tag) (expected : Arity) (found : Nat)
  /-- An operand has the wrong tag. -/
  | typeMismatch (tag expected found : Tag)
  /-- Nothing is bound to the index. -/
  | lookup (kind : BindingKind) (index : UInt64)
  /-- The expression has no meaning where it stands. -/
  | unsupported (tag : Tag) (position : Position)
  /-- An index or bound is too large. -/
  | outOfRange (tag : Tag) (index : UInt64) (len : Nat)
  /-- The host refused for a reason of its own. -/
  | host (e : ε)
  /-- A limit was exceeded, here or on the host's side. -/
  | limit (l : LimitExceeded)
  deriving DecidableEq

/-- The error that a refusal is to the evaluation which made the request. -/
def Refusal.toEvalError {ε : Type} : Refusal ε → EvalError ε
  | own e => .host e
  | limit l => .limit l

/-! ### Kinds -/

/-- The kinds of error. -/
inductive ErrorKind where
  | arity
  | typeMismatch
  | lookup
  | unsupported
  | outOfRange
  | delegated
  | limitExceeded
  deriving DecidableEq

/-- The name of a kind. -/
def ErrorKind.name : ErrorKind → String
  | arity => "ArityError"
  | typeMismatch => "TypeError"
  | lookup => "LookupError"
  | unsupported => "UnsupportedNodeError"
  | outOfRange => "OutOfRangeError"
  | delegated => "DelegatedError"
  | limitExceeded => "ResourceExceeded"

namespace EvalError

/-- The kind of an error. -/
def kind {ε : Type} : EvalError ε → ErrorKind
  | arity .. => .arity
  | typeMismatch .. => .typeMismatch
  | lookup .. => .lookup
  | unsupported .. => .unsupported
  | outOfRange .. => .outOfRange
  | host _ => .delegated
  | limit _ => .limitExceeded

/-! ### Texts -/

/-- The text of an error, given the texts of the host's own errors. -/
def messageWith {ε : Type} (hostMessage : ε → String) : EvalError ε → String
  | arity tag expected found =>
    tag.name ++ " expects " ++ expected.text ++ " operand(s), got " ++ toString found
  | typeMismatch tag expected found =>
    tag.name ++ " expects " ++ expected.name ++ ", got " ++ found.name
  | lookup kind index =>
    "cannot find " ++ kind.text ++ " index " ++ toString index.toNat
  | unsupported tag position =>
    tag.name ++ " cannot be evaluated as a " ++ position.text
  | outOfRange tag index len =>
    tag.name ++ ": index " ++ toString index.toNat ++ " out of range for length " ++ toString len
  | host e => hostMessage e
  | limit l => l.message

/-- The texts of the errors below an error, from the outside in, given those
    below the host's own errors. -/
def causesWith {ε : Type} (hostCauses : ε → List String) : EvalError ε → List String
  | host e => hostCauses e
  | _ => []

end EvalError

end CellQuery
