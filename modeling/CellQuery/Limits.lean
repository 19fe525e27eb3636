import CellQuery.Tag

/-! # Limits of an evaluation

    An evaluation may nest only so deep, and a single `REDUCE`, `MAP` or
    `FILTER` may process only so many elements. -/

namespace CellQuery

/-- The limits of one evaluation. -/
structure Limits where
  /-- How many activations may be live at once. -/
  maxDepth : Nat := 256
  /-- How many elements one loop may process, if that is limited. -/
  maxIterations : Option Nat := none
  deriving DecidableEq

/-- A limit that an evaluation would have gone past. -/
inductive LimitExceeded where
  /-- An activation at the given depth would have been one too many. -/
  | stackOverflow (depth maxDepth : Nat)
  /-- A loop had more elements than it may process. -/
  | iterations (tag : Tag) (maxIterations : Nat)
  deriving DecidableEq

/-- The text of an exceeded limit. -/
def LimitExceeded.message : LimitExceeded → String
  | stackOverflow depth maxDepth =>
    "evaluation stack overflow: depth " ++ toString depth ++ " exceeds maximum of "
      ++ toString maxDepth
  | iterations tag maxIterations =>
    tag.name ++ " processed more than " ++ toString maxIterations ++ " elements"

/-- What is wrong with the number of elements of a loop. -/
def Limits.iterationFault? (limits : Limits) (tag : Tag) (count : Nat) : Option LimitExceeded :=
  match limits.maxIterations with
  | some most => if most < count then some (.iterations tag most) else none
  | none => none

end CellQuery
