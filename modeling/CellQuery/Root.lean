import CellQuery.Value.Basic

/-! # Roots: what a caller submits

    A root is an ordered list of calls; a call is a named expression. -/

namespace CellQuery

/-- A named expression. -/
structure Call where
  name : String
  result : Value
  deriving DecidableEq

/-- The calls of one request, in order. -/
structure Root where
  calls : List Call
  deriving DecidableEq

namespace Root

/-- Every expression of the root is well formed. -/
def WellFormed (root : Root) : Prop :=
  ∀ call ∈ root.calls, call.result.WellFormed

/-- The first call with the given name. -/
def call? (root : Root) (name : String) : Option Call :=
  root.calls.find? (·.name = name)

/-- The calls with the given name, in order. -/
def select (root : Root) (name : String) : Root :=
  ⟨root.calls.filter (·.name = name)⟩

end Root

end CellQuery
