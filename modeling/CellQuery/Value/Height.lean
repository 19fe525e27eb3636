import CellQuery.Value.Basic

/-! # The height of a value

    The height is one for a value without children, and one more than the
    height of the highest child otherwise.  An evaluation never nests deeper
    than the height of its expression, queries apart, so heights bound how much
    of a depth budget an expression can use.

    * `Value.height` follows the tree.
    * `Value.scanHeight` keeps a list of the nodes still to visit, each with its
      level, and so needs no call stack of its own. -/

namespace CellQuery.Value

/-! ### By recursion on the tree -/

mutual

/-- One for a value without children, else one more than the highest child. -/
def height : Value → Nat
  | node _ children => 1 + heightAll children
  | _ => 1

/-- The height of the highest value of a list, zero if there is none. -/
def heightAll : List Value → Nat
  | [] => 0
  | v :: vs => max v.height (heightAll vs)

end

/-! ### By a list of pending nodes -/

mutual

/-- The number of nodes and leaves. -/
def count : Value → Nat
  | node _ children => 1 + countAll children
  | _ => 1

/-- The number of nodes and leaves of a list of values. -/
def countAll : List Value → Nat
  | [] => 0
  | v :: vs => v.count + countAll vs

end

theorem count_eq (v : Value) : v.count = 1 + countAll v.children := by
  cases v <;> simp [count, children, countAll]

/-- The number of nodes and leaves still to visit. -/
def pendingCount : List (Value × Nat) → Nat
  | [] => 0
  | (v, _) :: rest => v.count + pendingCount rest

theorem pendingCount_append (xs ys : List (Value × Nat)) :
    pendingCount (xs ++ ys) = pendingCount xs + pendingCount ys := by
  induction xs with
  | nil => simp [pendingCount]
  | cons x xs ih =>
    obtain ⟨v, level⟩ := x
    simp [pendingCount, ih, Nat.add_assoc]

theorem pendingCount_at_level (vs : List Value) (level : Nat) :
    pendingCount (vs.map fun v => (v, level)) = countAll vs := by
  induction vs with
  | nil => rfl
  | cons v vs ih => simp [pendingCount, countAll, ih]

/-- The deepest level among `deepest` and the levels below the pending nodes. -/
def scanFrom (deepest : Nat) (pending : List (Value × Nat)) : Nat :=
  match pending with
  | [] => deepest
  | (v, level) :: rest =>
    scanFrom (max deepest level) ((v.children.map fun child => (child, level + 1)) ++ rest)
termination_by pendingCount pending
decreasing_by
  simp [pendingCount_append, pendingCount_at_level, pendingCount, count_eq v]

/-- The height, computed without recursion on the tree. -/
def scanHeight (v : Value) : Nat :=
  scanFrom 0 [(v, 1)]

end CellQuery.Value
