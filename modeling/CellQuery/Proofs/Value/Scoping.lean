import CellQuery.Proofs.Value.Subtree

/-! # Scoping

    Of the children of an expression some are evaluated where it stands, one may be a body,
    which is evaluated under one scope more, and the others are not evaluated.

    * `Value.operands` and `Value.body?` list the first two kinds.
    * `Value.need` counts the arguments that an expression may read.  A body finds the
      arguments of its own scope first, so these are taken off what it needs. -/

namespace CellQuery

/-- A node with the tag and the given number of children has all of them evaluated where it
    stands. -/
def Tag.evaluatesAll (tag : Tag) (count : Nat) : Bool :=
  match tag.nodeClass with
  | .operator => true
  | .structuralGet => count = 1
  | .controlForm => tag = .list
  | .primitive => false

namespace Value

/-! ## Children -/

/-- The children that are evaluated where the expression stands. -/
def operands : Value → List Value
  | node .apply (_ :: args) => args
  | node .reduce [_, start, list] => [start, list]
  | node .map [_, list] => [list]
  | node .filter [_, list] => [list]
  | node tag children => if tag.evaluatesAll children.length then children else []
  | _ => []

/-- The child that is evaluated under one scope more, and the size of that scope. -/
def body? : Value → Option (Value × Nat)
  | node .apply (body :: args) => some (body, args.length)
  | node .reduce [body, _, _] => some (body, 2)
  | node .map [body, _] => some (body, 1)
  | node .filter [body, _] => some (body, 1)
  | _ => none

theorem operands_of_evaluatesAll {tag : Tag} {children : List Value}
    (h : tag.evaluatesAll children.length = true) : (node tag children).operands = children := by
  unfold operands
  split
  · next heq => cases heq; cases h
  · next heq => cases heq; cases h
  · next heq => cases heq; cases h
  · next heq => cases heq; cases h
  · next heq => cases heq; exact if_pos h
  · next hnode => exact absurd rfl (hnode tag children)

theorem mem_children_of_mem_operands {e c : Value} (h : c ∈ e.operands) : c ∈ e.children := by
  unfold operands at h
  split at h
  · exact List.mem_cons_of_mem _ h
  · exact List.mem_cons_of_mem _ h
  · exact List.mem_cons_of_mem _ h
  · exact List.mem_cons_of_mem _ h
  · split at h
    · exact h
    · cases h
  · cases h

theorem mem_children_of_body? {e body : Value} {size : Nat} (h : e.body? = some (body, size)) :
    body ∈ e.children := by
  unfold body? at h
  split at h
  all_goals cases h
  all_goals exact List.mem_cons_self

/-! ## What an expression needs -/

mutual

/-- How many leading arguments an expression may read. -/
def need : Value → Nat
  | arg i => i.toNat + 1
  | node .apply (body :: args) => max (needAll args) (body.need - args.length)
  | node .reduce [body, start, list] => max (max start.need list.need) (body.need - 2)
  | node .map [body, list] => max list.need (body.need - 1)
  | node .filter [body, list] => max list.need (body.need - 1)
  | node tag children => if tag.evaluatesAll children.length then needAll children else 0
  | _ => 0

/-- What the neediest expression of a list needs. -/
def needAll : List Value → Nat
  | [] => 0
  | v :: vs => max v.need (needAll vs)

end

theorem need_le_needAll {v : Value} {vs : List Value} (h : v ∈ vs) : v.need ≤ needAll vs := by
  induction vs with
  | nil => simp at h
  | cons w ws ih =>
    simp only [needAll]
    rcases List.mem_cons.mp h with rfl | h
    · exact Nat.le_max_left _ _
    · exact Nat.le_trans (ih h) (Nat.le_max_right _ _)

/-- A query looks for no arguments, whatever its predicate looks for. -/
theorem need_of_queryCells {q : Value} (h : q.tag = .queryCells) : q.need = 0 := by
  cases q with
  | node tag children =>
    obtain rfl : tag = .queryCells := h
    have hnone : Tag.queryCells.evaluatesAll children.length = false := rfl
    simp only [need, hnone, Bool.false_eq_true, if_false]
  | _ => cases h

/-- What is evaluated where the expression stands needs no more than the expression does. -/
theorem need_operand_le {e c : Value} (h : c ∈ e.operands) : c.need ≤ e.need := by
  have hall := need_le_needAll h
  unfold operands at h hall
  split at h
  · exact Nat.le_trans hall (Nat.le_max_left _ _)
  · simp only [needAll, need] at hall ⊢
    omega
  · simp only [needAll, need] at hall ⊢
    omega
  · simp only [needAll, need] at hall ⊢
    omega
  · rw [need] <;> try assumption
    split at h
    · next hevaluates =>
      simpa only [hevaluates, if_true] using hall
    · cases h
  · cases h

/-- A body finds the arguments of its own scope first. -/
theorem need_body_le {e body : Value} {size : Nat} (h : e.body? = some (body, size)) :
    body.need ≤ e.need + size := by
  unfold body? at h
  split at h
  all_goals cases h
  all_goals simp only [need]
  all_goals omega

end Value

end CellQuery
