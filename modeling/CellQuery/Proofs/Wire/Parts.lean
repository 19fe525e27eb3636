import CellQuery.Proofs.Wire.Shape

/-! # Nodes made by the shape check

    A node may be put together from any tag but that of a leaf.  The check of the shape of a
    wire value does so without looking at the tag again, because the tags of leaves have been
    dealt with before.  `Wire.guardedValue` is the check with the one step that is not
    allowed for every tag left partial, and `Wire.guardedValue_eq` says that this step always
    succeeds, also below a wire value that is refused. -/

namespace CellQuery

namespace Wire

/-- The node with a tag and children, unless the tag is that of a leaf. -/
def fromParts? (tag : Tag) (children : List Value) : Option Value :=
  if tag.isLeaf then none else some (.node tag children)

mutual

/-- What the check of the shape yields; nothing if it puts together a node that may not be. -/
def guardedValue : Wire → Option (Except ShapeError Value)
  | ⟨tag, primitive, children⟩ =>
    if tag.isLeaf && !children.isEmpty then
      some (.error (.leafWithChildren tag children.length))
    else
      match primitive with
      | some p =>
        match leaf? tag p with
        | some v => some (.ok v)
        | none => some (.error (.unexpectedPayload tag))
      | none =>
        match tag.payload? with
        | some kind => some (.error (.missingPayload tag kind))
        | none =>
          if tag = .nil then some (.ok .nil)
          else
            (guardedValues children).bind fun
              | .ok vs => (fromParts? tag vs).map .ok
              | .error e => some (.error e)

/-- What the check yields for a list; the first fault wins. -/
def guardedValues : List Wire → Option (Except ShapeError (List Value))
  | [] => some (.ok [])
  | w :: ws =>
    (guardedValue w).bind fun
      | .error e => some (.error e)
      | .ok v =>
        (guardedValues ws).map fun
          | .error e => .error e
          | .ok vs => .ok (v :: vs)

end

theorem guardedValues_eq {ws : List Wire} (h : ∀ w ∈ ws, guardedValue w = some w.toValue) :
    guardedValues ws = some (toValues ws) := by
  induction ws with
  | nil => rfl
  | cons w ws ih =>
    obtain ⟨hw, hws⟩ := List.forall_mem_cons.mp h
    rw [guardedValues, toValues, hw, ih hws]
    cases w.toValue with
    | error e => rfl
    | ok v => cases toValues ws <;> rfl

/-- The check never puts together a node with the tag of a leaf. -/
theorem guardedValue_eq (w : Wire) : guardedValue w = some w.toValue := by
  induction w using of_children with
  | step w ih =>
    obtain ⟨tag, primitive, children⟩ := w
    unfold guardedValue toValue
    split
    · rfl
    · cases primitive with
      | some p => cases hleaf : leaf? tag p <;> simp only [hleaf]
      | none =>
        cases hpayload : tag.payload? with
        | some kind => rfl
        | none =>
          by_cases hnil : tag = .nil
          · simp only [hnil, if_true]
          · -- A tag without a payload that is not `NIL` is none of the leaves.
            have hleaf : tag.isLeaf = false := isLeaf_eq_false.mpr ⟨hpayload, hnil⟩
            simp only [hnil, if_false, guardedValues_eq ih]
            cases toValues children with
            | error e => rfl
            | ok vs => simp [fromParts?, hleaf]

end Wire

end CellQuery
