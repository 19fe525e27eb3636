import CellQuery.Proofs.Wire.Shape

/-! # Faults of wire values

    A node of a wire value may be ill shaped by itself, whatever stands below it:
    children below a leaf, no payload where one is needed, or a payload that the
    tag cannot carry.  The shape check goes through the nodes in preorder and
    reports the fault of the first node that has one.

    * `Wire.nodes` lists the nodes, parents before children and children from
      left to right.
    * `Wire.fault?` says what is wrong with a node by itself.
    * `Wire.toValue_exact` says which wire values are read, as what, and which
      fault is reported of the others. -/

namespace CellQuery

namespace Wire

/-! ## Nodes in preorder -/

mutual

/-- A wire value and everything below it, parents first. -/
def nodes : Wire → List Wire
  | ⟨tag, primitive, children⟩ => ⟨tag, primitive, children⟩ :: nodesAll children

/-- The nodes of each wire value of a list. -/
def nodesAll : List Wire → List Wire
  | [] => []
  | w :: ws => w.nodes ++ nodesAll ws

end

theorem nodes_eq (w : Wire) : w.nodes = w :: nodesAll w.children := by
  cases w
  rw [nodes]

/-! ## The fault of a node -/

/-- What is wrong with a node by itself.  Children below a leaf come first; then a payload has to
    be there exactly if the tag needs one, and has to be of the kind that it needs. -/
def fault? (w : Wire) : Option ShapeError :=
  if w.tag.isLeaf && !w.children.isEmpty then
    some (.leafWithChildren w.tag w.children.length)
  else
    match w.tag.payload?, w.primitive with
    | some kind, none => some (.missingPayload w.tag kind)
    | some kind, some p => if p.kind = kind then none else some (.unexpectedPayload w.tag)
    | none, some _ => some (.unexpectedPayload w.tag)
    | none, none => none

/-- A tag carries the payloads of the kind that it needs, and no others. -/
theorem leaf?_isSome {tag : Tag} {p : Primitive} :
    (leaf? tag p).isSome ↔ tag.payload? = some p.kind := by
  cases tag <;> cases p <;> simp [leaf?, Tag.payload?, Primitive.kind]

theorem leaf?_eq_none {tag : Tag} {p : Primitive} (h : tag.payload? ≠ some p.kind) :
    leaf? tag p = none := by
  cases hleaf : leaf? tag p with
  | none => rfl
  | some v => exact absurd (leaf?_isSome.mp (by rw [hleaf]; rfl)) h

/-- A fault of the node itself is reported before any below it. -/
theorem toValue_of_fault {w : Wire} {e : ShapeError} (h : w.fault? = some e) :
    w.toValue = .error e := by
  obtain ⟨tag, primitive, children⟩ := w
  unfold fault? at h
  by_cases hleaf : (tag.isLeaf && !children.isEmpty) = true
  · simp only [hleaf, if_true, Option.some.injEq] at h
    cases primitive <;> simp only [toValue, hleaf, if_true, h]
  · simp only [hleaf] at h
    cases primitive with
    | none =>
      cases hkind : tag.payload? with
      | none => simp [hkind] at h
      | some kind => simpa [toValue, hleaf, hkind] using h
    | some p =>
      -- The payload is not of the kind that the tag needs, if it needs one at all.
      have hne : tag.payload? ≠ some p.kind := by
        intro hkind
        simp [hkind] at h
      have herror : some (ShapeError.unexpectedPayload tag) = some e := by
        cases hkind : tag.payload? with
        | none => simpa [hkind] using h
        | some kind =>
          have hp : p.kind ≠ kind := fun heq => hne (heq ▸ hkind)
          simpa [hkind, hp] using h
      simpa [toValue, hleaf, leaf?_eq_none hne] using herror

/-- A leaf without a fault of its own is read. -/
theorem toValue_of_leaf {w : Wire} (h : w.fault? = none) (hleaf : w.tag.isLeaf = true) :
    w.children = [] ∧ ∃ v, w.toValue = .ok v := by
  obtain ⟨tag, primitive, children⟩ := w
  unfold fault? at h
  simp only at hleaf
  have hempty : children = [] := by
    cases children with
    | nil => rfl
    | cons c cs => simp [hleaf] at h
  subst hempty
  refine ⟨rfl, ?_⟩
  cases primitive with
  | some p =>
    have hkind : tag.payload? = some p.kind := by
      cases hkind : tag.payload? with
      | none => simp [hkind] at h
      | some kind =>
        by_cases hp : p.kind = kind
        · rw [hp]
        · simp [hkind, hp] at h
    obtain ⟨v, hv⟩ := Option.isSome_iff_exists.mp (leaf?_isSome.mpr hkind)
    exact ⟨v, by simp [toValue, hv]⟩
  | none =>
    have hkind : tag.payload? = none := by
      cases hkind : tag.payload? with
      | none => rfl
      | some kind => simp [hkind] at h
    by_cases hnil : tag = .nil
    · subst hnil
      exact ⟨.nil, rfl⟩
    · -- The one leaf that needs no payload is `NIL`.
      rw [isLeaf_eq_false.mpr ⟨hkind, hnil⟩] at hleaf
      cases hleaf

/-- A node of another tag without a fault of its own is read if its children are. -/
theorem toValue_of_node {w : Wire} (h : w.fault? = none) (hleaf : w.tag.isLeaf = false) :
    w.toValue = (toValues w.children).map (.node w.tag) := by
  obtain ⟨tag, primitive, children⟩ := w
  simp only at hleaf
  obtain ⟨hkind, hnil⟩ := isLeaf_eq_false.mp hleaf
  cases primitive with
  | some p => simp [fault?, hleaf, hkind] at h
  | none =>
    cases hread : toValues children with
    | ok vs => simp [toValue, hleaf, hnil, hkind, hread, Except.map]
    | error e => simp [toValue, hleaf, hnil, hkind, hread, Except.map]

/-! ## The first fault -/

/-- A list fails with the first fault of its items. -/
theorem toValues_eq_error {ws : List Wire} {e : ShapeError}
    (ih : ∀ w ∈ ws, ∀ e, w.toValue = .error e ↔ w.nodes.findSome? fault? = some e) :
    toValues ws = .error e ↔ (nodesAll ws).findSome? fault? = some e := by
  induction ws with
  | nil => simp [toValues, nodesAll]
  | cons w ws rest =>
    have hw := ih w List.mem_cons_self
    have hws := rest fun u hu => ih u (List.mem_cons_of_mem w hu)
    rw [toValues, nodesAll, List.findSome?_append]
    cases hread : w.toValue with
    | error e' =>
      rw [(hw e').mp hread]
      simp
    | ok v =>
      have hnone : w.nodes.findSome? fault? = none := by
        cases hfound : w.nodes.findSome? fault? with
        | none => rfl
        | some e' =>
          rw [(hw e').mpr hfound] at hread
          cases hread
      rw [hnone, Option.none_or, ← hws]
      cases toValues ws <;> simp

/-- The shape check fails with the fault of the first node, in preorder, that has one. -/
theorem toValue_eq_error {w : Wire} {e : ShapeError} :
    w.toValue = .error e ↔ w.nodes.findSome? fault? = some e := by
  induction w using of_children generalizing e with
  | step w ih =>
    rw [nodes_eq, List.findSome?_cons]
    cases hfault : w.fault? with
    | some e' => simp [toValue_of_fault hfault]
    | none =>
      simp only
      cases hleaf : w.tag.isLeaf with
      | true =>
        obtain ⟨hempty, v, hread⟩ := toValue_of_leaf hfault hleaf
        simp [hempty, hread, nodesAll]
      | false =>
        rw [toValue_of_node hfault hleaf, ← toValues_eq_error fun c hc e => ih c hc]
        cases toValues w.children <;> simp [Except.map]

/-! ## What the shape check does -/

/-- The shape check is exact.

    * It accepts the images of well-formed values, as these values, and nothing else.
    * It fails with the fault of a node if that node is the first in preorder which has one. -/
theorem toValue_exact :
    (∀ (w : Wire) (v : Value), w.toValue = .ok v ↔ v.WellFormed ∧ ofValue v = w) ∧
    ∀ (w : Wire) (e : ShapeError), w.toValue = .error e ↔
      ∃ before node after, w.nodes = before ++ node :: after ∧
        (∀ u ∈ before, u.fault? = none) ∧ node.fault? = some e := by
  refine ⟨fun w v => toValue_eq_ok, fun w e => ?_⟩
  rw [toValue_eq_error, List.findSome?_eq_some_iff]
  constructor
  · rintro ⟨before, node, after, hnodes, hfault, hbefore⟩
    exact ⟨before, node, after, hnodes, hbefore, hfault⟩
  · rintro ⟨before, node, after, hnodes, hbefore, hfault⟩
    exact ⟨before, node, after, hnodes, hfault, hbefore⟩

/-- The payload is missing two levels down, before the leaf that has a child. -/
example :
    let missing : Wire := ⟨.bytes, none, []⟩
    let inhabited : Wire := ⟨.nil, none, [missing]⟩
    toValue ⟨.list, none, [⟨.list, none, [missing]⟩, inhabited]⟩ =
      .error (.missingPayload .bytes .raw) := by
  rfl

end Wire

end CellQuery
