import CellQuery.Proofs.Value.Subtree
import CellQuery.Wire.Basic

/-! # Shapes of wire values

    The shape check accepts a wire value exactly if it is the image of a
    well-formed value, and yields that value:

    * `Wire.of_children` is the induction over a wire value by its children.
    * `Wire.leaf?_eq_some` says which payload makes which leaf.
    * `Wire.toValue_eq_ok` puts both conversions together. -/

namespace CellQuery

/-- The kind of a payload. -/
def Primitive.kind : Primitive → PayloadKind
  | truth _ => .truth
  | number _ => .number
  | raw _ => .raw

namespace Wire

/-! ## Induction by children -/

section induction
variable {P : Wire → Prop}

mutual

/-- What a wire value inherits from its children holds of every wire value. -/
theorem of_children (step : ∀ w, (∀ c ∈ w.children, P c) → P w) : ∀ w, P w
  | ⟨tag, primitive, cs⟩ => step ⟨tag, primitive, cs⟩ (of_children_all step cs)

theorem of_children_all (step : ∀ w, (∀ c ∈ w.children, P c) → P w) :
    ∀ ws : List Wire, ∀ c ∈ ws, P c
  | [] => by simp
  | w :: ws => by
    have hw := of_children step w
    have hws := of_children_all step ws
    exact List.forall_mem_cons.mpr ⟨hw, hws⟩

end

end induction

/-! ## From values -/

theorem ofValues_eq (vs : List Value) : ofValues vs = vs.map ofValue := by
  induction vs with
  | nil => rfl
  | cons v vs ih => rw [ofValues, ih, List.map_cons]

theorem ofValue_node (tag : Tag) (children : List Value) :
    ofValue (.node tag children) = ⟨tag, none, children.map ofValue⟩ := by
  rw [ofValue, ofValues_eq]

/-! ## To values -/

/-- A leaf is made of its own tag and payload, and of no other. -/
theorem leaf?_eq_some {tag : Tag} {p : Primitive} {v : Value} :
    leaf? tag p = some v ↔ ofValue v = ⟨tag, some p, []⟩ := by
  constructor
  · intro h
    unfold leaf? at h
    split at h <;> cases h <;> rfl
  · intro h
    cases v <;> cases h <;> rfl

theorem isLeaf_of_leaf? {tag : Tag} {p : Primitive} {v : Value} (h : leaf? tag p = some v) :
    tag.isLeaf = true := by
  unfold leaf? at h
  split at h <;> cases h <;> rfl

/-- The tags of nodes are those that need no payload, without `NIL`. -/
theorem isLeaf_eq_false {tag : Tag} :
    tag.isLeaf = false ↔ tag.payload? = none ∧ tag ≠ .nil := by
  cases tag <;> decide

/-- A list of wire values is read if each of them is, in order. -/
theorem toValues_eq_ok {ws : List Wire} {vs : List Value} :
    toValues ws = .ok vs ↔ ws.map toValue = vs.map .ok := by
  induction ws generalizing vs with
  | nil => cases vs <;> simp [toValues]
  | cons w ws ih =>
    rw [toValues]
    cases hw : w.toValue with
    | error e => cases vs <;> simp [hw]
    | ok v =>
      cases hws : toValues ws with
      | error e => cases vs <;> simp_all
      | ok us => cases vs <;> simp_all

theorem toValue_ofValue {v : Value} (h : v.WellFormed) : (ofValue v).toValue = .ok v := by
  induction v using Value.of_children with
  | step v ih =>
    cases v with
    | node tag children =>
      obtain ⟨hleaf, hchildren⟩ := Value.wellFormed_node.mp h
      obtain ⟨hpayload, hnil⟩ := isLeaf_eq_false.mp hleaf
      have each : toValues (children.map ofValue) = .ok children := by
        rw [toValues_eq_ok, List.map_map]
        exact List.map_congr_left fun c hc => ih c hc (hchildren c hc)
      rw [ofValue_node, toValue]
      simp [hleaf, hpayload, hnil, each]
    | _ => rfl

/-- A wire value with a payload is read as a leaf. -/
theorem ofValue_of_payload {tag : Tag} {p : Primitive} {children : List Wire} {v : Value}
    (h : toValue ⟨tag, some p, children⟩ = .ok v) :
    v.WellFormed ∧ ofValue v = ⟨tag, some p, children⟩ := by
  rw [toValue] at h
  split at h
  next => cases h
  next childless =>
    split at h
    next made =>
      cases h
      have shape := leaf?_eq_some.mp made
      -- The payload makes the tag that of a leaf, and a leaf has no children.
      have empty : children = [] := by simpa [isLeaf_of_leaf? made] using childless
      refine ⟨?_, by rw [shape, empty]⟩
      cases v with
      | node => cases shape
      | _ => trivial
    next => cases h

/-- Wire values that are read as well-formed values of their own are their images. -/
theorem ofValue_of_each {ws : List Wire} {vs : List Value}
    (ih : ∀ w ∈ ws, ∀ {v}, w.toValue = .ok v → v.WellFormed ∧ ofValue v = w)
    (h : ws.map toValue = vs.map .ok) :
    (∀ v ∈ vs, v.WellFormed) ∧ vs.map ofValue = ws := by
  induction ws generalizing vs with
  | nil => simp_all
  | cons w ws rest =>
    obtain ⟨v, vs, rfl⟩ : ∃ v us, vs = v :: us := by
      cases vs with
      | nil => cases h
      | cons v us => exact ⟨v, us, rfl⟩
    rw [List.map_cons, List.map_cons, List.cons.injEq] at h
    obtain ⟨hv, image⟩ := ih w (List.mem_cons_self ..) h.1
    obtain ⟨hvs, images⟩ := rest (fun u hu => ih u (List.mem_cons_of_mem _ hu)) h.2
    exact ⟨List.forall_mem_cons.mpr ⟨hv, hvs⟩, by rw [List.map_cons, image, images]⟩

theorem ofValue_of_toValue {w : Wire} {v : Value} (h : w.toValue = .ok v) :
    v.WellFormed ∧ ofValue v = w := by
  induction w using of_children generalizing v with
  | step w ih =>
    obtain ⟨tag, _ | p, children⟩ := w
    · rw [toValue] at h
      split at h
      next => cases h
      next childless =>
        split at h
        next => cases h
        next no_payload =>
          split at h
          next is_nil =>
            cases h
            have empty : children = [] := by simpa [is_nil, Tag.isLeaf] using childless
            rw [is_nil, empty]
            exact ⟨trivial, rfl⟩
          next not_nil =>
            split at h
            next vs read =>
              cases h
              -- The tag is that of a node, and each child is an image by induction.
              have each := toValues_eq_ok.mp read
              have images := ofValue_of_each ih each
              have not_leaf := isLeaf_eq_false.mpr ⟨no_payload, not_nil⟩
              refine ⟨Value.wellFormed_node.mpr ⟨not_leaf, images.1⟩, ?_⟩
              rw [ofValue_node, images.2]
            next => cases h
    · exact ofValue_of_payload h

/-- The shape check accepts the images of well-formed values and nothing else. -/
theorem toValue_eq_ok {w : Wire} {v : Value} :
    w.toValue = .ok v ↔ v.WellFormed ∧ ofValue v = w := by
  refine ⟨ofValue_of_toValue, ?_⟩
  rintro ⟨well_formed, rfl⟩
  exact toValue_ofValue well_formed

end Wire

end CellQuery
