import CellQuery.Value.Height

/-! # Subtrees and heights

    What is proved about an evaluation is proved by induction over the expression, and
    what is proved about nested queries by induction over its height.  Both
    need to know how a value, its children and its subtrees are related:

    * `Value.of_children` is the induction over a value by its children.
    * `Value.subtrees` lists a value and everything below it.
    * `Value.WellFormed.child` says that the children of a well-formed value are well formed.
    * `Value.scanHeight_eq` says that the height by a list of pending nodes is
      the height of the tree. -/

namespace CellQuery.Value

/-! ## Induction by children -/

section induction
variable {P : Value → Prop}

mutual

/-- What a value inherits from its children holds of every value. -/
theorem of_children (step : ∀ v, (∀ c ∈ v.children, P c) → P v) : ∀ v, P v
  | uint _ => step _ (by simp [children])
  | nil => step _ (by simp [children])
  | bool _ => step _ (by simp [children])
  | bytes _ => step _ (by simp [children])
  | arg _ => step _ (by simp [children])
  | param _ => step _ (by simp [children])
  | node _ cs => step _ (of_children_all step cs)

theorem of_children_all (step : ∀ v, (∀ c ∈ v.children, P c) → P v) :
    ∀ vs : List Value, ∀ c ∈ vs, P c
  | [] => by simp
  | v :: vs => by
    have hv := of_children step v
    have hvs := of_children_all step vs
    exact List.forall_mem_cons.mpr ⟨hv, hvs⟩

end

end induction

/-! ## Heights -/

theorem height_eq (v : Value) : v.height = 1 + heightAll v.children := by
  cases v <;> simp [height, children, heightAll]

theorem height_le_heightAll {v : Value} {vs : List Value} (h : v ∈ vs) :
    v.height ≤ heightAll vs := by
  induction vs with
  | nil => simp at h
  | cons w ws ih =>
    simp only [heightAll]
    rcases List.mem_cons.mp h with rfl | h
    · exact Nat.le_max_left _ _
    · exact Nat.le_trans (ih h) (Nat.le_max_right _ _)

@[simp]
theorem heightAll_singleton (v : Value) : heightAll [v] = v.height := by
  simp [heightAll]

theorem height_child_lt {v c : Value} (h : c ∈ v.children) : c.height < v.height := by
  have := height_le_heightAll h
  rw [height_eq v]
  omega

/-! ## Subtrees -/

mutual

/-- A value and everything below it, parents first. -/
def subtrees : Value → List Value
  | node tag children => node tag children :: subtreesAll children
  | v => [v]

/-- The subtrees of each value of a list. -/
def subtreesAll : List Value → List Value
  | [] => []
  | v :: vs => v.subtrees ++ subtreesAll vs

end

@[simp]
theorem mem_subtreesAll {u : Value} {vs : List Value} :
    u ∈ subtreesAll vs ↔ ∃ v ∈ vs, u ∈ v.subtrees := by
  induction vs with
  | nil => simp [subtreesAll]
  | cons v vs ih => simp [subtreesAll, ih]

theorem mem_subtrees {u v : Value} :
    u ∈ v.subtrees ↔ u = v ∨ ∃ c ∈ v.children, u ∈ c.subtrees := by
  cases v <;> simp [subtrees, children, mem_subtreesAll]

@[simp]
theorem self_mem_subtrees (v : Value) : v ∈ v.subtrees :=
  mem_subtrees.mpr (.inl rfl)

theorem mem_subtrees_of_child {u v c : Value} (hc : c ∈ v.children) (hu : u ∈ c.subtrees) :
    u ∈ v.subtrees :=
  mem_subtrees.mpr (.inr ⟨c, hc, hu⟩)

/-- A subtree of a subtree is a subtree. -/
theorem mem_subtrees_trans {t u v : Value} (ht : t ∈ u.subtrees) (hu : u ∈ v.subtrees) :
    t ∈ v.subtrees := by
  induction v using of_children with
  | step v ih =>
    rcases mem_subtrees.mp hu with rfl | ⟨c, hc, hu⟩
    · exact ht
    · exact mem_subtrees_of_child hc (ih c hc hu)

theorem height_le_of_mem_subtrees {u v : Value} (h : u ∈ v.subtrees) : u.height ≤ v.height := by
  induction v using of_children with
  | step v ih =>
    rcases mem_subtrees.mp h with rfl | ⟨c, hc, hu⟩
    · exact Nat.le_refl _
    · have := ih c hc hu
      have := height_child_lt hc
      omega

/-! ## Well-formed values -/

theorem allWellFormed_iff {vs : List Value} : AllWellFormed vs ↔ ∀ v ∈ vs, v.WellFormed := by
  induction vs with
  | nil => simp [AllWellFormed]
  | cons v vs ih => simp [AllWellFormed, ih]

theorem wellFormed_node {tag : Tag} {children : List Value} :
    (node tag children).WellFormed ↔
      tag.isLeaf = false ∧ ∀ c ∈ children, c.WellFormed := by
  rw [WellFormed, allWellFormed_iff]

theorem WellFormed.child {v c : Value} (hv : v.WellFormed) (hc : c ∈ v.children) :
    c.WellFormed := by
  cases v with
  | node tag children => exact (wellFormed_node.mp hv).2 c hc
  | _ => cases hc

/-! ## The height by a list of pending nodes -/

/-- The deepest level at or below the pending nodes. -/
def deepestLevel : List (Value × Nat) → Nat
  | [] => 0
  | (v, level) :: rest => max (level + heightAll v.children) (deepestLevel rest)

theorem deepestLevel_append (xs ys : List (Value × Nat)) :
    deepestLevel (xs ++ ys) = max (deepestLevel xs) (deepestLevel ys) := by
  induction xs with
  | nil => simp [deepestLevel]
  | cons x xs ih =>
    obtain ⟨v, level⟩ := x
    simp only [List.cons_append, deepestLevel, ih]
    omega

/-- A level and the nodes just below it reach as deep as the level and the height
    of the highest of these nodes. -/
theorem deepestLevel_below (vs : List Value) (level : Nat) :
    max level (deepestLevel (vs.map fun v => (v, level + 1))) = level + heightAll vs := by
  induction vs with
  | nil => simp [deepestLevel, heightAll]
  | cons v vs ih =>
    have := height_eq v
    simp only [List.map_cons, deepestLevel, heightAll]
    omega

theorem scanFrom_eq (deepest : Nat) (pending : List (Value × Nat)) :
    scanFrom deepest pending = max deepest (deepestLevel pending) := by
  induction deepest, pending using scanFrom.induct with
  | case1 deepest => simp [scanFrom, deepestLevel]
  | case2 deepest v level rest ih =>
    have := deepestLevel_below v.children level
    rw [scanFrom, ih, deepestLevel_append]
    simp only [deepestLevel]
    omega

/-- Both ways to find a height agree. -/
@[simp]
theorem scanHeight_eq (v : Value) : v.scanHeight = v.height := by
  rw [scanHeight, scanFrom_eq, height_eq]
  simp [deepestLevel]

end CellQuery.Value
