import CellQuery.Proofs.Host.Growth

/-! # Where the values of an evaluation come from

    Records are never put together.  An evaluation copies what it finds on the host and in
    its scopes, takes parts of it, and makes scalars; the placeholder of a parameter without
    a value is all that it gets besides.  So every record that it yields, or records as
    the value of a parameter, is a record that was there before. -/

namespace CellQuery

namespace Memory

open Evaluator

/-- What an evaluation finds: the values of the host and of the scopes that it stands
    under, and all their subtrees. -/
def knownValues (data : Data) (s : State) (scopes : Scopes) : List Value :=
  Value.subtreesAll
    (data.args ++ data.cells ++ s.slots.filterMap Slot.value? ++ scopes.flatten)

/-- A scalar, a known value, or the placeholder of a parameter that has no value. -/
def Original (data : Data) (s : State) (scopes : Scopes) (v : Value) : Prop :=
  v.IsScalar ∨ v ∈ knownValues data s scopes ∨
    ∃ i : UInt64, v = .param i ∧ s.slots[i.toNat]? = some .unbound

section known
variable {data : Data} {s : State} {scopes : Scopes}

theorem mem_knownValues {v : Value}
    (h : v ∈ data.args ++ data.cells ++ s.slots.filterMap Slot.value? ++ scopes.flatten) :
    v ∈ knownValues data s scopes :=
  Value.mem_subtreesAll.mpr ⟨v, h, Value.self_mem_subtrees v⟩

theorem knownValues_field {v c : Value} (hv : v ∈ knownValues data s scopes)
    (hc : c ∈ v.children) : c ∈ knownValues data s scopes := by
  obtain ⟨w, hw, hv⟩ := Value.mem_subtreesAll.mp hv
  have hsub := Value.mem_subtrees_of_child hc (Value.self_mem_subtrees c)
  exact Value.mem_subtreesAll.mpr ⟨w, hw, Value.mem_subtrees_trans hsub hv⟩

/-- A tag whose nodes are their own values is the tag of a leaf. -/
theorem isLeaf_of_primitive {tag : Tag} (h : tag.nodeClass = .primitive) : tag.isLeaf = true := by
  cases tag <;> first | rfl | exact absurd h (by decide)

/-- Nothing but original values is on offer. -/
theorem offers_original (data : Data) (s : State) (scopes : Scopes) :
    Offers data s Value.WellFormed (Original data s scopes) where
  covers_child := Value.WellFormed.child
  primitive he hclass := by
    -- A well-formed node is none of the primitives.
    have hleaf := (Value.wellFormed_node.mp he).1
    rw [isLeaf_of_primitive hclass] at hleaf
    cases hleaf
  scalar hv := .inl hv
  field {v c} hv hc := by
    rcases hv with hscalar | hknown | ⟨i, rfl, _⟩
    · cases v <;> first | exact hscalar.elim | cases hc
    · exact .inr (.inl (knownValues_field hknown hc))
    · cases hc
  arg v hv := .inr (.inl (mem_knownValues (by simp [hv])))
  cell v hv := .inr (.inl (mem_knownValues (by simp [hv])))
  param slot hslot v hv := by
    have hmem : v ∈ s.slots.filterMap Slot.value? := List.mem_filterMap.mpr ⟨slot, hslot, hv⟩
    exact .inr (.inl (mem_knownValues
      (List.mem_append_left _ (List.mem_append_right _ hmem))))
  placeholder i hi := .inr (.inr ⟨i, rfl, hi⟩)

theorem original_scopes : ∀ scope ∈ scopes, ∀ v ∈ scope, Original data s scopes v := by
  intro scope hscope v hv
  have hmem : v ∈ scopes.flatten := List.mem_flatten.mpr ⟨scope, hscope, hv⟩
  exact .inr (.inl (mem_knownValues (List.mem_append_right _ hmem)))

/-- A record is original only if it is known. -/
theorem known_of_node {tag : Tag} {children : List Value}
    (h : Original data s scopes (.node tag children)) :
    .node tag children ∈ knownValues data s scopes := by
  rcases h with hscalar | hknown | ⟨i, hi, _⟩
  · exact hscalar.elim
  · exact hknown
  · cases hi

/-- A value that is recorded is known or a scalar, and not `NIL`. -/
theorem known_or_scalar {v : Value} (h : Recordable (Original data s scopes) v) :
    v ∈ knownValues data s scopes ∨ v.IsScalar ∧ v ≠ .nil := by
  obtain ⟨horiginal, hnil, hparam⟩ := h
  rcases horiginal with hscalar | hknown | ⟨i, rfl, _⟩
  · refine .inr ⟨hscalar, ?_⟩
    rintro rfl
    cases hnil
  · exact .inl hknown
  · cases hparam

end known

/-- Whatever an evaluation yields, as a value or as an element of a list, is a scalar, a value
    that was on the host or in the scopes or part of one, or the placeholder of a parameter
    that has no value; a record is always of the second kind.  Every binding that is
    new afterwards, whether the evaluation has succeeded or not, is to a value of the
    second kind or to a scalar other than `NIL`. -/
theorem results_are_known (data : Data) (limits : Limits) (e : Value) (he : e.WellFormed)
    (scopes : Scopes) (m : Machine State) :
    let known := knownValues data m.host scopes
    let value := eval (host data) limits e scopes m
    let list := evalList (host data) limits e scopes m
    let yielded := fun v => value.outcome = .ok v ∨ ∃ vs, list.outcome = .ok vs ∧ v ∈ vs
    (∀ v, yielded v → v.IsScalar ∨ v ∈ known ∨
      ∃ i : UInt64, v = .param i ∧ m.host.slots[i.toNat]? = some .unbound) ∧
    (∀ tag children, yielded (.node tag children) → .node tag children ∈ known) ∧
    ∀ b, b ∈ value.state.host.bindings ∨ b ∈ list.state.host.bindings →
      b ∉ m.host.bindings → b.2 ∈ known ∨ b.2.IsScalar ∧ b.2 ≠ .nil := by
  intro known value list yielded
  have hoffers := offers_original data m.host scopes
  obtain ⟨hvalue, hresult⟩ := eval_grows hoffers limits he original_scopes
  obtain ⟨hlist, hresults⟩ := evalList_grows hoffers limits he original_scopes
  have hyielded : ∀ v, yielded v → Original data m.host scopes v := by
    rintro v (hv | ⟨vs, hvs, hv⟩)
    · rw [show (eval (host data) limits e scopes m).outcome = .ok v from hv] at hresult
      exact hresult
    · rw [show (evalList (host data) limits e scopes m).outcome = .ok vs from hvs] at hresults
      exact hresults v hv
  refine ⟨hyielded, fun tag children h => known_of_node (hyielded _ h), ?_⟩
  rintro b (hb | hb) hnew
  · exact known_or_scalar (hvalue.new_binding hb hnew).2
  · exact known_or_scalar (hlist.new_binding hb hnew).2

/-- The lock of a cell is read, recorded for a parameter and yielded: all the time it is the
    lock that the caller has passed. -/
theorem results_are_known_lock :
    let lock : Value := .script (.bytes [1]) (.bool true) (.bytes [])
    let data : Data := ⟨[.cell (.uint 5) lock .nil .nil], [], {}⟩
    let m : Machine State := ⟨0, .fresh [none]⟩
    let getLock : Value := .node .getLock [.arg 0]
    let e : Value := .apply (.arg 0) [getLock, .node .equal [.param 0, getLock]]
    (eval (host data) {} e [] m).outcome = .ok lock ∧ lock ∈ knownValues data m.host [] ∧
      (eval (host data) {} e [] m).state.host.bindings = [(0, lock)] := by
  intro lock data m getLock e
  have houtcome : (eval (host data) {} e [] m).outcome = .ok lock := by cbv
  have hbindings : (eval (host data) {} e [] m).state.host.bindings = [(0, lock)] := by cbv
  have he : e.WellFormed := by
    simp [e, getLock, Value.apply, Value.WellFormed, Value.AllWellFormed, Tag.isLeaf,
      Tag.hasPayload]
  have hknown := (results_are_known data {} e he [] m).2.1 .script
    [.bytes [1], .bool true, .bytes []] (.inl houtcome)
  exact ⟨houtcome, hknown, hbindings⟩

end Memory

end CellQuery
