import CellQuery.Host.Memory

/-! # Requests to bind a parameter

    Which of four things a request does depends on the slot of the parameter only:

    * A parameter that is not declared is unknown.
    * One that has the requested value already keeps it, and the request is granted.
    * One that has another value keeps that, and the request is a conflict.
    * One that has no value is solved, and this alone changes the state.

    `Memory.bind_cases` says so once, for all that is proved about requests.  What is known of the
    state afterwards (`Memory.bind_changes`) and of a refusal (`Memory.bind_refused`) is read
    off it. -/

namespace CellQuery

namespace Memory

/-- The parameter has the value, be it supplied or solved. -/
def State.Holds (s : State) (i : Nat) (v : Value) : Prop :=
  s.slots[i]? = some (.supplied v) ∨ s.slots[i]? = some (.solved v)

/-- The same state, but with the parameter solved. -/
def State.withSolved (i : Nat) (v : Value) (s : State) : State :=
  { s with slots := s.slots.set i (.solved v) }

variable {s : State} {i : Nat} {v w : Value}

theorem holds_of_value? {slot : Slot} (hslot : s.slots[i]? = some slot)
    (hvalue : slot.value? = some v) : s.Holds i v := by
  cases slot with
  | supplied w => cases hvalue; exact .inl hslot
  | unbound => cases hvalue
  | solved w => cases hvalue; exact .inr hslot

theorem State.Holds.value? (h : s.Holds i v) :
    ∃ slot, s.slots[i]? = some slot ∧ slot.value? = some v := by
  rcases h with hslot | hslot
  · exact ⟨.supplied v, hslot, rfl⟩
  · exact ⟨.solved v, hslot, rfl⟩

/-- A parameter has one value at most. -/
theorem State.Holds.unique (hv : s.Holds i v) (hw : s.Holds i w) : v = w := by
  obtain ⟨slot, hslot, hvalue⟩ := hv.value?
  obtain ⟨slot', hslot', hvalue'⟩ := hw.value?
  obtain rfl := Option.some.inj (hslot.symm.trans hslot')
  exact Option.some.inj (hvalue.symm.trans hvalue')

theorem State.Holds.lt_length (h : s.Holds i v) : i < s.slots.length := by
  obtain ⟨slot, hslot, _⟩ := h.value?
  exact (List.getElem?_eq_some_iff.mp hslot).1

theorem State.Holds.not_unbound (h : s.Holds i v) : s.slots[i]? ≠ some .unbound := by
  obtain ⟨slot, hslot, hvalue⟩ := h.value?
  rw [hslot]
  rintro ⟨⟩
  cases hvalue

/-- A parameter that is solved has the value that it is solved with. -/
theorem holds_withSolved (hslot : s.slots[i]? = some .unbound) : (s.withSolved i v).Holds i v := by
  obtain ⟨hlt, _⟩ := List.getElem?_eq_some_iff.mp hslot
  exact .inr (List.getElem?_set_self hlt)

theorem State.holds_iff : s.Holds i v ↔ s.slots[i]?.map Slot.value? = some (some v) := by
  constructor
  · intro h
    obtain ⟨slot, hslot, hvalue⟩ := h.value?
    rw [hslot, Option.map_some, hvalue]
  · intro h
    obtain ⟨slot, hslot, hvalue⟩ := Option.map_eq_some_iff.mp h
    exact holds_of_value? hslot hvalue

theorem bind_of_none (h : s.slots[i]? = none) :
    bind i w s = (.error (.own (.unknownParam i s.slots.length)), s) := by
  simp only [bind, h]

theorem bind_of_holds (h : s.Holds i v) :
    bind i w s = if v = w then (.ok (), s) else (.error (.own (.conflict i v w)), s) := by
  obtain ⟨slot, hslot, hvalue⟩ := h.value?
  simp only [bind, hslot, hvalue]

theorem bind_of_unbound (h : s.slots[i]? = some .unbound) :
    bind i w s = (.ok (), s.withSolved i w) := by
  simp only [bind, h, Slot.value?, State.withSolved]

/-- All that a request can do. -/
theorem bind_cases (i : Nat) (v : Value) (s : State) :
    (s.slots[i]? = none ∧
      bind i v s = (.error (.own (.unknownParam i s.slots.length)), s)) ∨
    (s.Holds i v ∧ bind i v s = (.ok (), s)) ∨
    (∃ w, s.Holds i w ∧ w ≠ v ∧ bind i v s = (.error (.own (.conflict i w v)), s)) ∨
    (s.slots[i]? = some .unbound ∧ bind i v s = (.ok (), s.withSolved i v)) := by
  cases hslot : s.slots[i]? with
  | none => exact .inl ⟨rfl, bind_of_none hslot⟩
  | some slot =>
    cases hvalue : slot.value? with
    | none =>
      obtain rfl : slot = .unbound := by cases slot <;> first | rfl | cases hvalue
      exact .inr (.inr (.inr ⟨rfl, bind_of_unbound hslot⟩))
    | some w =>
      have hholds := holds_of_value? hslot hvalue
      by_cases hw : w = v
      · subst hw
        exact .inr (.inl ⟨hholds, by rw [bind_of_holds hholds, if_pos rfl]⟩)
      · exact .inr (.inr (.inl ⟨w, hholds, hw, by rw [bind_of_holds hholds, if_neg hw]⟩))

/-- A request solves a parameter, or changes nothing. -/
theorem bind_changes (i : Nat) (v : Value) (s : State) :
    (bind i v s).2 = s ∨
      s.slots[i]? = some .unbound ∧ (bind i v s).2 = s.withSolved i v := by
  rcases bind_cases i v s with ⟨_, hbind⟩ | ⟨_, hbind⟩ | ⟨_, _, _, hbind⟩ | ⟨hslot, hbind⟩
  · exact .inl (by rw [hbind])
  · exact .inl (by rw [hbind])
  · exact .inl (by rw [hbind])
  · exact .inr ⟨hslot, by rw [hbind]⟩

/-- A refused request changes nothing.  The parameter is unknown if it is not declared, and has
    another value if it is. -/
theorem bind_refused {r : Refusal Error} (h : (bind i v s).1 = .error r) :
    (bind i v s).2 = s ∧
      (s.slots.length ≤ i ∧ r = .own (.unknownParam i s.slots.length) ∨
        i < s.slots.length ∧
          ∃ held, s.Holds i held ∧ held ≠ v ∧ r = .own (.conflict i held v)) := by
  rcases bind_cases i v s with ⟨hnone, hbind⟩ | ⟨_, hbind⟩ | ⟨w, hw, hne, hbind⟩ | ⟨_, hbind⟩
  · rw [hbind] at h ⊢
    cases h
    exact ⟨rfl, .inl ⟨List.getElem?_eq_none_iff.mp hnone, rfl⟩⟩
  · rw [hbind] at h; cases h
  · rw [hbind] at h ⊢
    cases h
    exact ⟨rfl, .inr ⟨hw.lt_length, w, hw, hne, rfl⟩⟩
  · rw [hbind] at h; cases h

end Memory

end CellQuery
