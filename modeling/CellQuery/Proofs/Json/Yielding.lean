import CellQuery.Proofs.Json.Holding

/-! # What readers yield

    `Yields x P` says that `x` has the property `P` if it is a result at all.  A reader is put
    together of few parts, and there is a rule for each of them; so what is read of a text is
    known from the code of the reader, without a look at the text. -/

namespace CellQuery.Json

variable {α β : Type} {P : α → Prop} {Q : β → Prop}

/-- Every result has the property. -/
def Yields (x : Except DecodeError α) (P : α → Prop) : Prop :=
  ∀ a, x = .ok a → P a

/-! ## Results -/

theorem yields_ok {a : α} (h : P a) : Yields (.ok a) P := by
  intro b hb
  cases hb
  exact h

theorem yields_error (e : DecodeError) : Yields (.error e) P := by
  intro a ha
  cases ha

theorem yields_true (x : Except DecodeError α) : Yields x fun _ => True :=
  fun _ _ => trivial

theorem Yields.mono {P' : α → Prop} {x : Except DecodeError α} (h : Yields x P)
    (hP : ∀ a, P a → P' a) : Yields x P' :=
  fun a ha => hP a (h a ha)

theorem Yields.bind {x : Except DecodeError α} {f : α → Except DecodeError β} (hx : Yields x P)
    (hf : ∀ a, P a → Yields (f a) Q) : Yields (x >>= f) Q := by
  cases x with
  | error e => exact yields_error e
  | ok a => exact hf a (hx a rfl)

theorem Yields.map {x : Except DecodeError α} {f : α → β} (hx : Yields x fun a => Q (f a)) :
    Yields (x.map f) Q := by
  cases x with
  | error e => exact yields_error e
  | ok a => exact yields_ok (hx a rfl)

/-! ## Containers -/

theorem yields_enter (room : Nat) : Yields (enter room) fun inner => room = inner + 1 := by
  cases room with
  | zero => exact yields_error _
  | succ inner => exact yields_ok rfl

theorem yields_each {f : Json → Except DecodeError α} (h : ∀ j, Yields (f j) P) (js : List Json) :
    Yields (each f js) fun as => ∀ a ∈ as, P a := by
  induction js with
  | nil => exact yields_ok (by simp)
  | cons j js ih =>
    rw [each_cons]
    refine (h j).bind fun a ha => Yields.map (ih.mono fun as has => ?_)
    exact List.forall_mem_cons.mpr ⟨ha, has⟩

/-- The items of an array have one container less to themselves. -/
theorem yields_arrayOf {P : Nat → α → Prop} {f : Nat → Json → Except DecodeError α}
    (h : ∀ room j, Yields (f room j) (P room)) (room : Nat) (j : Json) :
    Yields (arrayOf room f j) fun as => ∃ inner, room = inner + 1 ∧ ∀ a ∈ as, P inner a := by
  cases j with
  | array items =>
    refine (yields_enter room).bind fun inner hinner => ?_
    exact (yields_each (h inner) items).mono fun as has => ⟨inner, hinner, has⟩
  | _ => exact yields_error _

/-! ## Records -/

/-- What every field of a record keeps, all of them together keep. -/
theorem yields_addFields {add : α → Key → Json → Except DecodeError α}
    (h : ∀ draft key value, P draft → Yields (add draft key value) P) {draft : α}
    (hdraft : P draft) (fields : List (Key × Json)) : Yields (addFields add draft fields) P := by
  induction fields generalizing draft with
  | nil => exact yields_ok hdraft
  | cons field fields ih =>
    have hfield := h draft field.1 field.2 hdraft
    rw [addFields]
    cases hadd : add draft field.1 field.2 with
    | error e => exact yields_error e
    | ok next => exact ih (hfield next hadd)

/-- The fields of a record have one container less to themselves. -/
theorem yields_record {P : Nat → α → Prop} {add : Nat → α → Key → Json → Except DecodeError α}
    (h : ∀ room draft key value, P room draft → Yields (add room draft key value) (P room))
    {draft : α} (hdraft : ∀ room, P room draft) (names : List String) (room : Nat) (j : Json) :
    Yields (record names room draft add j) fun last =>
      ∃ inner, room = inner + 1 ∧ P inner last := by
  unfold record
  split
  · exact yields_error _
  · next fields _ =>
    refine (yields_enter room).bind fun inner hinner => ?_
    exact (yields_addFields (h inner) (hdraft inner) fields).mono fun last hlast =>
      ⟨inner, hinner, hlast⟩

/-- A field that is read holds what its reader yields. -/
theorem Yields.once {given : Option α} {x : Except DecodeError α} (h : Yields x P) :
    Yields (Json.once given x) fun field => ∀ a ∈ field, P a := by
  unfold Json.once
  split
  · exact yields_error _
  · refine Yields.map fun a ha b hb => ?_
    cases hb
    exact h a ha

/-- A field that must be there holds what it holds if it is there. -/
theorem yields_required {field : Option α} (h : ∀ a ∈ field, P a) :
    Yields (required field) P := by
  cases field with
  | none => exact yields_error _
  | some a => exact yields_ok (h a rfl)

/-! ## Texts -/

/-- What is read of a whole text has been read within the limit on nested containers. -/
theorem yields_decode {f : Nat → Json → Except DecodeError α}
    (h : ∀ j, Yields (f maxNesting j) P) (text : String) : Yields (decode f text) P := by
  unfold decode
  refine (h _).bind fun a ha => ?_
  split
  · exact yields_ok ha
  · exact yields_error _

end CellQuery.Json
