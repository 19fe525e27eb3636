import CellQuery.Fixture
import CellQuery.Proofs.Json.Yielding
import CellQuery.Proofs.Wire.Document
import CellQuery.Value.Height

/-! # How high the values of a text can be

    A reader enters a container before it reads what is in there, and the limit on nested
    containers gets smaller with each.  Every level of a wire value takes two of them, the
    node itself and its children, except that the lowest may do without the second.  What
    stands around an expression takes more: four containers in a fixture, which leaves the
    expression a height of 62 of the limit of 127. -/

namespace CellQuery

open Json

/-! ## Wire values -/

namespace Wire

mutual

/-- One for a wire value without children, else one more than the highest child. -/
def height : Wire → Nat
  | ⟨_, _, children⟩ => 1 + heightAll children

/-- The height of the highest wire value of a list, zero if there is none. -/
def heightAll : List Wire → Nat
  | [] => 0
  | w :: ws => max w.height (heightAll ws)

end

theorem height_ofValue (v : Value) : (ofValue v).height = v.height := by
  induction v using Value.of_children with
  | step v ih =>
    have hchildren : heightAll (v.children.map ofValue) = Value.heightAll v.children := by
      generalize v.children = vs at ih
      induction vs with
      | nil => rfl
      | cons u us ihs =>
        obtain ⟨hu, hus⟩ := List.forall_mem_cons.mp ih
        rw [List.map_cons, heightAll, Value.heightAll, hu, ihs hus]
    cases v with
    | node tag children => rw [ofValue_node, height, Value.height_eq]; exact congrArg _ hchildren
    | _ => rfl

theorem heightAll_le {ws : List Wire} {n : Nat} (h : ∀ w ∈ ws, w.height ≤ n) :
    heightAll ws ≤ n := by
  induction ws with
  | nil => exact Nat.zero_le n
  | cons w ws ih =>
    obtain ⟨hw, hws⟩ := List.forall_mem_cons.mp h
    exact Nat.max_le.mpr ⟨hw, ih hws⟩

/-- The children that have been read so far leave room for what is around them. -/
def Draft.Low (room : Nat) (draft : Draft) : Prop :=
  2 * heightAll (draft.children.getD []) ≤ room

/-- The node takes one container, and its children are in another one. -/
theorem yields_finish {room : Nat} {draft : Draft} (h : draft.Low room) :
    Yields draft.finish fun w => 2 * w.height ≤ room + 2 := by
  refine (yields_required fun _ _ => trivial).bind fun tag _ => yields_ok ?_
  unfold Draft.Low at h
  rw [height]
  omega

section fields
variable {room : Nat}

/-- The children are read within what is left after their array has been entered. -/
theorem yields_ofItems
    (ih : ∀ inner < room, ∀ j, Yields (ofJson inner j) fun w => 2 * w.height ≤ inner + 1)
    (items : List Json) :
    Yields (enter room >>= fun inner => ofItems inner items) fun ws =>
      2 * heightAll ws ≤ room := by
  refine (yields_enter room).bind fun inner h => ?_
  rw [ofItems_eq]
  refine (yields_each (ih inner (by omega)) items).mono fun ws hws => ?_
  have hle : heightAll ws ≤ room / 2 := heightAll_le fun w hw => by
    have := hws w hw
    omega
  omega

theorem yields_addField
    (ih : ∀ inner < room, ∀ j, Yields (ofJson inner j) fun w => 2 * w.height ≤ inner + 1)
    (draft : Draft) (key : Key) (value : Json) (h : draft.Low room) :
    Yields (addField room draft key value) (Draft.Low room) := by
  rw [addField.eq_def]
  split
  · exact (yields_true _).bind fun _ _ => yields_ok h
  · split
    · exact (yields_true _).bind fun _ _ => yields_ok h
    · split
      · split
        · next items =>
          refine (Yields.once (yields_ofItems ih items)).bind fun children hchildren => ?_
          refine yields_ok ?_
          cases children with
          | none => exact Nat.zero_le room
          | some ws => exact hchildren ws rfl
        · exact yields_error _
      · split
        · exact yields_ok h
        · exact yields_error _

theorem yields_addItems {names : List String} {draft : Draft}
    (hfield : ∀ draft key value, draft.Low room →
      Yields (addField room draft key value) (Draft.Low room))
    (h : draft.Low room) (items : List Json) :
    Yields (addItems room draft names items) (Draft.Low room) := by
  induction items generalizing names draft with
  | nil => rw [addItems]; exact yields_ok h
  | cons item items ih =>
    cases names with
    | nil => rw [addItems]; exact yields_error _
    | cons name names =>
      rw [addItems]
      exact (hfield draft (some name) item h).bind fun next hnext => ih hnext

end fields

/-- A wire value that is read takes at least two containers for each of its levels, but for the
    lowest. -/
theorem yields_ofJson (room : Nat) (j : Json) :
    Yields (ofJson room j) fun w => 2 * w.height ≤ room + 1 := by
  -- The induction is on the limit, which every node makes smaller.
  induction room using Nat.strongRecOn generalizing j with
  | ind room ih =>
    have hempty : ∀ inner, Draft.empty.Low inner := fun inner => Nat.zero_le inner
    have hfield {inner : Nat} (h : room = inner + 1) (draft : Draft) (key : Key) (value : Json)
        (hlow : draft.Low inner) : Yields (addField inner draft key value) (Draft.Low inner) :=
      yields_addField (fun inner' hlt => ih inner' (by omega)) draft key value hlow
    have hfinish {inner : Nat} {draft : Draft} (h : room = inner + 1) (hlow : draft.Low inner) :
        Yields draft.finish fun w => 2 * w.height ≤ room + 1 :=
      h ▸ yields_finish hlow
    cases j with
    | object fields =>
      rw [ofJson]
      refine (yields_enter room).bind fun inner h => ?_
      rw [addFields_eq]
      exact (yields_addFields (hfield h) (hempty inner) fields).bind fun draft => hfinish h
    | array items =>
      rw [ofJson]
      refine (yields_enter room).bind fun inner h => ?_
      exact (yields_addItems (hfield h) (hempty inner) items).bind fun draft => hfinish h
    | _ => exact yields_error .malformed

end Wire

/-! ## Values, calls and roots -/

/-- A value that is read is as high as its wire value. -/
theorem Value.yields_ofJson (room : Nat) (j : Json) :
    Yields (ofJson room j) fun v => 2 * v.height ≤ room + 1 := by
  refine (Wire.yields_ofJson room j).bind fun w hw => ?_
  split
  · next v hv =>
    have hheight : v.height = w.height := by
      rw [← Wire.height_ofValue, (Wire.ofValue_of_toValue hv).2]
    exact yields_ok (hheight ▸ hw)
  · exact yields_error _

/-- The expression of a call, if it has been read, leaves room for what is around it. -/
def Call.Draft.Low (room : Nat) (draft : Call.Draft) : Prop :=
  ∀ v ∈ draft.result, 2 * v.height ≤ room + 1

theorem Call.yields_addField (room : Nat) (draft : Draft) (key : Key) (value : Json)
    (h : draft.Low room) : Yields (addField room draft key value) (Draft.Low room) := by
  unfold addField
  split
  · exact (yields_true _).bind fun _ _ => yields_ok h
  · split
    · exact (Yields.once (Value.yields_ofJson room value)).bind fun _ hresult => yields_ok hresult
    · split
      · exact yields_ok h
      · exact yields_error _

/-- A call takes one container more than its expression. -/
theorem Call.yields_ofJson (room : Nat) (j : Json) :
    Yields (ofJson room j) fun call => 2 * call.result.height ≤ room := by
  refine (yields_record yields_addField (fun _ _ hv => by cases hv) _ room j).bind fun draft h => ?_
  obtain ⟨inner, rfl, hdraft⟩ := h
  refine (yields_true _).bind fun name _ => ?_
  exact (yields_required hdraft).bind fun v hv => yields_ok hv

namespace Root

/-- Two containers for each level of each expression, and one for each call. -/
def Low (room : Nat) (calls : List Call) : Prop :=
  ∀ call ∈ calls, 2 * call.result.height + 1 ≤ room

theorem yields_addField (room : Nat) (draft : Option (List Call)) (key : Key) (value : Json)
    (h : ∀ calls ∈ draft, Low room calls) :
    Yields (addField room draft key value) fun draft => ∀ calls ∈ draft, Low room calls := by
  unfold addField
  split
  · refine Yields.once ((yields_arrayOf Call.yields_ofJson room value).mono ?_)
    rintro calls ⟨inner, rfl, hcalls⟩ call hcall
    exact Nat.succ_le_succ (hcalls call hcall)
  · split
    · exact yields_ok h
    · exact yields_error _

/-- A root takes two containers more than its calls. -/
theorem yields_ofJson (room : Nat) (j : Json) :
    Yields (ofJson room j) fun root => ∀ call ∈ root.calls, 2 * call.result.height + 2 ≤ room := by
  refine (yields_record yields_addField (fun _ _ h => by cases h) _ room j).bind fun draft h => ?_
  obtain ⟨inner, rfl, hdraft⟩ := h
  refine (yields_required hdraft).bind fun calls hcalls => yields_ok fun call hcall => ?_
  exact Nat.succ_le_succ (hcalls call hcall)

end Root

/-! ## Fixtures -/

namespace Fixture

/-- The expressions of the root, if it has been read, leave room for what is around them. -/
def Draft.Low (room : Nat) (draft : Draft) : Prop :=
  ∀ root ∈ draft.root, ∀ call ∈ root.calls, 2 * call.result.height + 2 ≤ room

theorem yields_addField (room : Nat) (draft : Draft) (key : Key) (value : Json)
    (h : draft.Low room) : Yields (addField room draft key value) (Draft.Low room) := by
  unfold addField
  split
  · exact (yields_true _).bind fun _ _ => yields_ok h
  · split
    · exact (yields_true _).bind fun _ _ => yields_ok h
    · split
      · exact (yields_true _).bind fun _ _ => yields_ok h
      · split
        · exact (Yields.once (Root.yields_ofJson room value)).bind fun _ hroot => yields_ok hroot
        · exact yields_error _

/-- A fixture takes one container more than its root. -/
theorem yields_ofJson (room : Nat) (j : Json) : Yields (ofJson room j) fun fixture =>
    ∀ call ∈ fixture.root.calls, 2 * call.result.height + 3 ≤ room := by
  refine (yields_record yields_addField (fun _ _ h => by cases h) _ room j).bind fun draft h => ?_
  obtain ⟨inner, rfl, hdraft⟩ := h
  refine (yields_required hdraft).bind fun root hroot => yields_ok fun call hcall => ?_
  exact Nat.succ_le_succ (hroot call hcall)

/-- The expressions of the calls of a fixture are no higher than 62, however it is spelled. -/
theorem height_le_of_decodeJson {text : String} {fixture : Fixture}
    (h : decodeJson text = .ok fixture) {call : Call} (hcall : call ∈ fixture.root.calls) :
    call.result.height ≤ 62 := by
  have hnesting : 2 * call.result.height + 3 ≤ maxNesting :=
    yields_decode (yields_ofJson maxNesting) text fixture h call hcall
  have hmax : maxNesting = 127 := rfl
  omega

end Fixture

end CellQuery
