import CellQuery.Proofs.Host.Answer
import CellQuery.Proofs.Host.Binding

/-! # Growth: what an evaluation does to the host

    An evaluation solves parameters that have no value yet, and does nothing else to the
    host.  Which values it solves them with depends on the values that it gets to see:

    * `Memory.Grows` relates the states before and after.  It is kept by every request to
      bind a parameter; a query leaves the host as it was, so what its predicates solve
      does not count.
    * `Memory.Offers` lists where an evaluation gets its values from.  A set of values
      with all of these is never left: every result belongs to it, and so does
      every value that is recorded (`Memory.eval_grows`). -/

namespace CellQuery

/-- The values that have been found in scopes. -/
def Scopes.Found.values : Scopes.Found → List Value
  | bound v => [v]
  | outside _ => []

namespace Memory

open Evaluator

/-! ## States -/

/-- The second state is the first one, but some parameters without a value have been solved,
    with values that may be recorded. -/
structure Grows (recordable : Value → Prop) (s t : State) : Prop where
  charge : t.charge = s.charge
  slot : ∀ i : Nat, t.slots[i]? = s.slots[i]? ∨
    s.slots[i]? = some .unbound ∧ ∃ v, t.slots[i]? = some (.solved v) ∧ recordable v

variable {recordable : Value → Prop} {s t u : State}

theorem Grows.refl (s : State) : Grows recordable s s :=
  ⟨rfl, fun _ => .inl rfl⟩

theorem Grows.trans (hst : Grows recordable s t) (htu : Grows recordable t u) :
    Grows recordable s u := by
  refine ⟨htu.charge.trans hst.charge, fun i => ?_⟩
  rcases htu.slot i with hsame | ⟨hunbound, v, hv, hok⟩
  · rw [hsame]
    exact hst.slot i
  · rcases hst.slot i with hsame | ⟨_, w, hw, _⟩
    · exact .inr ⟨hsame ▸ hunbound, v, hv, hok⟩
    · -- A parameter that was solved on the way is not without a value.
      rw [hw] at hunbound
      cases hunbound

theorem Grows.imp {recordable' : Value → Prop} (h : Grows recordable s t)
    (himp : ∀ v, recordable v → recordable' v) : Grows recordable' s t := by
  refine ⟨h.charge, fun i => ?_⟩
  rcases h.slot i with hsame | ⟨hunbound, v, hv, hok⟩
  · exact .inl hsame
  · exact .inr ⟨hunbound, v, hv, himp v hok⟩

/-- A parameter that has a value keeps it. -/
theorem Grows.slot_of_ne (h : Grows recordable s t) {i : Nat}
    (hne : s.slots[i]? ≠ some .unbound) : t.slots[i]? = s.slots[i]? := by
  rcases h.slot i with hsame | ⟨hunbound, _⟩
  · exact hsame
  · exact absurd hunbound hne

theorem Grows.antisymm (h : Grows recordable s t) (h' : Grows recordable t s) : s = t := by
  have hslots : s.slots = t.slots := by
    apply List.ext_getElem?
    intro i
    rcases h.slot i with hsame | ⟨hunbound, v, hv, _⟩
    · exact hsame.symm
    · -- What has been solved on the way there is not lost on the way back.
      rw [h'.slot_of_ne (by simp [hv])]
  cases s
  cases t
  cases hslots
  cases h.charge
  rfl

/-- A parameter that has a value has it afterwards. -/
theorem Grows.holds (h : Grows recordable s t) {i : Nat} {v : Value} (hv : s.Holds i v) :
    t.Holds i v := by
  obtain ⟨slot, hslot, hvalue⟩ := hv.value?
  have hne : s.slots[i]? ≠ some .unbound := by
    rw [hslot]
    rintro ⟨⟩
    cases hvalue
  exact holds_of_value? ((h.slot_of_ne hne).trans hslot) hvalue

/-- No parameter is declared on the way. -/
theorem Grows.length (h : Grows recordable s t) : t.slots.length = s.slots.length := by
  have hnone (i : Nat) : t.slots[i]? = none ↔ s.slots[i]? = none := by
    rcases h.slot i with hsame | ⟨hunbound, v, hv, _⟩
    · rw [hsame]
    · simp [hunbound, hv]
  simp only [List.getElem?_eq_none_iff] at hnone
  exact Nat.le_antisymm ((hnone _).mpr (Nat.le_refl _)) ((hnone _).mp (Nat.le_refl _))

/-- A request to bind a parameter solves it if it has no value. -/
theorem grows_bind (i : Nat) {v : Value} (hv : recordable v) (s : State) :
    Grows recordable s (bind i v s).2 := by
  rcases bind_changes i v s with hstate | ⟨hslot, hstate⟩
  · rw [hstate]
    exact .refl s
  · rw [hstate]
    refine ⟨rfl, fun j => ?_⟩
    obtain ⟨hlt, _⟩ := List.getElem?_eq_some_iff.mp hslot
    by_cases hj : j = i
    · subst hj
      exact .inr ⟨hslot, v, List.getElem?_set_self hlt, hv⟩
    · exact .inl (List.getElem?_set_ne (Ne.symm hj))

/-- The host grows by anything at all: that is what a caller may ask to bind. -/
abbrev State.GrowsTo (s t : State) : Prop :=
  Grows (fun _ => True) s t

/-! ### Bindings -/

@[simp]
theorem mem_bindings {i : Nat} {v : Value} :
    (i, v) ∈ s.bindings ↔ s.slots[i]? = some (.solved v) := by
  unfold State.bindings
  simp only [List.mem_filterMap, Prod.exists, List.mem_zipIdx_iff_getElem?, Option.map_eq_some_iff,
    Prod.mk.injEq]
  constructor
  · rintro ⟨slot, j, hslot, w, hw, rfl, rfl⟩
    cases slot with
    | solved w' => cases hw; exact hslot
    | _ => cases hw
  · intro h
    exact ⟨.solved v, i, h, v, rfl, rfl, rfl⟩

theorem Grows.mem_bindings (h : Grows recordable s t) {b : Nat × Value} (hb : b ∈ s.bindings) :
    b ∈ t.bindings := by
  obtain ⟨i, v⟩ := b
  rw [Memory.mem_bindings] at hb ⊢
  rw [h.slot_of_ne (by simp [hb]), hb]

/-- What is recorded on the way is recorded for a parameter that had no value. -/
theorem Grows.new_binding (h : Grows recordable s t) {b : Nat × Value} (hb : b ∈ t.bindings)
    (hnew : b ∉ s.bindings) : s.slots[b.1]? = some .unbound ∧ recordable b.2 := by
  obtain ⟨i, v⟩ := b
  rw [Memory.mem_bindings] at hb hnew
  rcases h.slot i with hsame | ⟨hunbound, w, hw, hok⟩
  · exact absurd (hsame ▸ hb) hnew
  · rw [hw] at hb
    cases hb
    exact ⟨hunbound, hok⟩

/-- Where every parameter has a value nothing grows. -/
theorem Grows.eq_of_bound (h : Grows recordable s t) (hbound : ∀ slot ∈ s.slots, slot ≠ .unbound) :
    t = s := by
  have hslots : t.slots = s.slots := by
    apply List.ext_getElem?
    intro i
    exact h.slot_of_ne fun hunbound => hbound _ (List.mem_of_getElem? hunbound) rfl
  cases s
  cases t
  cases hslots
  cases h.charge
  rfl

/-! ## Values that flow -/

/-- A set of values with everything that an evaluation of the given expressions can get hold
    of, on a host that is in the given state when it starts. -/
structure Offers (data : Data) (s : State) (covers good : Value → Prop) : Prop where
  covers_child : ∀ {e c : Value}, covers e → c ∈ e.children → covers c
  primitive : ∀ {tag : Tag} {children : List Value}, covers (.node tag children) →
    tag.nodeClass = .primitive → good (.node tag children)
  scalar : ∀ {v : Value}, v.IsScalar → good v
  field : ∀ {v c : Value}, good v → c ∈ v.children → good c
  arg : ∀ v ∈ data.args, good v
  cell : ∀ v ∈ data.cells, good v
  param : ∀ slot ∈ s.slots, ∀ v, slot.value? = some v → good v
  placeholder : ∀ i : UInt64, s.slots[i.toNat]? = some .unbound → good (.param i)

/-- A good value that `EQUAL` asks to record. -/
def Recordable (good : Value → Prop) (v : Value) : Prop :=
  good v ∧ v.isNil = false ∧ v.isParam = false

/-- From a host that has grown from the given state the step ends with such a host, and its
    result holds good values only. -/
def Yields (s : State) (good : Value → Prop) {α : Type} (held : α → List Value)
    (x : Evaluator.Step State Error α) : Prop :=
  ∀ m, Grows (Recordable good) s m.host → Grows (Recordable good) s (x m).state.host ∧
    (x m).outcome.Ensures fun a => ∀ v ∈ held a, good v

section flow
variable {data : Data} {covers good : Value → Prop}

theorem yields_lift {α : Type} {held : α → List Value} {x : Outcome (EvalError Error) α}
    (hx : x.Ensures fun a => ∀ v ∈ held a, good v) : Yields s good held (Run.lift x) :=
  fun _ hm => ⟨hm, hx⟩

theorem yields_bind {α β : Type} {held : α → List Value} {held' : β → List Value}
    {x : Evaluator.Step State Error α} {f : α → Evaluator.Step State Error β}
    (hx : Yields s good held x) (hf : ∀ a, (∀ v ∈ held a, good v) → Yields s good held' (f a)) :
    Yields s good held' (x >>= f) := by
  intro m hm
  obtain ⟨hgrown, hgood⟩ := hx m hm
  cases h : (x m).outcome with
  | ok a =>
    rw [h] at hgood
    rw [Run.bind_of_ok h]
    exact hf a hgood _ hgrown
  | error e => rw [Run.bind_of_error h]; exact ⟨hgrown, trivial⟩
  | fault f => rw [Run.bind_of_fault h]; exact ⟨hgrown, trivial⟩

theorem yields_activation {α : Type} {held : α → List Value} (limits : Limits)
    {x : Evaluator.Step State Error α} (hx : Yields s good held x) :
    Yields s good held (activation limits x) := by
  intro m hm
  unfold activation
  split
  · exact ⟨hm, trivial⟩
  · obtain ⟨hgrown, hgood⟩ := hx { m with depth := m.depth + 1 } hm
    simp only
    split
    · exact ⟨hgrown, hgood⟩
    · exact ⟨hgrown, trivial⟩

variable (h : Offers data s covers good)
include h

theorem Offers.lookupArg {scopes : Scopes} (hscopes : ∀ scope ∈ scopes, ∀ v ∈ scope, good v)
    (i : UInt64) : Yields s good ([·]) (lookupArg (host data) i scopes) := by
  have hfind : (scopes.find i.toNat : Outcome (EvalError Error) Scopes.Found).Ensures
      fun place => ∀ v ∈ place.values, good v := by
    refine (find_ensures scopes i.toNat).imp fun place hplace v hv => ?_
    cases place with
    | bound w =>
      obtain ⟨scope, hscope, hw⟩ := hplace w rfl
      rw [List.mem_singleton.mp hv]
      exact hscopes scope hscope w hw
    | outside n => cases hv
  apply yields_bind (yields_lift hfind)
  intro place hplace
  cases place with
  | bound v => exact yields_lift (x := .ok v) hplace
  | outside n =>
    have hask : Yields s good Option.toList (askArg (host data) n) := by
      intro m hm
      refine ⟨hm, fun v hv => h.arg v ?_⟩
      exact List.mem_of_getElem? (Option.mem_toList.mp hv)
    apply yields_bind hask
    intro found hfound
    cases found with
    | some v => exact yields_lift (x := .ok v) hfound
    | none => exact yields_lift (x := .error (.lookup .arg i)) trivial

/-- A parameter is what it was at the start, or has been solved on the way. -/
theorem Offers.askParam (i : UInt64) :
    Yields s good Option.toList (askParam (host data) i.toNat) := by
  intro m hm
  refine ⟨hm, fun v hv => ?_⟩
  obtain ⟨slot, hslot, rfl⟩ := Option.map_eq_some_iff.mp (Option.mem_toList.mp hv)
  rcases hm.slot i.toNat with hsame | ⟨_, w, hw, hok⟩
  · rw [hsame] at hslot
    cases hvalue : slot.value? with
    | some w => exact h.param slot (List.mem_of_getElem? hslot) w hvalue
    | none =>
      obtain rfl : slot = .unbound := by cases slot <;> first | rfl | cases hvalue
      rw [Option.getD_none, UInt64.ofNat_toNat]
      exact h.placeholder i hslot
  · rw [hw] at hslot
    cases hslot
    exact hok.1

/-- A query changes nothing and finds cells of the host. -/
theorem Offers.askQuery (q : Value) : Yields s good id (askQuery (host data) q) := by
  intro m hm
  have hquery : (host data).query = answer data := rfl
  have hstate := answer_state data q m.host
  have hcells := answer_sublist data q m.host
  unfold Evaluator.askQuery
  rw [hquery]
  simp only [hstate]
  split
  · next cells heq =>
    rw [heq] at hcells
    exact ⟨hm, fun v hv => h.cell v (hcells.subset hv)⟩
  · exact ⟨hm, trivial⟩
  · exact ⟨hm, trivial⟩

omit h in
theorem yields_askBind (i : Nat) {v : Value} (hv : Recordable good v) :
    Yields s good (fun _ => []) (askBind (host data) i v) := by
  intro m hm
  have hgrown := hm.trans (grows_bind i hv m.host)
  have hbind : (host data).bind = bind := rfl
  unfold askBind
  rw [hbind]
  split
  · next heq =>
    rw [heq] at hgrown
    exact ⟨hgrown, by simp [Outcome.Ensures]⟩
  · next heq =>
    rw [heq] at hgrown
    exact ⟨hgrown, trivial⟩

/-- Good values are never left. -/
def Offers.flow (limits : Limits) : Flow (host data) limits (host data) limits where
  covers := covers
  scopes _ s₁ _ := ∀ scope ∈ s₁, ∀ v ∈ scope, good v
  good := good
  -- There is one evaluation only, so the second step is the first one again.
  inside _ _ held x _ := Yields s good held x
  whole _ _ held x _ := Yields s good held x
  covers_child := h.covers_child
  good_scalar := h.scalar
  good_field := h.field
  good_primitive := h.primitive
  operand hscopes _ := hscopes
  body hscopes _ hscope := List.forall_mem_cons.mpr ⟨hscope, hscopes⟩
  lift _ _ hx := yields_lift hx
  bind := yields_bind
  child _ _ hx := hx
  iterations {e} elements _ := by
    obtain ⟨x, _, hlift⟩ := checkIterations_eq_lift (σ := State) (ε := Error) limits e.tag elements
    rw [hlift]
    apply yields_lift
    cases x with
    | ok u => simp [Outcome.Ensures]
    | _ => trivial
  arg {i} _ _ _ hscopes := h.lookupArg hscopes i
  param {i} _ := h.askParam i
  binding i _ _ _ hgood hnil hparam := yields_askBind i ⟨hgood, hnil, hparam⟩
  query {e} _ _ := h.askQuery e
  activation _ hx := yields_activation limits hx

end flow

/-- An evaluation yields a good value, if any, and records good values only. -/
theorem eval_grows {data : Data} {m : Machine State} {covers good : Value → Prop}
    (h : Offers data m.host covers good) (limits : Limits) {e : Value} (he : covers e)
    {scopes : Scopes} (hscopes : ∀ scope ∈ scopes, ∀ v ∈ scope, good v) :
    Grows (Recordable good) m.host (eval (host data) limits e scopes m).state.host ∧
      (eval (host data) limits e scopes m).outcome.Ensures good := by
  have hstart : (h.flow limits).scopes e scopes scopes := hscopes
  obtain ⟨hgrown, hgood⟩ := (h.flow limits).eval he hstart m (.refl m.host)
  exact ⟨hgrown, hgood.imp fun v hv => hv v (List.mem_singleton_self v)⟩

theorem evalList_grows {data : Data} {m : Machine State} {covers good : Value → Prop}
    (h : Offers data m.host covers good) (limits : Limits) {e : Value} (he : covers e)
    {scopes : Scopes} (hscopes : ∀ scope ∈ scopes, ∀ v ∈ scope, good v) :
    Grows (Recordable good) m.host (evalList (host data) limits e scopes m).state.host ∧
      (evalList (host data) limits e scopes m).outcome.Ensures fun vs => ∀ v ∈ vs, good v := by
  have hstart : (h.flow limits).scopes e scopes scopes := hscopes
  exact (h.flow limits).evalList he hstart m (.refl m.host)

/-! ## Any values -/

/-- The set of all values has everything that an evaluation can get hold of. -/
theorem offers_any (data : Data) (s : State) :
    Offers data s (fun _ => True) (fun _ => True) where
  covers_child _ _ := trivial
  primitive _ _ := trivial
  scalar _ := trivial
  field _ _ := trivial
  arg _ _ := trivial
  cell _ _ := trivial
  param _ _ _ _ := trivial
  placeholder _ _ := trivial

/-- What `EQUAL` never records: the absent value and a parameter. -/
abbrev Solution (v : Value) : Prop :=
  v.isNil = false ∧ v.isParam = false

theorem eval_grows_solutions (data : Data) (limits : Limits) (e : Value) (scopes : Scopes)
    (m : Machine State) :
    Grows Solution m.host (eval (host data) limits e scopes m).state.host :=
  (eval_grows (offers_any data m.host) limits trivial fun _ _ _ _ => trivial).1.imp
    fun _ hv => hv.2

theorem evalList_grows_solutions (data : Data) (limits : Limits) (e : Value) (scopes : Scopes)
    (m : Machine State) :
    Grows Solution m.host (evalList (host data) limits e scopes m).state.host :=
  (evalList_grows (offers_any data m.host) limits trivial fun _ _ _ _ => trivial).1.imp
    fun _ hv => hv.2

/-- Where every parameter has a value an evaluation leaves nothing behind. -/
theorem eval_state_of_bound (data : Data) (limits : Limits) (e : Value) (scopes : Scopes)
    {m : Machine State} (hbound : ∀ slot ∈ m.host.slots, slot ≠ .unbound) :
    (eval (host data) limits e scopes m).state = m := by
  have hdepth := steady_eval (host data) limits e scopes
  have hhost := (eval_grows_solutions data limits e scopes m).eq_of_bound hbound
  calc (eval (host data) limits e scopes m).state
    _ = ⟨_, (eval (host data) limits e scopes m).state.host⟩ := rfl
    _ = m := by rw [hdepth.depth m, hhost]

theorem evalList_state_of_bound (data : Data) (limits : Limits) (e : Value) (scopes : Scopes)
    {m : Machine State} (hbound : ∀ slot ∈ m.host.slots, slot ≠ .unbound) :
    (evalList (host data) limits e scopes m).state = m := by
  have hdepth := steady_evalList (host data) limits e scopes
  have hhost := (evalList_grows_solutions data limits e scopes m).eq_of_bound hbound
  calc (evalList (host data) limits e scopes m).state
    _ = ⟨_, (evalList (host data) limits e scopes m).state.host⟩ := rfl
    _ = m := by rw [hdepth.depth m, hhost]

end Memory

end CellQuery
