import CellQuery.Proofs.Host.Growth

/-! # Requests to bind, in any order

    The states of a host are ordered by growth, and a request that is granted leads to the least
    state above that has the value in question.  What a list of granted requests leads to is then
    the least state with all of their values, in whatever order they were made.

    * `Memory.bindEach` makes requests one after another, whether they are granted or not.
    * `Memory.bindEach_within`: requests for what some later state has are granted, and stay
      below that state.
    * `Memory.requests_commute`: two lists of the same requests lead to states that are each below
      the other, and so to the same state. -/

namespace CellQuery

namespace Memory

variable {s t : State} {i : Nat} {v : Value}

/-! ## One request -/

theorem holds_of_bind (h : (bind i v s).1 = .ok ()) : (bind i v s).2.Holds i v := by
  rcases bind_cases i v s with ⟨_, hbind⟩ | ⟨hholds, hbind⟩ | ⟨_, _, _, hbind⟩ | ⟨hslot, hbind⟩
  · rw [hbind] at h; cases h
  · rw [hbind]; exact hholds
  · rw [hbind] at h; cases h
  · rw [hbind]; exact holds_withSolved hslot

/-- Solving a parameter stays below every later state in which it has that value. -/
theorem withSolved_within (hgrows : s.GrowsTo t) (hholds : t.Holds i v)
    (hslot : s.slots[i]? = some .unbound) : (s.withSolved i v).GrowsTo t := by
  refine ⟨hgrows.charge, fun j => ?_⟩
  by_cases hj : j = i
  · subst hj
    left
    have hsolved : (s.withSolved j v).slots[j]? = some (.solved v) := by
      obtain ⟨hlt, _⟩ := List.getElem?_eq_some_iff.mp hslot
      exact List.getElem?_set_self hlt
    rw [hsolved]
    rcases hgrows.slot j with hsame | ⟨_, w, hw, _⟩
    · -- It has a value by then, so it cannot still be without one.
      exact absurd (hsame.trans hslot) hholds.not_unbound
    · rw [hw, State.Holds.unique (.inr hw) hholds]
  · have hother : (s.withSolved i v).slots[j]? = s.slots[j]? := List.getElem?_set_ne (Ne.symm hj)
    rw [hother]
    exact hgrows.slot j

/-- A request for what a later state has is granted, and stays below that state. -/
theorem bind_within (hgrows : s.GrowsTo t) (hholds : t.Holds i v) :
    (bind i v s).1 = .ok () ∧ (bind i v s).2.GrowsTo t := by
  rcases bind_cases i v s with ⟨hnone, _⟩ | ⟨_, hbind⟩ | ⟨w, hw, hne, _⟩ | ⟨hslot, hbind⟩
  · have hlt := hholds.lt_length
    rw [hgrows.length] at hlt
    rw [List.getElem?_eq_none_iff] at hnone
    omega
  · rw [hbind]
    exact ⟨rfl, hgrows⟩
  · exact absurd ((hgrows.holds hw).unique hholds) hne
  · rw [hbind]
    exact ⟨rfl, withSolved_within hgrows hholds hslot⟩

/-! ## Requests one after another -/

/-- The answers to requests made one after another, and the state after the last.  A request that
    is refused does not keep the next from being made. -/
def bindEach : List (Nat × Value) → State → List (Except (Refusal Error) Unit) × State
  | [], s => ([], s)
  | (i, v) :: requests, s =>
    let (answer, s) := bind i v s
    let (answers, s) := bindEach requests s
    (answer :: answers, s)

/-- Every request is granted. -/
def AllGranted (requests : List (Nat × Value)) (s : State) : Prop :=
  ∀ answer ∈ (bindEach requests s).1, answer = .ok ()

variable {requests : List (Nat × Value)}

@[simp]
theorem bindEach_cons (i : Nat) (v : Value) (requests : List (Nat × Value)) (s : State) :
    bindEach ((i, v) :: requests) s =
      ((bind i v s).1 :: (bindEach requests (bind i v s).2).1,
        (bindEach requests (bind i v s).2).2) :=
  rfl

theorem bindEach_append (before after : List (Nat × Value)) (s : State) :
    bindEach (before ++ after) s =
      ((bindEach before s).1 ++ (bindEach after (bindEach before s).2).1,
        (bindEach after (bindEach before s).2).2) := by
  induction before generalizing s with
  | nil => rfl
  | cons r before ih =>
    obtain ⟨i, v⟩ := r
    simp only [List.cons_append, bindEach_cons, ih]

theorem length_bindEach (requests : List (Nat × Value)) (s : State) :
    (bindEach requests s).1.length = requests.length := by
  induction requests generalizing s with
  | nil => rfl
  | cons r requests ih =>
    obtain ⟨i, v⟩ := r
    simp only [bindEach_cons, List.length_cons, ih]

/-- Each request is answered in the state that those before it lead to. -/
theorem bindEach_getElem? (before after : List (Nat × Value)) (i : Nat) (v : Value) (s : State) :
    (bindEach (before ++ (i, v) :: after) s).1[before.length]? =
      some (bind i v (bindEach before s).2).1 := by
  rw [bindEach_append, ← length_bindEach before s, List.getElem?_append_right (Nat.le_refl _),
    Nat.sub_self]
  rfl

theorem allGranted_cons :
    AllGranted ((i, v) :: requests) s ↔
      (bind i v s).1 = .ok () ∧ AllGranted requests (bind i v s).2 := by
  simp only [AllGranted, bindEach_cons, List.forall_mem_cons]

theorem bindEach_grows (requests : List (Nat × Value)) (s : State) :
    s.GrowsTo (bindEach requests s).2 := by
  induction requests generalizing s with
  | nil => exact .refl s
  | cons r requests ih =>
    obtain ⟨i, v⟩ := r
    exact (grows_bind i trivial s).trans (ih _)

/-- After granted requests every parameter has the value that was asked for it. -/
theorem AllGranted.holds (h : AllGranted requests s) :
    ∀ r ∈ requests, (bindEach requests s).2.Holds r.1 r.2 := by
  induction requests generalizing s with
  | nil => exact fun _ hr => absurd hr List.not_mem_nil
  | cons r requests ih =>
    obtain ⟨i, v⟩ := r
    obtain ⟨hfirst, hrest⟩ := allGranted_cons.mp h
    -- The first value is there after the first request, and stays.
    have hheld := (bindEach_grows requests (bind i v s).2).holds (holds_of_bind hfirst)
    exact List.forall_mem_cons.mpr ⟨hheld, ih hrest⟩

/-- Requests for what a later state has are granted, and stay below that state. -/
theorem bindEach_within (hgrows : s.GrowsTo t) (hholds : ∀ r ∈ requests, t.Holds r.1 r.2) :
    AllGranted requests s ∧ (bindEach requests s).2.GrowsTo t := by
  induction requests generalizing s with
  | nil => exact ⟨fun _ hr => absurd hr List.not_mem_nil, hgrows⟩
  | cons r requests ih =>
    obtain ⟨i, v⟩ := r
    obtain ⟨hfirst, hrest⟩ := List.forall_mem_cons.mp hholds
    obtain ⟨hgranted, hbelow⟩ := bind_within hgrows hfirst
    obtain ⟨hall, hend⟩ := ih hbelow hrest
    exact ⟨allGranted_cons.mpr ⟨hgranted, hall⟩, hend⟩

/-- If requests to bind are all granted, so are the same requests in any other order and however
    often each of them is made, and they leave the host in the same state.  A request that is
    refused leaves the host as it was just before.  The reason is that the parameter is not
    declared or, if it is declared, the value that it has. -/
theorem requests_commute (s : State) (requests : List (Nat × Value)) :
    (AllGranted requests s →
      ∀ requests' : List (Nat × Value), (∀ r, r ∈ requests' ↔ r ∈ requests) →
        AllGranted requests' s ∧ (bindEach requests' s).2 = (bindEach requests s).2) ∧
    ∀ before i v after refusal, requests = before ++ (i, v) :: after →
      (bindEach requests s).1[before.length]? = some (.error refusal) →
      let t := (bindEach before s).2
      (bindEach (before ++ [(i, v)]) s).2 = t ∧
        (s.slots.length ≤ i ∧ refusal = .own (.unknownParam i s.slots.length) ∨
          i < s.slots.length ∧
            ∃ held, t.Holds i held ∧ held ≠ v ∧ refusal = .own (.conflict i held v)) := by
  constructor
  · intro hgranted requests' hsame
    have hheld : ∀ r ∈ requests', (bindEach requests s).2.Holds r.1 r.2 :=
      fun r hr => hgranted.holds r ((hsame r).mp hr)
    obtain ⟨hgranted', hbelow⟩ := bindEach_within (bindEach_grows requests s) hheld
    -- By the same argument the first list leads to a state below that of the second.
    have hheld' : ∀ r ∈ requests, (bindEach requests' s).2.Holds r.1 r.2 :=
      fun r hr => hgranted'.holds r ((hsame r).mpr hr)
    have habove := (bindEach_within (bindEach_grows requests' s) hheld').2
    exact ⟨hgranted', hbelow.antisymm habove⟩
  · rintro before i v after refusal rfl hanswer t
    rw [bindEach_getElem?, Option.some.injEq] at hanswer
    obtain ⟨hstate, hreason⟩ := bind_refused hanswer
    rw [(bindEach_grows before s).length] at hreason
    refine ⟨?_, hreason⟩
    rw [bindEach_append]
    exact hstate

/-- Parameters of all kinds, with a value or without one.  The requests are made from the first to
    the last, and then from the last to the first with one of them made again.  Of other requests
    the second is refused, for the value that the first one has left. -/
theorem requests_commute_reversed :
    let s : State := ⟨[.supplied (.uint 1), .unbound, .unbound, .solved .nil], 0⟩
    let requests : List (Nat × Value) :=
      [(1, .bool true), (0, .uint 1), (3, .nil), (2, .param 9)]
    let requests' := requests.reverse ++ [(0, .uint 1)]
    let refused : List (Nat × Value) := [(1, .bool true), (1, .nil), (4, .nil)]
    AllGranted requests s ∧ AllGranted requests' s ∧
      (bindEach requests' s).2.bindings = [(1, .bool true), (2, .param 9), (3, .nil)] ∧
      (bindEach refused s).1[1]? = some (.error (.own (.conflict 1 (.bool true) .nil))) ∧
      (bindEach (refused.take 2) s).2 = (bindEach (refused.take 1) s).2 := by
  intro s requests requests' refused
  have hrun : bindEach requests s = ([.ok (), .ok (), .ok (), .ok ()],
      ⟨[.supplied (.uint 1), .solved (.bool true), .solved (.param 9), .solved .nil], 0⟩) := by cbv
  have hgranted : AllGranted requests s := by
    intro answer hanswer
    rw [hrun] at hanswer
    simpa using hanswer
  have hbindings : (bindEach requests s).2.bindings =
      [(1, .bool true), (2, .param 9), (3, .nil)] := by
    rw [hrun]
    rfl
  have hrefused : (bindEach refused s).1[1]? =
      some (.error (.own (.conflict 1 (.bool true) .nil))) := rfl
  have hsame : ∀ r, r ∈ requests' ↔ r ∈ requests := by
    intro r
    simp only [requests', List.mem_append, List.mem_reverse, List.mem_singleton, or_iff_left_iff_imp]
    rintro rfl
    simp [requests]
  obtain ⟨hgranted', hend⟩ := (requests_commute s requests).1 hgranted requests' hsame
  have hstate := ((requests_commute s refused).2 [(1, .bool true)] 1 .nil [(4, .nil)] _ rfl
    hrefused).1
  exact ⟨hgranted, hgranted', hend ▸ hbindings, hrefused, hstate⟩

end Memory

end CellQuery
