import CellQuery.Proofs.Eval.Equations
import CellQuery.Proofs.Host.Binding

/-! # `EQUAL` as a solver

    `EQUAL` compares two values, unless one of them is a parameter that the host may be asked to
    bind to the other one.  Which of the two it is does not matter, and what an `EQUAL` has found
    or made true stays true.

    * `Memory.Solving` lists what is expected of a way to evaluate `EQUAL` on two values.
    * `Memory.equal_cases` is all that `EQUAL` can do on a host in memory.
    * `Memory.solving_under` carries the list over from operands to expressions, here the two
      arguments of a scope. -/

namespace CellQuery

open Run

variable {x y v : Value} {i : UInt64}

namespace Evaluator

/-! ## What is to be bound -/

theorem binding?_comm (x y : Value) : binding? x y = binding? y x := by
  cases x <;> cases y <;> rfl

/-- Nothing is to be bound where both sides are the same. -/
theorem binding?_self (x : Value) : binding? x x = none := by
  cases x <;> rfl

theorem binding?_of_sides (hsides : x = .param i ∧ y = v ∨ x = v ∧ y = .param i)
    (hnil : v.isNil = false) (hparam : v.isParam = false) : binding? x y = some (i, v) := by
  have hbinding : binding? (.param i) v = some (i, v) := by
    cases v with
    | nil => cases hnil
    | param j => cases hparam
    | _ => rfl
  rcases hsides with ⟨rfl, rfl⟩ | ⟨rfl, rfl⟩
  · exact hbinding
  · rw [binding?_comm]
    exact hbinding

section operands
variable {σ ε : Type} (host : Host σ ε)

theorem equal_of_none (h : binding? x y = none) :
    equal host [x, y] = Pure.pure (.bool (x = y)) := by
  show (lift (.ok (x, y)) >>= fun pair => _) = _
  funext m
  rw [bind_of_ok rfl]
  simp only [h]
  rfl

theorem equal_of_some (h : binding? x y = some (i, v)) :
    equal host [x, y] = askBind host i.toNat v >>= fun _ => Pure.pure (.bool true) := by
  show (lift (.ok (x, y)) >>= fun pair => _) = _
  funext m
  rw [bind_of_ok rfl]
  simp only [h]
  rfl

/-- The two sides may be exchanged, whatever the host. -/
theorem equal_comm (x y : Value) : equal host [x, y] = equal host [y, x] := by
  cases h : binding? x y with
  | none =>
    rw [equal_of_none host h, equal_of_none host (binding?_comm x y ▸ h)]
    simp only [eq_comm]
  | some b =>
    rw [equal_of_some host h, equal_of_some host (binding?_comm x y ▸ h)]

theorem askBind_of_ok {n : Nat} {m : Machine σ} {s : σ} (h : host.bind n v m.host = (.ok (), s)) :
    askBind host n v m = ⟨.ok (), { m with host := s }, [.bind n v none]⟩ := by
  unfold askBind
  rw [h]

theorem askBind_of_error {n : Nat} {m : Machine σ} {s : σ} {e : Refusal ε}
    (h : host.bind n v m.host = (.error e, s)) :
    askBind host n v m = ⟨.error e.toEvalError, { m with host := s }, [.bind n v (some e)]⟩ := by
  unfold askBind
  rw [h]

/-- A binding that the host agrees to makes the two sides equal. -/
theorem equal_of_granted (h : binding? x y = some (i, v)) {m : Machine σ} {s : σ}
    (hbind : host.bind i.toNat v m.host = (.ok (), s)) :
    equal host [x, y] m =
      ⟨.ok (.bool true), { m with host := s }, [.bind i.toNat v none]⟩ := by
  have hask := askBind_of_ok host hbind
  rw [equal_of_some host h, bind_of_ok (by rw [hask]), hask]
  rfl

/-- A refusal of the host is the error. -/
theorem equal_of_refused (h : binding? x y = some (i, v)) {m : Machine σ} {s : σ}
    {e : Refusal ε} (hbind : host.bind i.toNat v m.host = (.error e, s)) :
    equal host [x, y] m =
      ⟨.error e.toEvalError, { m with host := s }, [.bind i.toNat v (some e)]⟩ := by
  have hask := askBind_of_error host hbind
  rw [equal_of_some host h, bind_of_error (by rw [hask]), hask]

end operands

end Evaluator

namespace Memory

open Evaluator

/-! ## On a host in memory -/

/-- Laws of a way to evaluate `EQUAL` on two values, which has what it needs in machines with
    room. -/
structure Solving (room : Machine State → Prop)
    (run : Value → Value → Evaluator.Step State Error Value) : Prop where
  /-- The sides may be exchanged. -/
  symmetric : ∀ x y m, run x y m = run y x m
  /-- There is a truth value or an error. -/
  decided : ∀ x y m, (∃ b, (run x y m).outcome = .ok (.bool b)) ∨
    ∃ e, (run x y m).outcome = .error e
  /-- What is true are two values that are the same, or else a parameter and the value that it
      has from here on. -/
  sound : ∀ x y m, (run x y m).outcome = .ok (.bool true) → x = y ∨
    ∃ i v, (x = .param i ∧ y = v ∨ x = v ∧ y = .param i) ∧ v.isNil = false ∧
      v.isParam = false ∧ (run x y m).state.host.Holds i.toNat v
  /-- If there is room this is true, also of a parameter that has no value so far. -/
  complete : ∀ x y m, room m → (x = y ∨
    ∃ i v, (x = .param i ∧ y = v ∨ x = v ∧ y = .param i) ∧ v.isNil = false ∧
      v.isParam = false ∧
      (m.host.Holds i.toNat v ∨ m.host.slots[i.toNat]? = some .unbound)) →
    (run x y m).outcome = .ok (.bool true)
  /-- What is true is true again, and that changes nothing any more. -/
  idempotent : ∀ x y m, (run x y m).outcome = .ok (.bool true) →
    (run x y (run x y m).state).outcome = .ok (.bool true) ∧
      (run x y (run x y m).state).state = (run x y m).state
  /-- What is not true changes nothing. -/
  unchanged : ∀ x y m, (run x y m).outcome ≠ .ok (.bool true) → (run x y m).state = m

variable {data : Data} {m : Machine State}

/-- All that `EQUAL` can do: compare, find or make a parameter have the value on the other side,
    or be refused. -/
theorem equal_cases (data : Data) (x y : Value) (m : Machine State) :
    let r := equal (host data) [x, y] m
    (binding? x y = none ∧ r.outcome = .ok (.bool (x = y)) ∧ r.state = m) ∨
    (∃ i v, binding? x y = some (i, v) ∧ r.outcome = .ok (.bool true) ∧
      r.state.host.Holds i.toNat v) ∨
    ∃ i v e, binding? x y = some (i, v) ∧ r.outcome = .error e ∧ r.state = m ∧
      ¬m.host.Holds i.toNat v ∧ m.host.slots[i.toNat]? ≠ some .unbound := by
  intro r
  cases hb : binding? x y with
  | none =>
    have hr : r = (Pure.pure (.bool (x = y)) : Evaluator.Step State Error Value) m :=
      congrFun (equal_of_none (host data) hb) m
    rw [hr]
    exact .inl ⟨rfl, rfl, rfl⟩
  | some b =>
    obtain ⟨i, v⟩ := b
    right
    rcases bind_cases i.toNat v m.host with
      ⟨hnone, hbind⟩ | ⟨hholds, hbind⟩ | ⟨w, hholds, hne, hbind⟩ | ⟨hslot, hbind⟩
    · have hr : r = _ := equal_of_refused (host data) hb hbind
      rw [hr]
      have hnot : ¬m.host.Holds i.toNat v := by
        intro hholds
        exact Nat.not_le.mpr hholds.lt_length (List.getElem?_eq_none_iff.mp hnone)
      exact .inr ⟨i, v, _, rfl, rfl, rfl, hnot, by simp [hnone]⟩
    · have hr : r = _ := equal_of_granted (host data) hb hbind
      rw [hr]
      exact .inl ⟨i, v, rfl, rfl, hholds⟩
    · have hr : r = _ := equal_of_refused (host data) hb hbind
      rw [hr]
      have hnot : ¬m.host.Holds i.toNat v := fun hv => hne (hholds.unique hv)
      exact .inr ⟨i, v, _, rfl, rfl, rfl, hnot, hholds.not_unbound⟩
    · have hr : r = _ := equal_of_granted (host data) hb hbind
      rw [hr]
      exact .inl ⟨i, v, rfl, rfl, holds_withSolved hslot⟩

/-- A parameter that has the value already. -/
theorem equal_of_holds (h : binding? x y = some (i, v)) (hholds : m.host.Holds i.toNat v) :
    equal (host data) [x, y] m = ⟨.ok (.bool true), m, [.bind i.toNat v none]⟩ := by
  have hbind : bind i.toNat v m.host = (.ok (), m.host) := by
    rw [bind_of_holds hholds, if_pos rfl]
  exact equal_of_granted (host data) h hbind

theorem solving_equal (data : Data) :
    Solving (fun _ => True) fun x y => equal (host data) [x, y] where
  symmetric x y m := congrFun (equal_comm (host data) x y) m
  decided x y m := by
    rcases equal_cases data x y m with ⟨_, ho, _⟩ | ⟨i, v, _, ho, _⟩ | ⟨i, v, e, _, ho, _⟩
    · exact .inl ⟨_, ho⟩
    · exact .inl ⟨_, ho⟩
    · exact .inr ⟨e, ho⟩
  sound x y m htrue := by
    rcases equal_cases data x y m with ⟨_, ho, _⟩ | ⟨i, v, hb, _, hholds⟩ | ⟨i, v, e, _, ho, _⟩
    · rw [ho] at htrue
      exact .inl (by simpa using htrue)
    · obtain ⟨hsides, hnil, hparam⟩ := binding?_eq_some hb
      exact .inr ⟨i, v, hsides, hnil, hparam, hholds⟩
    · rw [ho] at htrue
      cases htrue
  complete x y m _ hsame := by
    rcases hsame with rfl | ⟨i, v, hsides, hnil, hparam, hslot⟩
    · rw [equal_of_none (host data) (binding?_self x)]
      simp [Pure.pure, Run.pure]
    · have hb := binding?_of_sides hsides hnil hparam
      rcases equal_cases data x y m with ⟨hnone, _⟩ | ⟨_, _, _, ho, _⟩ | ⟨j, w, e, hb', hrefused⟩
      · rw [hb] at hnone
        cases hnone
      · exact ho
      · obtain ⟨rfl, rfl⟩ := Prod.mk.inj (Option.some.inj (hb.symm.trans hb'))
        obtain ⟨_, _, hnot, hbound⟩ := hrefused
        exact (hslot.elim hnot hbound).elim
  idempotent x y m htrue := by
    rcases equal_cases data x y m with ⟨_, _, hstate⟩ | ⟨i, v, hb, _, hholds⟩ | ⟨i, v, e, _, ho, _⟩
    · rw [hstate]
      exact ⟨htrue, hstate⟩
    · rw [equal_of_holds hb hholds]
      exact ⟨rfl, rfl⟩
    · rw [ho] at htrue
      cases htrue
  unchanged x y m hother := by
    rcases equal_cases data x y m with ⟨_, _, hstate⟩ | ⟨i, v, _, ho, _⟩ | ⟨i, v, e, _, _, hstate, _⟩
    · exact hstate
    · exact absurd ho hother
    · exact hstate

/-! ## On the arguments of a scope -/

section under
variable (data : Data) (limits : Limits) (scopes : Scopes)

/-- The two arguments of the innermost scope, compared. -/
def equalUnder (x y : Value) : Evaluator.Step State Error Value :=
  eval (host data) limits (.node .equal [.arg 0, .arg 1]) ([x, y] :: scopes)

theorem combine_equal (operands : List Value) :
    combine (host data) .equal operands = equal (host data) operands :=
  if_pos rfl

/-- Either there is room, and the operands are compared one level deeper, or there is not. -/
theorem equalUnder_cases (x y : Value) (m : Machine State) :
    let r := equalUnder data limits scopes x y m
    let inner := equal (host data) [x, y] { m with depth := m.depth + 1 }
    (m.depth + 2 ≤ limits.maxDepth ∧ r.outcome = inner.outcome ∧
      r.state = ⟨m.depth, inner.state.host⟩) ∨
    (limits.maxDepth < m.depth + 2 ∧ (∃ l, r.outcome = .error (.limit l)) ∧ r.state = m) := by
  rw [← combine_equal]
  exact eval_pair_cases (host data) limits scopes rfl x y m

theorem solving_under :
    Solving (fun m => m.depth + 2 ≤ limits.maxDepth) (equalUnder data limits scopes) where
  symmetric x y m := by
    unfold equalUnder
    rw [eval_pair _ _ _ rfl, eval_pair _ _ _ rfl, combine_equal, combine_equal, equal_comm]
  decided x y m := by
    rcases equalUnder_cases data limits scopes x y m with ⟨_, ho, _⟩ | ⟨_, ⟨l, ho⟩, _⟩
    · rw [ho]
      exact (solving_equal data).decided x y _
    · exact .inr ⟨_, ho⟩
  sound x y m htrue := by
    rcases equalUnder_cases data limits scopes x y m with ⟨_, ho, hstate⟩ | ⟨_, ⟨l, ho⟩, _⟩
    · rw [ho] at htrue
      rw [hstate]
      exact (solving_equal data).sound x y _ htrue
    · rw [ho] at htrue
      cases htrue
  complete x y m hroom hsame := by
    rcases equalUnder_cases data limits scopes x y m with ⟨_, ho, _⟩ | ⟨hno, _⟩
    · rw [ho]
      exact (solving_equal data).complete x y _ trivial hsame
    · exact absurd hroom (Nat.not_le.mpr hno)
  idempotent x y m htrue := by
    rcases equalUnder_cases data limits scopes x y m with ⟨hroom, ho, hstate⟩ | ⟨_, ⟨l, ho⟩, _⟩
    · rw [ho] at htrue
      obtain ⟨hagain, hkept⟩ := (solving_equal data).idempotent x y _ htrue
      let inner := equal (host data) [x, y] { m with depth := m.depth + 1 }
      -- The second comparison starts on the machine that the first one has left.
      have hdepth : inner.state.depth = m.depth + 1 :=
        (steady_combine (host data) .equal [x, y]).depth { m with depth := m.depth + 1 }
      have hinner : (⟨m.depth + 1, inner.state.host⟩ : Machine State) = inner.state := by
        rw [← hdepth]
      rw [hstate]
      rcases equalUnder_cases data limits scopes x y ⟨m.depth, inner.state.host⟩ with
        ⟨_, ho', hstate'⟩ | ⟨hno, _⟩
      · rw [ho', hstate', hinner, hkept]
        exact ⟨hagain, rfl⟩
      · exact absurd hroom (Nat.not_le.mpr hno)
    · rw [ho] at htrue
      cases htrue
  unchanged x y m hother := by
    rcases equalUnder_cases data limits scopes x y m with ⟨_, ho, hstate⟩ | ⟨_, _, hstate⟩
    · rw [ho] at hother
      rw [hstate, (solving_equal data).unchanged x y _ hother]
    · exact hstate

end under

/-- `EQUAL` on two values, as an operator or on the arguments of a scope, does not depend on their
    order.  It is true of two values that are the same, and of a parameter and a value, neither
    absent nor a parameter, that the parameter has or is given: from then on the parameter has
    that value, and `EQUAL` is true again and changes nothing.  If it is false or fails it has
    changed nothing either. -/
theorem equal_solves (data : Data) :
    Solving (fun _ => True) (fun x y => equal (host data) [x, y]) ∧
      ∀ (limits : Limits) (scopes : Scopes),
        Solving (fun m => m.depth + 2 ≤ limits.maxDepth) fun x y =>
          eval (host data) limits (.node .equal [.arg 0, .arg 1]) ([x, y] :: scopes) :=
  ⟨solving_equal data, solving_under data⟩

/-- The parameter is on the right when it is solved, and on the left when it is asked to have
    another value. -/
theorem equal_solves_conflict :
    let data : Data := ⟨[], [], {}⟩
    let compare (x y : Value) : Evaluator.Step State Error Value :=
      eval (host data) {} (.node .equal [.arg 0, .arg 1]) [[x, y]]
    let solved := compare (.uint 7) (.param 1) ⟨0, .fresh [some .nil, none]⟩
    solved.outcome = .ok (.bool true) ∧ solved.state.host.Holds 1 (.uint 7) ∧
      (compare (.uint 7) (.param 1) solved.state).state = solved.state ∧
      (compare (.param 1) (.uint 8) solved.state).outcome =
        .error (.host (.conflict 1 (.uint 7) (.uint 8))) ∧
      (compare (.param 1) (.uint 8) solved.state).state = solved.state := by
  intro data compare solved
  have htrue : solved.outcome = .ok (.bool true) := by cbv
  have hstate : solved.state = ⟨0, ⟨[.supplied .nil, .solved (.uint 7)], 0⟩⟩ := by cbv
  have hconflict : (compare (.param 1) (.uint 8) solved.state).outcome =
      .error (.host (.conflict 1 (.uint 7) (.uint 8))) := by
    rw [hstate]
    cbv
  have hsolves := (equal_solves data).2 {} []
  have hholds : solved.state.host.Holds 1 (.uint 7) := by
    rcases hsolves.sound _ _ _ htrue with hsame | ⟨i, v, hsides, _, _, hholds⟩
    · cases hsame
    · rcases hsides with ⟨hleft, _⟩ | ⟨rfl, hright⟩
      · cases hleft
      · cases hright
        exact hholds
  have hunchanged : (compare (.param 1) (.uint 8) solved.state).state = solved.state := by
    apply hsolves.unchanged
    show (compare (.param 1) (.uint 8) solved.state).outcome ≠ _
    rw [hconflict]
    intro htrue
    cases htrue
  exact ⟨htrue, hholds, (hsolves.idempotent _ _ _ htrue).2, hconflict, hunchanged⟩

end Memory

end CellQuery
