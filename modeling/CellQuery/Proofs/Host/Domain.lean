import CellQuery.Proofs.Eval.Form
import CellQuery.Proofs.Host.Answer
import CellQuery.Proofs.Host.Guarded
import CellQuery.Proofs.Wire.Parts
import CellQuery.Session

/-! # Partial operations stay within their domains

    A run ends with a fault where a partial operation of an evaluation is applied outside its
    domain: a scope is skipped that holds the index, an activation is left that was not
    entered, a field is read past the end of a record, a slice is cut with bounds out of
    order, or queries nest too deep.  A guard is lost where the host does so: a borrow of
    what has been solved is refused, or a charge is past its bound.  And the check of a
    wire value yields nothing where it would put together a node that may not be.

    * `Memory.in_domain`: none of this happens where nothing is lent out, whatever is
      evaluated or requested.  Where an expression is malformed there is an error instead.
    * `Memory.Reachable.unlent`: nothing is lent out between requests, however many came
      before.
    * `Memory.operations_in_domain` puts these together. -/

namespace CellQuery

/-- A run keeps within the domains of its partial operations: it ends without a fault, and
    the run with guards does the same and has its guards at the end. -/
structure Run.Safe {ω σ τ ε α : Type} (image : σ → τ) (plain : Run ω σ ε α)
    (guarded : Run ω τ ε α) : Prop where
  ends : ∀ s, (∃ a, (plain s).outcome = .ok a) ∨ ∃ e, (plain s).outcome = .error e
  same : ∀ s, guarded (image s) = ⟨(plain s).outcome, image (plain s).state, (plain s).events⟩

namespace Memory

theorem lookup_eq_ok (data : Data) (scopes : Scopes) (index : Nat) :
    ∃ v, Session.lookup data scopes index = .ok v := by
  obtain ⟨place, hplace⟩ := find_eq_ok (ε := EvalError Error) scopes index
  unfold Session.lookup
  rw [hplace]
  cases place with
  | bound v => exact ⟨some v, rfl⟩
  | outside n => exact ⟨data.args[n]?, rfl⟩

/-! ## Malformed expressions -/

/-- Of the queries that the host answers none has more than one child. -/
theorem answer_formed (data : Data) (q : Value) (s : State) :
    (answer data q s).outcome.Ensures fun _ => q.children.length ≤ 1 := by
  rw [answer_eq]
  match q.children with
  | [] => exact Outcome.ensures_const (Nat.zero_le 1) _
  | [_] => exact Outcome.ensures_const (Nat.le_refl 1) _
  | _ :: _ :: _ => trivial

/-- A malformed expression has no value; its evaluation ends with an error. -/
theorem eval_of_malformed (data : Data) (limits : Limits) (scopes : Scopes) {e : Value}
    (h : e.formed .value = false) (m : Machine State) :
    ∃ error, (Evaluator.eval (host data) limits e scopes m).outcome = .error error :=
  (eval_safe data limits e scopes m).error_of_not
    (Evaluator.eval_formed (host data) limits e scopes m) (Bool.eq_false_iff.mp h)

/-- A malformed expression stands for no list. -/
theorem evalList_of_malformed (data : Data) (limits : Limits) (scopes : Scopes) {e : Value}
    (h : e.formed .list = false) (m : Machine State) :
    ∃ error, (Evaluator.evalList (host data) limits e scopes m).outcome = .error error :=
  (evalList_safe data limits e scopes m).error_of_not
    (Evaluator.evalList_formed (host data) (answer_formed data) limits e scopes m)
    (Bool.eq_false_iff.mp h)

/-! ## All operations -/

/-- The state with nothing lent out. -/
abbrev State.unlent (s : State) : Guarded :=
  s.under (some .free)

/-- Whatever is asked of the host, or of an evaluator on it under the limits and the scopes,
    keeps within the domains of the partial operations. -/
structure InDomain (data : Data) (limits : Limits) (scopes : Scopes) : Prop where
  eval : ∀ e, Run.Safe (Evaluator.onHost State.unlent)
    (Evaluator.eval (host data) limits e scopes)
    (Evaluator.eval (Guarded.host data) limits e scopes)
  evalList : ∀ e, Run.Safe (Evaluator.onHost State.unlent)
    (Evaluator.evalList (host data) limits e scopes)
    (Evaluator.evalList (Guarded.host data) limits e scopes)
  query : ∀ q, Run.Safe State.unlent ((host data).query q) ((Guarded.host data).query q)
  /-- An argument is looked up through the scopes. -/
  arg : ∀ index, ∃ v, Session.lookup data scopes index = .ok v
  param : ∀ index s,
    (Guarded.host data).param index s.unlent = (param index s, s.unlent)
  bind : ∀ index v s, (Guarded.host data).bind index v s.unlent =
    ((bind index v s).1, (bind index v s).2.unlent)
  bindings : ∀ s : State, Guarded.bindings s.unlent = (s.bindings, s.unlent)
  reset : ∀ s : State, s.unlent.resetBindings = s.resetBindings.unlent
  /-- What cannot have a value, or stand for a list, is refused. -/
  malformed : ∀ e m, e.formed .value = false →
    ∃ error, (Evaluator.eval (host data) limits e scopes m).outcome = .error error
  malformedList : ∀ e m, e.formed .list = false →
    ∃ error, (Evaluator.evalList (host data) limits e scopes m).outcome = .error error

theorem in_domain (data : Data) (limits : Limits) (scopes : Scopes) :
    InDomain data limits scopes where
  eval e :=
    { ends := fun m => (eval_safe data limits e scopes m).ok_or_error
      same := fun m => (follows_eval_under atRest_free data limits e scopes m trivial).2 }
  evalList e :=
    { ends := fun m => (evalList_safe data limits e scopes m).ok_or_error
      same := fun m => (follows_evalList_under atRest_free data limits e scopes m trivial).2 }
  query q :=
    { ends := fun s => (answer_safe data q s).ok_or_error
      same := fun s => (follows_answer_under atRest_free data q s trivial).2 }
  arg := lookup_eq_ok data scopes
  param := param_under atRest_free
  bind := bind_under atRest_free
  bindings s := congrArg (Prod.mk _) (reading_under atRest_free s)
  reset s := writing_under atRest_free s.resetBindings
  malformed _ m h := eval_of_malformed data limits scopes h m
  malformedList _ m h := evalList_of_malformed data limits scopes h m

/-! ## Reachable states -/

/-- The states of the guarded host and of an evaluator on it, from the start on, whatever they
    are asked one after another. -/
inductive Reachable (data : Data) (params : List (Option Value)) : Machine Guarded → Prop where
  | start : Reachable data params ⟨0, (State.fresh params).unlent⟩
  | newEvaluator {m : Machine Guarded} (before : Reachable data params m) :
      Reachable data params ⟨0, m.host⟩
  | eval {m : Machine Guarded} (before : Reachable data params m) (limits : Limits) (e : Value)
      (scopes : Scopes) :
      Reachable data params (Evaluator.eval (Guarded.host data) limits e scopes m).state
  | evalList {m : Machine Guarded} (before : Reachable data params m) (limits : Limits)
      (e : Value) (scopes : Scopes) :
      Reachable data params (Evaluator.evalList (Guarded.host data) limits e scopes m).state
  | query {m : Machine Guarded} (before : Reachable data params m) (q : Value) :
      Reachable data params { m with host := ((Guarded.host data).query q m.host).state }
  | param {m : Machine Guarded} (before : Reachable data params m) (index : Nat) :
      Reachable data params { m with host := ((Guarded.host data).param index m.host).2 }
  | bind {m : Machine Guarded} (before : Reachable data params m) (index : Nat) (v : Value) :
      Reachable data params { m with host := ((Guarded.host data).bind index v m.host).2 }
  | bindings {m : Machine Guarded} (before : Reachable data params m) :
      Reachable data params { m with host := m.host.bindings.2 }
  | reset {m : Machine Guarded} (before : Reachable data params m) :
      Reachable data params { m with host := m.host.resetBindings }

theorem Guarded.eq_unlent {g : Guarded} (h : g.guard = some .free) : g = g.state.unlent := by
  obtain ⟨state, guard⟩ := g
  cases h
  rfl

theorem machine_eq_unlent {m : Machine Guarded} (h : m.host.guard = some .free) :
    m = Evaluator.onHost State.unlent ⟨m.depth, m.host.state⟩ :=
  congrArg (Machine.mk m.depth) (Guarded.eq_unlent h)

/-- Between two requests nothing is lent out. -/
theorem Reachable.unlent {data : Data} {params : List (Option Value)} {m : Machine Guarded}
    (h : Reachable data params m) : m.host.guard = some .free := by
  -- Every request starts where nothing is lent out, and there it is what it is without guards.
  induction h with
  | start => rfl
  | newEvaluator _ ih => exact ih
  | eval _ limits e scopes ih =>
    rw [machine_eq_unlent ih, ((in_domain data limits scopes).eval e).same]
    rfl
  | evalList _ limits e scopes ih =>
    rw [machine_eq_unlent ih, ((in_domain data limits scopes).evalList e).same]
    rfl
  | query _ q ih =>
    rw [Guarded.eq_unlent ih, ((in_domain data {} []).query q).same]
    rfl
  | param _ index ih =>
    rw [Guarded.eq_unlent ih, (in_domain data {} []).param]
    rfl
  | bind _ index v ih =>
    rw [Guarded.eq_unlent ih, (in_domain data {} []).bind]
    rfl
  | bindings _ ih =>
    rw [Guarded.eq_unlent ih, (in_domain data {} []).bindings]
    rfl
  | reset _ ih =>
    rw [Guarded.eq_unlent ih, (in_domain data {} []).reset]
    rfl

/-- No partial operation is applied outside its domain: not by an evaluation of any
    expression, well formed or not, nor by the host, in any state where nothing is lent out;
    nothing is in a state that can be reached.  Nor does this happen when a wire value is
    read. -/
theorem operations_in_domain (data : Data) (limits : Limits) (scopes : Scopes) :
    InDomain data limits scopes ∧
      (∀ params m, Reachable data params m → m.host.guard = some .free) ∧
      ∀ w : Wire, w.guardedValue = some w.toValue :=
  ⟨in_domain data limits scopes, fun _ _ h => h.unlent, Wire.guardedValue_eq⟩

/-- A query within the predicate of another, where both look at and one binds a parameter; a
    slice that ends before it starts; and an argument far past all scopes. -/
theorem operations_in_domain_nested :
    let data : Data := ⟨[], [.bytes [1, 2], .bytes [3]], ⟨16, none⟩⟩
    let count : Value := .node .reduce [.node .plus [.arg 0, .uint 1], .uint 0,
      .node .queryCells [.node .equal [.param 0, .arg 0]]]
    let query : Value := .node .queryCells [.node .less [.uint 0, count]]
    let start : Machine State := ⟨0, .fresh [none]⟩
    let listed := Evaluator.evalList (Guarded.host data) data.limits query []
      (Evaluator.onHost State.unlent start)
    listed.outcome = .ok data.cells ∧ listed.state.host = start.host.unlent ∧
      (∃ error, (Evaluator.eval (host data) data.limits
        (.node .slice [.bytes [1, 2, 3], .uint 2, .uint 1]) [] start).outcome = .error error) ∧
      (∃ error, (Evaluator.eval (host data) data.limits (.node .slice [.uint 2]) [] start).outcome =
        .error error) ∧
      Session.lookup data [[.nil], [.nil, .nil]] 18446744073709551615 = .ok none := by
  intro data count query start listed
  have hdomain := (operations_in_domain data data.limits []).1
  have hsame := (hdomain.evalList query).same start
  have houtcome : (Evaluator.evalList (host data) data.limits query [] start).outcome =
      .ok data.cells := by cbv
  have hstate : (Evaluator.evalList (host data) data.limits query [] start).state.host =
      start.host := by cbv
  refine ⟨?_, ?_, ⟨_, rfl⟩, hdomain.malformed _ start rfl, rfl⟩
  · exact (congrArg (·.outcome) hsame).trans houtcome
  · exact (congrArg (·.state.host) hsame).trans (congrArg State.unlent hstate)

end Memory

end CellQuery
