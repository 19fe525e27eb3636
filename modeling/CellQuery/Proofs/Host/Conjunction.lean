import CellQuery.Proofs.Host.Pushdown

/-! # Conjunctions in a query

    A query with a conjunction evaluates both conjuncts on every cell.  The second one can be
    left to a `FILTER` of what a query with the first one finds:

    * if every parameter has a value, an evaluation leaves nothing behind, so the verdict of a
      conjunction is made of those of its conjuncts (`verdict_and`);
    * a query that is answered has had a truth value for every cell (`bools_of_answer`), and a
      conjunction has one only if the first conjunct has, and the second one wherever the
      first is true. -/

namespace CellQuery

open Run

namespace Memory

open Evaluator

section conjunction
variable {data : Data} {s : State} {p q predicate query cell v : Value}

/-! ## Conjunctions -/

theorem junction_eq_ok {x y : Value}
    (h : (junction .and false [x, y] : Outcome (EvalError Error) Value) = .ok v) :
    x = .bool false ∧ v = .bool false ∨ x = .bool true ∧ y = v := by
  cases x with
  | bool a =>
    cases a with
    | false =>
      cases h
      exact .inl ⟨rfl, rfl⟩
    | true =>
      -- The second operand decides, and so has to be a truth value as well.
      cases y with
      | bool b =>
        cases b with
        | false => cases h; exact .inr ⟨rfl, rfl⟩
        | true => cases h; exact .inr ⟨rfl, rfl⟩
      | _ => cases h
  | _ => cases h

/-- A conjunction has a value only if both conjuncts have. -/
theorem eval_and_eq_ok {limits : Limits} {scopes : Scopes} {depth : Nat}
    (hbound : ∀ slot ∈ s.slots, slot ≠ .unbound)
    (h : (Evaluator.eval (host data) limits (.node .and [q, p]) scopes ⟨depth, s⟩).outcome =
      .ok v) :
    ∃ x y, (Evaluator.eval (host data) limits q scopes ⟨depth + 1, s⟩).outcome = .ok x ∧
      (Evaluator.eval (host data) limits p scopes ⟨depth + 1, s⟩).outcome = .ok y ∧
      (junction .and false [x, y] : Outcome (EvalError Error) Value) = .ok v := by
  have hstate : (Evaluator.eval (host data) limits q scopes ⟨depth + 1, s⟩).state =
      ⟨depth + 1, s⟩ := eval_state_of_bound data limits q scopes hbound
  obtain ⟨operands, hoperands, hjunction⟩ := bind_eq_ok (activation_eq_ok h)
  obtain ⟨x, hx, hrest⟩ := bind_eq_ok hoperands
  change (Evaluator.eval (host data) limits q scopes ⟨depth + 1, s⟩).outcome = .ok x at hx
  obtain ⟨ys, hys, hvalues⟩ := bind_eq_ok hrest
  obtain ⟨y, hy, hlast⟩ := bind_eq_ok hys
  cases hlast
  cases hvalues
  -- The first conjunct has left the state alone.
  change (Evaluator.eval (host data) limits p scopes
    (Evaluator.eval (host data) limits q scopes ⟨depth + 1, s⟩).state).outcome = .ok y at hy
  rw [hstate] at hy
  exact ⟨x, y, hx, hy, hjunction⟩

/-- Where the verdict of a conjunction is a truth value, that of the first conjunct is, and so is
    that of the second one if the first is true. -/
theorem verdict_and (hbound : ∀ slot ∈ s.slots, slot ≠ .unbound)
    (hcharge : s.charge ≤ data.limits.maxDepth)
    (hheight : (Value.node .and [q, p]).height ≤ data.limits.maxDepth)
    (h : ∃ b, (verdict data s (.node .and [q, p]) cell).outcome = .ok (.bool b)) :
    (∃ b, (verdict data s q cell).outcome = .ok (.bool b)) ∧
      (accepts (verdict data s q cell).outcome = true →
        ∃ b, (verdict data s p cell).outcome = .ok (.bool b)) ∧
      accepts (verdict data s (.node .and [q, p]) cell).outcome =
        (accepts (verdict data s p cell).outcome && accepts (verdict data s q cell).outcome) := by
  have hconjunct (c : Value) (hc : c ∈ [q, p]) : (verdict data s c cell).outcome =
      (Evaluator.eval (host data) data.limits c [[cell]] ⟨1, s⟩).outcome := by
    have hlt : c.height < (Value.node .and [q, p]).height := Value.height_child_lt hc
    exact verdict_eq_eval hcharge rfl (by omega) (by omega) cell
  have hroom : 0 + (Value.node .and [q, p]).height ≤ data.limits.maxDepth := by omega
  rw [verdict_eq_eval hcharge rfl hheight hroom cell] at h ⊢
  obtain ⟨b, hb⟩ := h
  obtain ⟨x, y, hx, hy, hjunction⟩ := eval_and_eq_ok hbound hb
  rw [hconjunct q (by simp), hconjunct p (by simp), hb, hx, hy]
  rcases junction_eq_ok hjunction with ⟨rfl, hv⟩ | ⟨rfl, rfl⟩
  · -- It does not matter then what the second conjunct is.
    obtain rfl := Value.bool.inj hv
    exact ⟨⟨false, rfl⟩, nofun, (Bool.and_false _).symm⟩
  · exact ⟨⟨true, rfl⟩, fun _ => ⟨b, rfl⟩, (Bool.and_true b).symm⟩

/-! ## Queries that are answered -/

theorem verdict_of_judge {position : Nat} {b : Bool}
    (h : (judge data s predicate (cell, position) (stateFor s predicate)).outcome = .ok b) :
    (verdict data s predicate cell).outcome = .ok (.bool b) := by
  simp only [judge, forgetting, matchesCell] at h
  unfold verdict
  split at h
  · next b' heq => cases h; exact heq
  · cases h
  · cases h
  · cases h

/-- A query that is answered has had a truth value for every cell, and has found those for which
    it is true. -/
theorem bools_of_answer {cells : List Value} (hq : query.children = [predicate])
    (h : (answer data query s).outcome = .ok cells) :
    (∀ cell ∈ data.cells, ∃ b, (verdict data s predicate cell).outcome = .ok (.bool b)) ∧
      cells = data.cells.filter fun cell => accepts (verdict data s predicate cell).outcome := by
  have hall : ∀ cell ∈ data.cells, ∃ b,
      (verdict data s predicate cell).outcome = .ok (.bool b) := by
    intro cell hcell
    obtain ⟨position, hposition⟩ := List.mem_iff_getElem?.mp hcell
    rw [answer_outcome hq] at h
    obtain ⟨accepted, hkept, _⟩ := bind_eq_ok h
    obtain ⟨b, hb⟩ := ok_of_keep judge_state hkept (cell, position)
      (List.mk_mem_zipIdx_iff_getElem?.mpr hposition)
    exact ⟨b, verdict_of_judge hb⟩
  refine ⟨hall, ?_⟩
  have hfound := h.symm.trans (answer_of_bools hq hall)
  exact Outcome.ok.inj hfound

end conjunction

/-! ## Filters of what a query finds -/

/-- If all parameters have values, the limits leave room, and a query with the conjunction of two
    predicates is answered, then a `FILTER` by the second one of what the query with the first
    one finds yields the same cells in the same order. -/
theorem filter_of_conjunction (data : Data) (params : List Value) (p q : Value)
    (cells : List Value)
    (hiterations : ∀ most, data.limits.maxIterations = some most → data.cells.length ≤ most)
    (hheight : 1 + max p.height q.height ≤ data.limits.maxDepth)
    (hquery : ((host data).query (.queryCells (.node .and [q, p]))
      (.fresh (params.map some))).outcome = .ok cells) :
    (Evaluator.evalList (host data) data.limits (.filter p (.queryCells q)) []
      ⟨0, .fresh (params.map some)⟩).outcome = .ok cells := by
  let s : State := .fresh (params.map some)
  have hp : Fits data s p := fits_fresh hiterations (by omega)
  have hq : Fits data s q := fits_fresh hiterations (by omega)
  have hand : (Value.node .and [q, p]).height ≤ data.limits.maxDepth := by
    simp only [Value.height_eq (.node .and [q, p]), Value.children, Value.heightAll]
    omega
  obtain ⟨hall, hcells⟩ := bools_of_answer rfl hquery
  have hconjuncts := fun cell hcell => verdict_and hp.bound hp.charge hand (hall cell hcell)
  -- The query with the first predicate alone is answered, too.
  let found := data.cells.filter fun cell => accepts (verdict data s q cell).outcome
  have hroom : 1 < data.limits.maxDepth := by
    have := Value.height_eq p
    omega
  have hfound : (Evaluator.evalList (host data) data.limits (.queryCells q) [] ⟨1, s⟩).outcome =
      .ok found := by
    rw [Value.queryCells, evalList_query_outcome [q] hroom,
      answer_of_bools rfl fun cell hcell => (hconjuncts cell hcell).1]
    rfl
  have hcount : data.limits.iterationFault? .filter found.length = none := by
    refine iterationFault?_of_le fun most hmost => ?_
    exact Nat.le_trans (List.length_filter_le _ data.cells) (hiterations most hmost)
  have hsift : ∀ cell ∈ found, (sift data p cell ⟨1, s⟩).outcome =
      .ok (accepts (verdict data s p cell).outcome) := by
    intro cell hcell
    obtain ⟨hmem, htrue⟩ := List.mem_filter.mp hcell
    obtain ⟨b, hb⟩ := (hconjuncts cell hmem).2.1 htrue
    rw [hb]
    exact hp.sift_of_bool hb
  rw [evalList_filter_outcome hp.bound (Nat.zero_lt_of_lt hroom) hfound hcount,
    keep_of_answers (sift_state hp.bound) hsift, List.filter_filter, hcells]
  have hsame := List.filter_congr fun cell hcell => (hconjuncts cell hcell).2.2
  rw [hsame]

/-- The second predicate asks a query of its own, within a limit that has nothing to spare.  For
    the second cell it is no truth value, but the first predicate is false there. -/
theorem filter_of_conjunction_short_circuit :
    let data : Data := ⟨[], [.bool true, .nil, .bool false, .bool true], ⟨5, some 4⟩⟩
    let present : Value := .node .not [.node .equal [.arg 0, .param 0]]
    let itself : Value :=
      .reduce (.arg 0) (.arg 0) (.queryCells (.node .equal [.arg 0, .param 0]))
    let s : State := .fresh [some .nil]
    1 + max itself.height present.height = data.limits.maxDepth ∧
      (verdict data s itself .nil).outcome = .ok .nil ∧
      (Evaluator.evalList (host data) data.limits (.filter itself (.queryCells present)) []
        ⟨0, s⟩).outcome = .ok [.bool true, .bool true] := by
  intro data present itself s
  have hquery : ((host data).query (.queryCells (.node .and [present, itself])) s).outcome =
      .ok [.bool true, .bool true] := by cbv
  have hiterations : ∀ most, data.limits.maxIterations = some most → data.cells.length ≤ most := by
    rintro most ⟨⟩
    decide
  exact ⟨by decide, by cbv,
    filter_of_conjunction data [.nil] itself present _ hiterations (by decide) hquery⟩

end Memory

end CellQuery
