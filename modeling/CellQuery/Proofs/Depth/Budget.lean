import CellQuery.Proofs.Host.Answer

/-! # The depth budget

    An activation nests its children one level deeper, so an expression never goes
    deeper than its height.  A query charges the height of its predicate to the
    host's limit.  Both limits are therefore reached only by expressions that are too high:

    * within one evaluator, depth and height of the expression at hand together stay
      within the limit;
    * a nested predicate is left at least its own height, since the charge
      never exceeds the limit of the host. -/

namespace CellQuery

/-! ## Overflows -/

/-- The error says that an activation would have been one too many. -/
def EvalError.IsOverflow {ε : Type} (e : EvalError ε) : Prop :=
  ∃ depth maxDepth, e = .limit (.stackOverflow depth maxDepth)

theorem EvalError.not_isOverflow_host {ε : Type} (e : ε) : ¬(host e).IsOverflow := by
  intro ⟨depth, maxDepth, h⟩
  cases h

theorem Outcome.avoids_overflow_of_local {ε α : Type} {x : Outcome (EvalError ε) α}
    (hx : x.Local) : x.Avoids EvalError.IsOverflow := by
  cases x with
  | ok a => trivial
  | error e =>
    rintro ⟨depth, maxDepth, rfl⟩
    exact hx
  | fault f => exact hx

namespace Memory

open Evaluator

/-! ## Predicates -/

/-- A limit that a predicate exceeds is reported as it is, and nothing else is reported as one. -/
theorem isOverflow_of_predicateRefusal {position : Nat} {e : EvalError Error}
    (h : (predicateRefusal position e).toEvalError.IsOverflow) : e.IsOverflow := by
  unfold predicateRefusal at h
  split at h
  · exact h
  · exact absurd h (EvalError.not_isOverflow_host _)

/-- Within the charges that the limit of the host allows the query does not overflow. -/
def FitsQuery (data : Data) (q : Value) : Prop :=
  ∀ s : State, s.charge ≤ data.limits.maxDepth →
    (answer data q s).outcome.Avoids fun r => r.toEvalError.IsOverflow

/-- Evaluations whose depth and height stay within the limit. -/
def budgetRules (data : Data) (limits : Limits) : Rules (host data) limits where
  covers e := ∀ q ∈ e.subtrees, q.tag = .queryCells → FitsQuery data q
  inside e _ x := Steady State.charge x ∧
    ∀ m, m.depth + Value.heightAll e.children ≤ limits.maxDepth →
      m.host.charge ≤ data.limits.maxDepth → (x m).outcome.Avoids EvalError.IsOverflow
  whole e _ x := Steady State.charge x ∧
    ∀ m, m.depth + e.height ≤ limits.maxDepth →
      m.host.charge ≤ data.limits.maxDepth → (x m).outcome.Avoids EvalError.IsOverflow
  covers_child he hc q hq := he q (Value.mem_subtrees_of_child hc hq)
  lift _ hx := ⟨fun _ => rfl, fun _ _ _ => Outcome.avoids_overflow_of_local hx⟩
  bind hx hf := by
    refine ⟨Run.keeps_bind hx.1 fun a => (hf a).1, fun m hdepth hcharge => ?_⟩
    apply Run.avoids_bind (hx.2 m hdepth hcharge)
    intro a
    apply (hf a).2
    · rw [hx.1.depth m]; exact hdepth
    · rw [hx.1.host m]; exact hcharge
  child _ hc hx := by
    refine ⟨hx.1, fun m hdepth => hx.2 m ?_⟩
    have := Value.height_le_heightAll hc
    omega
  arg _ _ := ⟨fun _ => rfl, fun _ _ _ => trivial⟩
  param _ := ⟨fun _ => rfl, fun _ _ _ => trivial⟩
  binding i v _ _ := by
    refine ⟨steady_askBind (keeps_charge data) i v, fun m _ _ => askBind_avoids ?_⟩
    intro r hr
    obtain ⟨e, rfl, _⟩ := bind_refusal hr
    exact EvalError.not_isOverflow_host e
  query {e} he ht :=
    ⟨steady_askQuery (keeps_charge data) e, fun m _ hcharge =>
      askQuery_avoids.mpr (he e (Value.self_mem_subtrees e) ht m.host hcharge)⟩
  activation {e _ x} _ hx := by
    refine ⟨steady_activation limits hx.1, fun m hdepth hcharge => ?_⟩
    -- An expression has a height of one at least, so there is room for its activation.
    have hheight := Value.height_eq e
    have hlt : m.depth < limits.maxDepth := by omega
    rw [activation_of_lt hlt (hx.1.depth _)]
    exact hx.2 { m with depth := m.depth + 1 } (by simp only; omega) hcharge

/-- A predicate is left at least its own height, and its charge stays within the limit. -/
theorem budget_of_charge_le {data : Data} {s : State} {predicate : Value}
    (hcharge : s.charge ≤ data.limits.maxDepth)
    (hheight : predicate.height ≤ data.limits.maxDepth) :
    predicate.height ≤ (limitsFor data s predicate).maxDepth ∧
      (stateFor s predicate).charge ≤ data.limits.maxDepth := by
  simp only [limitsFor, stateFor, levelsUsed]
  omega

/-- The predicates of a query and of all queries nested in it are no higher than the limit. -/
def PredicatesFit (data : Data) (e : Value) : Prop :=
  ∀ q ∈ e.subtrees, q.tag = .queryCells → ∀ predicate, q.children = [predicate] →
    predicate.height ≤ data.limits.maxDepth

theorem fitsQuery_of_predicatesFit {data : Data} {q : Value} (ht : q.tag = .queryCells)
    (h : PredicatesFit data q) : FitsQuery data q := by
  induction q using query_induction with
  | step q ih =>
    intro s hcharge
    apply answer_avoids (EvalError.not_isOverflow_host _)
    intro predicate hq cell position
    have hheight := h q (Value.self_mem_subtrees q) ht predicate hq
    obtain ⟨hlimit, hcharge'⟩ := budget_of_charge_le hcharge hheight
    -- The queries of the predicate are among those of the query.
    have hnested : ∀ q' ∈ predicate.subtrees, q'.tag = .queryCells → FitsQuery data q' := by
      intro q' hq' ht'
      refine ih predicate hq q' hq' ht' ht' fun q'' hq'' => h q'' ?_
      have hmem := Value.mem_subtrees_trans hq'' hq'
      exact Value.mem_subtrees_of_child (hq ▸ List.mem_singleton.mpr rfl) hmem
    have hverdict := ((budgetRules data (limitsFor data s predicate)).eval (e := predicate) hnested
      [[cell]]).2 ⟨0, stateFor s predicate⟩ (by simpa using hlimit) hcharge'
    exact matchesCell_avoids hverdict (fun _ => EvalError.not_isOverflow_host _)
      fun _ hbad hover => hbad (isOverflow_of_predicateRefusal hover)

/-! ## Evaluations -/

/-- An expression that is no higher than the limit of its evaluation, with predicates no
    higher than the limit of the host, ends with a value or with an error that is no
    overflow, however its queries nest. -/
theorem no_overflow_of_height_le (data : Data) (limits : Limits) (e : Value) (scopes : Scopes)
    (s : State) (hcharge : s.charge = 0) (hheight : e.height ≤ limits.maxDepth)
    (hqueries : ∀ q ∈ e.subtrees, q.tag = .queryCells → ∀ predicate, q.children = [predicate] →
      predicate.height ≤ data.limits.maxDepth) :
    (Evaluator.eval (host data) limits e scopes ⟨0, s⟩).outcome.Avoids EvalError.IsOverflow ∧
    (Evaluator.evalList (host data) limits e scopes ⟨0, s⟩).outcome.Avoids
      EvalError.IsOverflow := by
  have hfits : ∀ q ∈ e.subtrees, q.tag = .queryCells → FitsQuery data q := by
    intro q hq ht
    exact fitsQuery_of_predicatesFit ht fun q' hq' => hqueries q' (Value.mem_subtrees_trans hq' hq)
  have hstart : s.charge ≤ data.limits.maxDepth := by omega
  constructor
  · exact ((budgetRules data limits).eval hfits scopes).2 ⟨0, s⟩ (by simpa using hheight) hstart
  · exact ((budgetRules data limits).evalList hfits scopes).2 ⟨0, s⟩ (by simpa using hheight)
      hstart

/-- A query within the predicate of a query, where both limits are just the heights. -/
theorem no_overflow_of_height_le_nested :
    let data : Data := ⟨[], [.bool true], ⟨3, none⟩⟩
    let inner : Value := .reduce (.bool true) .nil (.queryCells (.bool true))
    let e : Value := .map (.arg 0) (.queryCells inner)
    e.height = 5 ∧ inner.height = 3 ∧
      (Evaluator.evalList (host data) ⟨5, none⟩ e [] ⟨0, .fresh []⟩).outcome.Avoids
        EvalError.IsOverflow := by
  refine ⟨by decide, by decide, ?_⟩
  refine (no_overflow_of_height_le _ _ _ _ _ rfl (by decide) ?_).2
  intro q hq ht predicate hpredicate
  simp only [Value.map, Value.reduce, Value.queryCells, Value.subtrees, Value.subtreesAll,
    List.mem_cons, List.mem_append, List.not_mem_nil, or_false] at hq
  -- Only the two queries are of interest, and each has one predicate.
  rcases hq with rfl | rfl | rfl | rfl | rfl | rfl | rfl | rfl <;>
    first
    | exact absurd ht (by decide)
    | cases hpredicate; decide

end Memory

end CellQuery
