import CellQuery.Proofs.Host.Answer

/-! # Queries as filters

    A predicate may bind parameters, fail, and ask further queries, but every cell is
    judged from the state in which the query started.  A query is therefore a filter: it
    selects cells by verdicts that do not depend on each other, and it leaves no
    trace on the host. -/

namespace CellQuery

namespace Memory

/-! ## Judging cells -/

/-- The truth value that a verdict is. -/
def accepts : Outcome (EvalError Error) Value → Bool
  | .ok (.bool b) => b
  | _ => false

section cells
variable {data : Data} {s : State} {predicate : Value}

/-- A cell at its position, judged from the state in which predicates are evaluated. -/
def judge (data : Data) (s : State) (predicate : Value) : Value × Nat → Step Bool :=
  fun (cell, position) =>
    forgetting (matchesCell (host data) (limitsFor data s predicate) predicate position cell)

theorem judge_state (entry : Value × Nat) :
    (judge data s predicate entry (stateFor s predicate)).state = stateFor s predicate :=
  forgetting_matchesCell_state data _ predicate entry.2 entry.1 _

theorem judge_of_bool {cell : Value} {b : Bool}
    (h : (verdict data s predicate cell).outcome = .ok (.bool b)) (position : Nat) :
    (judge data s predicate (cell, position) (stateFor s predicate)).outcome = .ok b := by
  unfold verdict at h
  simp only [judge, forgetting, matchesCell, h]

theorem judge_of_value {cell v : Value}
    (h : (verdict data s predicate cell).outcome = .ok v) (hv : ∀ b, v ≠ .bool b)
    (position : Nat) :
    (judge data s predicate (cell, position) (stateFor s predicate)).outcome =
      .error (.own (.nonBoolPredicate v.tag)) := by
  unfold verdict at h
  simp only [judge, forgetting, matchesCell, h]

theorem judge_of_error {cell : Value} {e : EvalError Error}
    (h : (verdict data s predicate cell).outcome = .error e) (position : Nat) :
    (judge data s predicate (cell, position) (stateFor s predicate)).outcome =
      .error (predicateRefusal position e) := by
  unfold verdict at h
  simp only [judge, forgetting, matchesCell, h]

theorem predicateRefusal_of_ne_limit {position : Nat} {e : EvalError Error}
    (h : ∀ l, e ≠ .limit l) : predicateRefusal position e = .own (.predicate position e) := by
  unfold predicateRefusal
  split
  · next l => exact absurd rfl (h l)
  · rfl

/-! ## Cells in order -/

variable {q : Value}

theorem answer_outcome (hq : q.children = [predicate]) :
    (answer data q s).outcome =
      ((Run.keep (judge data s predicate) data.cells.zipIdx >>= fun accepted =>
        pure (accepted.map Prod.fst)) (stateFor s predicate)).outcome := by
  rw [answer_eq, hq]
  simp only [charged_apply]
  rfl

theorem answer_of_nil (hq : q.children = []) :
    (answer data q s).outcome = .ok data.cells := by
  rw [answer_eq, hq]
  rfl

theorem answer_of_many {first second : Value} {rest : List Value}
    (hq : q.children = first :: second :: rest) :
    (answer data q s).outcome =
      .error (.own (.malformedQuery (first :: second :: rest).length)) := by
  rw [answer_eq, hq]
  rfl

theorem answer_of_bools (hq : q.children = [predicate])
    (h : ∀ cell ∈ data.cells, ∃ b, (verdict data s predicate cell).outcome = .ok (.bool b)) :
    (answer data q s).outcome =
      .ok (data.cells.filter fun cell => accepts (verdict data s predicate cell).outcome) := by
  have hjudge : ∀ entry ∈ data.cells.zipIdx,
      (judge data s predicate entry (stateFor s predicate)).outcome =
        .ok (accepts (verdict data s predicate entry.1).outcome) := by
    intro ⟨cell, position⟩ hmem
    obtain ⟨b, hb⟩ := h cell (List.fst_mem_of_mem_zipIdx hmem)
    rw [judge_of_bool hb position, hb]
    rfl
  rw [answer_outcome hq, Run.bind_of_ok (Run.keep_of_answers judge_state hjudge)]
  -- The positions only tag along.
  have hcells : (data.cells.zipIdx.filter fun entry =>
      accepts (verdict data s predicate entry.1).outcome).map Prod.fst =
        data.cells.filter fun cell => accepts (verdict data s predicate cell).outcome := by
    conv => rhs; rw [← List.zipIdx_map_fst 0 data.cells, List.filter_map]
    rfl
  show Outcome.ok _ = Outcome.ok _
  rw [hcells]

theorem answer_of_refusal (hq : q.children = [predicate]) {before after : List Value}
    {cell : Value} {r : Refusal Error} (hcells : data.cells = before ++ cell :: after)
    (h : ∀ c ∈ before, ∃ b, (verdict data s predicate c).outcome = .ok (.bool b))
    (hr : (judge data s predicate (cell, before.length) (stateFor s predicate)).outcome =
      .error r) :
    (answer data q s).outcome = .error r := by
  have hbefore : ∀ entry ∈ before.zipIdx,
      ∃ b, (judge data s predicate entry (stateFor s predicate)).outcome = .ok b := by
    intro ⟨c, position⟩ hmem
    obtain ⟨b, hb⟩ := h c (List.fst_mem_of_mem_zipIdx hmem)
    exact ⟨b, judge_of_bool hb position⟩
  -- The cell stands behind as many others as its position says.
  rw [answer_outcome hq, hcells, List.zipIdx_append, List.zipIdx_cons, Nat.zero_add,
    Run.bind_of_error (Run.keep_of_error judge_state hbefore hr)]

end cells

/-! ## Queries -/

/-- A query leaves the host as it was.  Without a predicate it finds every cell, with more
    than one it is malformed.  With one predicate

    * the verdict on a cell is a value or an error;
    * if each is a truth value, the query finds the cells with a true verdict, in order;
    * otherwise the first cell with another verdict decides: a limit stays a limit, any
      other error is reported with the position of the cell, and a value
      that is no truth value with its tag. -/
theorem query_filters (data : Data) (s : State) (q : Value) :
    let r := (host data).query q s
    r.state = s ∧
    match q.children with
    | [] => r.outcome = .ok data.cells
    | [predicate] =>
      let verdictOn := fun cell => (verdict data s predicate cell).outcome
      (∀ cell, (∃ v, verdictOn cell = .ok v) ∨ ∃ e, verdictOn cell = .error e) ∧
      ((∀ cell ∈ data.cells, ∃ b, verdictOn cell = .ok (.bool b)) →
        r.outcome = .ok (data.cells.filter fun cell => accepts (verdictOn cell))) ∧
      ∀ before cell after, data.cells = before ++ cell :: after →
        (∀ c ∈ before, ∃ b, verdictOn c = .ok (.bool b)) →
        (∀ l, verdictOn cell = .error (.limit l) → r.outcome = .error (.limit l)) ∧
        (∀ e, verdictOn cell = .error e → (∀ l, e ≠ .limit l) →
          r.outcome = .error (.own (.predicate before.length e))) ∧
        (∀ v, verdictOn cell = .ok v → (∀ b, v ≠ .bool b) →
          r.outcome = .error (.own (.nonBoolPredicate v.tag)))
    | children => r.outcome = .error (.own (.malformedQuery children.length)) := by
  refine ⟨answer_state data q s, ?_⟩
  match hq : q.children with
  | [] => exact answer_of_nil hq
  | _ :: _ :: _ => exact answer_of_many hq
  | [predicate] =>
    refine ⟨fun cell => ?_, answer_of_bools hq, fun before cell after hcells hbefore => ?_⟩
    · exact (eval_safe data _ predicate [[cell]] _).ok_or_error
    · refine ⟨fun l hl => ?_, fun e he hne => ?_, fun v hv hne => ?_⟩
      · exact answer_of_refusal hq hcells hbefore (judge_of_error hl _)
      · rw [← predicateRefusal_of_ne_limit hne]
        exact answer_of_refusal hq hcells hbefore (judge_of_error he _)
      · exact answer_of_refusal hq hcells hbefore (judge_of_value hv hne _)

/-- The second of three cells is the first on which the predicate fails; the binding that it
    makes before is gone. -/
theorem query_filters_second_cell :
    let data : Data := ⟨[], [.bool true, .nil, .uint 7], ⟨8, none⟩⟩
    let s : State := .fresh [none]
    let predicate : Value :=
      .node .and [.node .equal [.param 0, .uint 1], .node .not [.arg 0]]
    let r := (host data).query (.queryCells predicate) s
    (verdict data s predicate (.bool true)).outcome = .ok (.bool false) ∧
      r.outcome = .error (.own (.predicate 1 (.typeMismatch .not .bool .nil))) ∧
      r.state = s := by
  intro data s predicate r
  have htrue : (verdict data s predicate (.bool true)).outcome = .ok (.bool false) := by cbv
  have hnil : (verdict data s predicate .nil).outcome =
    .error (.typeMismatch .not .bool .nil) := by cbv
  have hbefore : ∀ c ∈ [Value.bool true], ∃ b, (verdict data s predicate c).outcome =
      .ok (.bool b) := by
    intro c hc
    rw [List.mem_singleton.mp hc]
    exact ⟨false, htrue⟩
  have hlimit : ∀ l, (.typeMismatch .not .bool .nil : EvalError Error) ≠ .limit l := by
    intro l h
    cases h
  have hquery := query_filters data s (.queryCells predicate)
  have hsecond := (hquery.2.2.2 [.bool true] .nil [.uint 7] rfl hbefore).2.1 _ hnil hlimit
  exact ⟨htrue, hsecond, hquery.1⟩

end Memory

end CellQuery
