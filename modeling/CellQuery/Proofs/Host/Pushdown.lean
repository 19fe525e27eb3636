import CellQuery.Proofs.Depth.Room
import CellQuery.Proofs.Host.Growth

/-! # Filters that are pushed down to the host

    The cells that a predicate accepts can be had in two ways: by a `FILTER` of all cells in
    the evaluator, or by a query with the predicate, which the host answers.  The first is one
    evaluation, under the limit on its loops; the second is an evaluation for each cell, each
    in an evaluator of its own.  If all parameters have values the two differ in nothing but
    the errors that they report:

    * a predicate starts with more room in the second, and with less charged in the first, but
      there is enough on both sides;
    * it has nothing to bind, so each cell is judged from the same state on both sides
      (`sift_state`, `judge_state`). -/

namespace CellQuery

open Run

/-- A computation on the result of a run does not change its state. -/
theorem Run.bind_lift_state {ω σ ε α β : Type} (x : Run ω σ ε α) (f : α → Outcome ε β) (s : σ) :
    ((x >>= fun a => lift (f a)) s).state = (x s).state := by
  cases h : (x s).outcome with
  | ok a => rw [bind_of_ok h]; rfl
  | error e => rw [bind_of_error h]
  | fault f => rw [bind_of_fault h]

namespace Memory

open Evaluator

/-! ## Verdicts on both sides -/

section verdicts
variable {data : Data} {s : State} {predicate : Value}

theorem fitsQuery_of_height_le (hheight : predicate.height ≤ data.limits.maxDepth) :
    ∀ q ∈ predicate.subtrees, q.tag = .queryCells → FitsQuery data q := by
  intro q hq ht
  apply fitsQuery_of_predicatesFit ht
  intro q' hq' _ nested hnested
  have hlt : nested.height < q'.height :=
    Value.height_child_lt (hnested ▸ List.mem_singleton.mpr rfl)
  have hle := Value.height_le_of_mem_subtrees (Value.mem_subtrees_trans hq' hq)
  omega

/-- The verdict of a query on a cell is that of an evaluation in front of the host which has
    room for the predicate. -/
theorem verdict_eq_eval (hcharge : s.charge ≤ data.limits.maxDepth) {limits : Limits}
    (hiterations : limits.maxIterations = data.limits.maxIterations) {depth : Nat}
    (hheight : predicate.height ≤ data.limits.maxDepth)
    (hroom : depth + predicate.height ≤ limits.maxDepth) (cell : Value) :
    (verdict data s predicate cell).outcome =
      (Evaluator.eval (host data) limits predicate [[cell]] ⟨depth, s⟩).outcome := by
  have hfits := fitsQuery_of_height_le hheight
  obtain ⟨hroom', hcharge'⟩ := budget_of_charge_le hcharge hheight
  have hwithin : (Evaluator.eval (host data) limits predicate [[cell]] ⟨depth, s⟩).outcome.Avoids
      EvalError.IsOverflow := ((budgetRules data limits).eval hfits [[cell]]).2 _ hroom hcharge
  have hverdict : (verdict data s predicate cell).outcome.Avoids EvalError.IsOverflow :=
    ((budgetRules data (limitsFor data s predicate)).eval hfits [[cell]]).2 _
      (by simpa using hroom') hcharge'
  have hlimits : (limitsFor data s predicate).maxIterations = limits.maxIterations :=
    hiterations.symm
  exact (eval_agree data hlimits predicate [[cell]] ⟨0, stateFor s predicate⟩ ⟨depth, s⟩ rfl
    hverdict hwithin).1

/-! ## `FILTER` -/

/-- How a `FILTER` judges a cell. -/
def sift (data : Data) (predicate cell : Value) : Evaluator.Step State Error Bool :=
  Evaluator.eval (host data) data.limits predicate [[cell]] >>= Evaluator.verdict

theorem sift_state {m : Machine State} (hbound : ∀ slot ∈ m.host.slots, slot ≠ .unbound)
    (cell : Value) : (sift data predicate cell m).state = m :=
  (bind_lift_state _ _ m).trans (eval_state_of_bound data data.limits predicate [[cell]] hbound)

variable {m : Machine State} {cell : Value}

theorem sift_of_bool {b : Bool}
    (h : (Evaluator.eval (host data) data.limits predicate [[cell]] m).outcome = .ok (.bool b)) :
    (sift data predicate cell m).outcome = .ok b := by
  unfold sift
  rw [bind_of_ok h]
  rfl

theorem sift_of_value {v : Value} (hv : ∀ b, v ≠ .bool b)
    (h : (Evaluator.eval (host data) data.limits predicate [[cell]] m).outcome = .ok v) :
    (sift data predicate cell m).outcome = .error (.typeMismatch .filter .bool v.tag) := by
  unfold sift
  rw [bind_of_ok h]
  cases v with
  | bool b => exact absurd rfl (hv b)
  | _ => rfl

theorem sift_of_error {e : EvalError Error}
    (h : (Evaluator.eval (host data) data.limits predicate [[cell]] m).outcome = .error e) :
    (sift data predicate cell m).outcome = .error e := by
  unfold sift
  rw [bind_of_error h]

/-- A query is put to the host as it stands, if there is room to ask. -/
theorem evalList_query_outcome {limits : Limits} (children : List Value)
    (hroom : m.depth < limits.maxDepth) :
    (Evaluator.evalList (host data) limits (.node .queryCells children) [] m).outcome =
      (answer data (.node .queryCells children) m.host).outcome.mapError Refusal.toEvalError := by
  have hsteady := steady_askQuery (keeps_nothing (host data)) (.node .queryCells children)
  calc (Evaluator.evalList (host data) limits (.node .queryCells children) [] m).outcome
    _ = (askQuery (host data) (.node .queryCells children)
          { m with depth := m.depth + 1 }).outcome := hsteady.activation_outcome hroom
    _ = _ := askQuery_outcome (host data) (.node .queryCells children) _

/-- A `FILTER` of a list judges its elements in order, if the limit on loops allows as many. -/
theorem evalList_filter_outcome {list : Value} {elements : List Value}
    (hbound : ∀ slot ∈ s.slots, slot ≠ .unbound) (hroom : 0 < data.limits.maxDepth)
    (hlist : (Evaluator.evalList (host data) data.limits list [] ⟨1, s⟩).outcome = .ok elements)
    (hiterations : data.limits.iterationFault? .filter elements.length = none) :
    (Evaluator.evalList (host data) data.limits (.filter predicate list) [] ⟨0, s⟩).outcome =
      (keep (sift data predicate) elements ⟨1, s⟩).outcome := by
  let all := Evaluator.evalList (host data) data.limits list []
  let rest (elements : List Value) : Evaluator.Step State Error (List Value) :=
    checkIterations data.limits .filter elements >>= fun _ => keep (sift data predicate) elements
  have hsift (cell : Value) : Steady (fun _ => ()) (sift data predicate cell) :=
    keeps_bind (steady_eval (host data) data.limits predicate [[cell]]) fun _ _ => rfl
  have hrest (elements : List Value) : Steady (fun _ => ()) (rest elements) :=
    keeps_bind (steady_checkIterations data.limits (fun _ => ()) .filter elements)
      fun _ => keeps_keep hsift elements
  have hsteady : Steady (fun _ => ()) (all >>= rest) :=
    keeps_bind (steady_evalList (host data) data.limits list []) hrest
  have hcheck : (checkIterations data.limits .filter elements :
      Evaluator.Step State Error Unit) = Pure.pure () := checkIterations_of_none hiterations
  calc (Evaluator.evalList (host data) data.limits (.filter predicate list) [] ⟨0, s⟩).outcome
    _ = ((all >>= rest) ⟨1, s⟩).outcome := hsteady.activation_outcome hroom
    _ = (rest elements ⟨1, s⟩).outcome := by
      rw [bind_of_ok hlist, evalList_state_of_bound data data.limits _ _ hbound]
    _ = (keep (sift data predicate) elements ⟨1, s⟩).outcome := by
      simp only [rest, hcheck, pure_bind]

end verdicts

/-! ## Both ways -/

/-- How an evaluation and a query report a verdict on the cell at the given position that is no
    truth value. -/
inductive Reported (position : Nat) :
    Outcome (EvalError Error) Value → EvalError Error → Refusal Error → Prop
  /-- A limit is reported as that limit by both. -/
  | limit (l : LimitExceeded) : Reported position (.error (.limit l)) (.limit l) (.limit l)
  /-- With any other error the query tells which cell it is about. -/
  | error (e : EvalError Error) (h : ∀ l, e ≠ .limit l) :
    Reported position (.error e) e (.own (.predicate position e))
  /-- Of a value that is no truth value both report the tag. -/
  | value (v : Value) (h : ∀ b, v ≠ .bool b) :
    Reported position (.ok v) (.typeMismatch .filter .bool v.tag) (.own (.nonBoolPredicate v.tag))

/-- The verdict is a truth value. -/
def isBool : Outcome (EvalError Error) Value → Bool
  | .ok (.bool _) => true
  | _ => false

theorem isBool_iff {o : Outcome (EvalError Error) Value} :
    isBool o = true ↔ ∃ b, o = .ok (.bool b) := by
  constructor
  · intro h
    unfold isBool at h
    split at h
    · next b => exact ⟨b, rfl⟩
    · cases h
  · rintro ⟨b, rfl⟩
    rfl

/-- All parameters have values, and the limits leave room for a `FILTER` of all cells by the
    predicate. -/
structure Fits (data : Data) (s : State) (predicate : Value) : Prop where
  bound : ∀ slot ∈ s.slots, slot ≠ .unbound
  charge : s.charge ≤ data.limits.maxDepth
  iterations : data.limits.iterationFault? .filter data.cells.length = none
  height : predicate.height + 1 ≤ data.limits.maxDepth

section fits
variable {data : Data} {s : State} {predicate : Value} (h : Fits data s predicate)
include h

/-- The verdicts of both are the same. -/
theorem Fits.eval_eq_verdict (cell : Value) :
    (Evaluator.eval (host data) data.limits predicate [[cell]] ⟨1, s⟩).outcome =
      (verdict data s predicate cell).outcome := by
  have hroom : 1 + predicate.height ≤ data.limits.maxDepth := by
    rw [Nat.add_comm]
    exact h.height
  exact (verdict_eq_eval h.charge rfl (Nat.le_of_succ_le h.height) hroom cell).symm

theorem Fits.sift_of_bool {cell : Value} {b : Bool}
    (hb : (verdict data s predicate cell).outcome = .ok (.bool b)) :
    (sift data predicate cell ⟨1, s⟩).outcome = .ok b :=
  Memory.sift_of_bool ((h.eval_eq_verdict cell).trans hb)

theorem Fits.filter_outcome :
    (Evaluator.evalList (host data) data.limits (.filter predicate .queryAllCells) []
      ⟨0, s⟩).outcome = (keep (sift data predicate) data.cells ⟨1, s⟩).outcome := by
  have hroom : 1 < data.limits.maxDepth := by
    have := h.height
    have := Value.height_eq predicate
    omega
  have hall : (Evaluator.evalList (host data) data.limits .queryAllCells [] ⟨1, s⟩).outcome =
      .ok data.cells := by
    rw [Value.queryAllCells, evalList_query_outcome [] hroom, answer_of_nil rfl]
    rfl
  exact evalList_filter_outcome h.bound (Nat.zero_lt_of_lt hroom) hall h.iterations

theorem Fits.filter_of_bools
    (hall : ∀ cell ∈ data.cells, ∃ b, (verdict data s predicate cell).outcome = .ok (.bool b)) :
    (Evaluator.evalList (host data) data.limits (.filter predicate .queryAllCells) []
      ⟨0, s⟩).outcome =
      .ok (data.cells.filter fun cell => accepts (verdict data s predicate cell).outcome) := by
  rw [h.filter_outcome]
  refine keep_of_answers (sift_state h.bound) fun cell hcell => ?_
  obtain ⟨b, hb⟩ := hall cell hcell
  rw [hb]
  exact h.sift_of_bool hb

theorem Fits.filter_of_error {before after : List Value} {cell : Value} {e : EvalError Error}
    (hcells : data.cells = before ++ cell :: after)
    (hbefore : ∀ c ∈ before, ∃ b, (verdict data s predicate c).outcome = .ok (.bool b))
    (he : (sift data predicate cell ⟨1, s⟩).outcome = .error e) :
    (Evaluator.evalList (host data) data.limits (.filter predicate .queryAllCells) []
      ⟨0, s⟩).outcome = .error e := by
  rw [h.filter_outcome, hcells]
  refine keep_of_error (sift_state h.bound) (fun c hc => ?_) he
  obtain ⟨b, hb⟩ := hbefore c hc
  exact ⟨b, h.sift_of_bool hb⟩

/-- What a cell without a truth value is reported as by a `FILTER` and by a query. -/
theorem Fits.exists_reported {cell : Value}
    (hcell : isBool (verdict data s predicate cell).outcome = false) (position : Nat) :
    ∃ e r, (sift data predicate cell ⟨1, s⟩).outcome = .error e ∧
      (judge data s predicate (cell, position) (stateFor s predicate)).outcome = .error r ∧
      Reported position (verdict data s predicate cell).outcome e r := by
  have hsame := h.eval_eq_verdict cell
  have hsafe := eval_safe data (limitsFor data s predicate) predicate [[cell]]
    ⟨0, stateFor s predicate⟩
  rcases hsafe.ok_or_error with ⟨v, hv⟩ | ⟨e, he⟩
  · change (verdict data s predicate cell).outcome = .ok v at hv
    have hne : ∀ b, v ≠ .bool b := by
      rintro b rfl
      rw [hv] at hcell
      cases hcell
    rw [hv] at hsame
    exact ⟨_, _, sift_of_value hne hsame, judge_of_value hv hne position, hv ▸ .value v hne⟩
  · change (verdict data s predicate cell).outcome = .error e at he
    rw [he] at hsame
    refine ⟨e, _, sift_of_error hsame, judge_of_error he position, ?_⟩
    rw [he]
    by_cases hlimit : ∃ l, e = .limit l
    · obtain ⟨l, rfl⟩ := hlimit
      exact .limit l
    · have hne : ∀ l, e ≠ .limit l := fun l hl => hlimit ⟨l, hl⟩
      rw [predicateRefusal_of_ne_limit hne]
      exact .error e hne

end fits

/-- A host with all parameters supplied is fit for it when its limits are. -/
theorem fits_fresh {data : Data} {params : List Value} {predicate : Value}
    (hiterations : ∀ most, data.limits.maxIterations = some most → data.cells.length ≤ most)
    (hheight : predicate.height + 1 ≤ data.limits.maxDepth) :
    Fits data (.fresh (params.map some)) predicate where
  bound := by simp [State.fresh, Slot.declared]
  charge := Nat.zero_le _
  iterations := iterationFault?_of_le hiterations
  height := hheight

/-- If all parameters have values and the limits leave room for a predicate on every cell, a
    `FILTER` of all cells and a query with the predicate come to the same verdicts.  Both yield the
    same cells, or both fail because of the same cell, the first without a truth value. -/
theorem filter_agrees_with_query (data : Data) (params : List Value) (predicate : Value)
    (hiterations : ∀ most, data.limits.maxIterations = some most → data.cells.length ≤ most)
    (hheight : predicate.height + 1 ≤ data.limits.maxDepth) :
    let s : State := .fresh (params.map some)
    let filtered := (Evaluator.evalList (host data) data.limits
      (.filter predicate .queryAllCells) [] ⟨0, s⟩).outcome
    let queried := ((host data).query (.queryCells predicate) s).outcome
    let verdictOn := fun cell => (verdict data s predicate cell).outcome
    (∀ cell, (Evaluator.eval (host data) data.limits predicate [[cell]] ⟨1, s⟩).outcome =
      verdictOn cell) ∧
    ((∃ cells, filtered = .ok cells ∧ queried = .ok cells) ∨
      ∃ before cell after e r, data.cells = before ++ cell :: after ∧
        (∀ c ∈ before, ∃ b, verdictOn c = .ok (.bool b)) ∧
        filtered = .error e ∧ queried = .error r ∧
        Reported before.length (verdictOn cell) e r) := by
  intro s filtered queried verdictOn
  have hfits : Fits data s predicate := fits_fresh hiterations hheight
  refine ⟨hfits.eval_eq_verdict, ?_⟩
  -- The cells are looked through for the first without a truth value.
  cases hfind : data.cells.find? fun cell => !isBool (verdictOn cell) with
  | none =>
    have hall : ∀ cell ∈ data.cells, ∃ b, verdictOn cell = .ok (.bool b) := by
      simpa [isBool_iff] using List.find?_eq_none.mp hfind
    exact .inl ⟨_, hfits.filter_of_bools hall, answer_of_bools rfl hall⟩
  | some cell =>
    obtain ⟨hcell, before, after, hcells, hbefore⟩ := List.find?_eq_some_iff_append.mp hfind
    have hbools : ∀ c ∈ before, ∃ b, verdictOn c = .ok (.bool b) := by
      simpa [isBool_iff] using hbefore
    obtain ⟨e, r, he, hr, hreported⟩ := hfits.exists_reported (by simpa using hcell) before.length
    exact .inr ⟨before, cell, after, e, r, hcells, hbools, hfits.filter_of_error hcells hbools he,
      answer_of_refusal rfl hcells hbools hr, hreported⟩

/-- A predicate with a query of its own, within limits that have nothing to spare: the first of
    two cells is accepted, on the second it fails. -/
theorem filter_agrees_with_query_nested :
    let data : Data := ⟨[], [.uint 1, .nil], ⟨7, some 2⟩⟩
    let present : Value := .node .not [.node .equal [.arg 0, .nil]]
    let sum : Value := .reduce (.node .plus [.arg 0, .arg 1]) (.param 0) (.queryCells present)
    let predicate : Value := .node .less [.arg 0, sum]
    let s : State := .fresh [some (.uint 2)]
    let filtered := (Evaluator.evalList (host data) data.limits
      (.filter predicate .queryAllCells) [] ⟨0, s⟩).outcome
    let queried := ((host data).query (.queryCells predicate) s).outcome
    let e : EvalError Error := .typeMismatch .less .uint64 .nil
    predicate.height + 1 = 7 ∧ filtered = .error e ∧ queried = .error (.own (.predicate 1 e)) := by
  intro data present sum predicate s filtered queried e
  have hheight : predicate.height + 1 = 7 := by decide
  have hfiltered : (Evaluator.evalList (host data) data.limits
      (.filter predicate .queryAllCells) [] ⟨0, s⟩).outcome = .error e := by cbv
  have hfirst : (verdict data s predicate (.uint 1)).outcome = .ok (.bool true) := by cbv
  have hsecond : (verdict data s predicate .nil).outcome =
    .error (.typeMismatch .less .uint64 .nil) := by cbv
  have hiterations : ∀ most, data.limits.maxIterations = some most → data.cells.length ≤ most := by
    rintro most ⟨⟩
    decide
  refine ⟨hheight, hfiltered, ?_⟩
  obtain ⟨_, ⟨cells, hok, _⟩ | ⟨before, cell, after, e', r, hcells, _, _, hr, hreported⟩⟩ :=
    filter_agrees_with_query data [.uint 2] predicate hiterations (by decide)
  · have hneither := hfiltered.symm.trans hok
    cases hneither
  · rw [show queried = .error r from hr]
    rcases before with _ | ⟨first, _ | ⟨second, rest⟩⟩
    · -- The first cell has a truth value, so it is not the one.
      cases hcells
      change Reported 0 (verdict data s predicate (.uint 1)).outcome e' r at hreported
      rw [hfirst] at hreported
      cases hreported with
      | value v h => exact absurd rfl (h true)
    · cases hcells
      change Reported 1 (verdict data s predicate .nil).outcome e' r at hreported
      rw [hsecond] at hreported
      cases hreported
      rfl
    · have hlength := congrArg List.length hcells
      simp [data] at hlength

end Memory

end CellQuery
