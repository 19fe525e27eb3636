import Mathlib.Data.Nat.Init
import CellQuery.Proofs.Eval.Rules
import CellQuery.Proofs.Host.Binding

/-! # Answers to queries

    The host answers a query by evaluations that may ask it further queries.  The
    definition bounds the nesting by the height of the query; the equations here do
    without the bound:

    * `Memory.answer_eq` unfolds the answer to a query on the host itself.
    * `Memory.query_induction` is the induction over queries that goes with it: a
      query may rely on what holds of all queries within its predicate.
    * `Memory.answer_state` says that a query leaves the host as it was. -/

namespace CellQuery

namespace Memory

/-! ## Hosts that answer alike -/

/-- Two hosts over the same data that answer the queries of an expression alike
    evaluate it alike. -/
def sameAnswers (data : Data) (answer₁ answer₂ : Value → Step (List Value)) (limits : Limits) :
    Evaluator.Coupling (hostWith data answer₁) limits (hostWith data answer₂) limits where
  covers e := ∀ q ∈ e.subtrees, q.tag = .queryCells → answer₁ q = answer₂ q
  scopes s₁ s₂ := s₁ = s₂
  inside _ _ x₁ x₂ := x₁ = x₂
  whole _ _ x₁ x₂ := x₁ = x₂
  covers_child he hc q hq := he q (Value.mem_subtrees_of_child hc hq)
  push _ hs := congrArg _ hs
  lift _ _ := rfl
  bind hx hf := by
    subst hx
    exact congrArg _ (funext hf)
  child _ _ hx := hx
  iterations _ _ := rfl
  arg _ hs := by
    subst hs
    rfl
  param _ := rfl
  binding _ _ _ _ := rfl
  query {e} he ht := by
    have hanswer := he e (Value.self_mem_subtrees e) ht
    unfold Evaluator.askQuery
    simp only [hostWith, hanswer]
    rfl
  activation _ hx := congrArg _ hx

theorem filterCells_congr {data : Data} {answer₁ answer₂ : Value → Step (List Value)}
    {predicate : Value} (h : ∀ q ∈ predicate.subtrees, q.tag = .queryCells →
      answer₁ q = answer₂ q) (limits : Limits) (cells : List Value) :
    filterCells (hostWith data answer₁) limits predicate cells =
      filterCells (hostWith data answer₂) limits predicate cells := by
  unfold filterCells matchesCell
  have heval : ∀ scopes,
      Evaluator.eval (hostWith data answer₁) limits predicate scopes =
        Evaluator.eval (hostWith data answer₂) limits predicate scopes :=
    fun scopes => (sameAnswers data answer₁ answer₂ limits).eval h rfl
  simp only [heval]

/-! ## Queries without the bound on their nesting -/

/-- Any bound that the height of the query respects gives the same answer. -/
theorem answerWithin_congr (data : Data) {n m : Nat} {q : Value} (hn : q.height ≤ n)
    (hm : q.height ≤ m) : answerWithin data n q = answerWithin data m q := by
  induction n generalizing m q with
  | zero =>
    have := Value.height_eq q
    omega
  | succ n ih =>
    cases m with
    | zero =>
      have := Value.height_eq q
      omega
    | succ m =>
      unfold answerWithin
      match hq : q.children with
      | [] => rfl
      | [predicate] =>
        have hlt : predicate.height < q.height :=
          Value.height_child_lt (hq ▸ List.mem_singleton.mpr rfl)
        -- What the predicate asks is lower than the query, and both bounds have room.
        have hsame : ∀ q' ∈ predicate.subtrees, q'.tag = .queryCells →
            answerWithin data n q' = answerWithin data m q' := by
          intro q' hq' _
          have := Value.height_le_of_mem_subtrees hq'
          exact ih (by omega) (by omega)
        simp only [filterCells_congr hsame]
      | _ :: _ :: _ => rfl

/-- The answer to a query, in terms of the host that gives it. -/
theorem answer_eq (data : Data) (q : Value) :
    answer data q =
      match q.children with
      | [] => pure data.cells
      | [predicate] =>
        charged data predicate fun limits => filterCells (host data) limits predicate data.cells
      | children => Run.fail (.own (.malformedQuery children.length)) := by
  unfold answer
  rw [Value.height_eq, Nat.add_comm]
  unfold answerWithin
  match hq : q.children with
  | [] => rfl
  | [predicate] =>
    -- The bound that is left is the height of the predicate.
    have hsame : ∀ q' ∈ predicate.subtrees, q'.tag = .queryCells →
        answerWithin data (Value.heightAll [predicate]) q' = answer data q' := by
      intro q' hq' _
      have hle := Value.height_le_of_mem_subtrees hq'
      rw [Value.heightAll_singleton]
      exact answerWithin_congr data hle (Nat.le_refl _)
    simp only [filterCells_congr hsame]
    rfl
  | _ :: _ :: _ => rfl

/-- What a query inherits from the queries within its predicate holds of every query. -/
theorem query_induction {P : Value → Prop}
    (step : ∀ q, (∀ predicate, q.children = [predicate] →
      ∀ q' ∈ predicate.subtrees, q'.tag = .queryCells → P q') → P q) (q : Value) : P q := by
  induction hn : q.height using Nat.strong_induction_on generalizing q with
  | _ n ih =>
    apply step
    intro predicate hq q' hq' _
    have hlt : predicate.height < q.height :=
      Value.height_child_lt (hq ▸ List.mem_singleton.mpr rfl)
    have hle := Value.height_le_of_mem_subtrees hq'
    exact ih q'.height (by omega) q' rfl

/-! ## What a query leaves as it was -/

/-- A step under a charge runs on what is left of the limit, and gives the charge back. -/
theorem charged_apply {α : Type} (data : Data) (predicate : Value) (step : Limits → Step α)
    (s : State) :
    charged data predicate step s =
      let used := levelsUsed s.charge predicate.height
      let r := step { data.limits with maxDepth := data.limits.maxDepth - used }
        { s with charge := used + predicate.height }
      { r with state := { r.state with charge := s.charge } } := by
  simp only [charged, Value.scanHeight_eq]

theorem filterCells_slots (host : Host State Error) (limits : Limits) (predicate : Value)
    (cells : List Value) :
    Run.Keeps State.slots (filterCells host limits predicate cells) := by
  apply Run.keeps_bind
  · exact Run.keeps_keep (fun _ _ => rfl) cells.zipIdx
  · exact fun _ _ => rfl

/-- A query changes nothing on the host, whether it is answered or refused. -/
theorem answer_state (data : Data) (q : Value) (s : State) : (answer data q s).state = s := by
  rw [answer_eq]
  match q.children with
  | [] => rfl
  | [predicate] =>
    simp only [charged_apply, filterCells_slots (host data) _ predicate data.cells _]
  | _ :: _ :: _ => rfl

theorem bind_charge (index : Nat) (v : Value) (s : State) :
    (bind index v s).2.charge = s.charge := by
  rcases bind_changes index v s with hstate | ⟨_, hstate⟩
  · rw [hstate]
  · rw [hstate]
    rfl

/-- A refusal to bind is no limit, and says nothing about a predicate. -/
theorem bind_refusal {index : Nat} {v : Value} {s : State} {r : Refusal Error}
    (h : (bind index v s).1 = .error r) :
    ∃ e, r = .own e ∧ ∀ cell source, e ≠ .predicate cell source := by
  obtain ⟨_, ⟨_, rfl⟩ | ⟨_, held, _, _, rfl⟩⟩ := bind_refused h
  · exact ⟨_, rfl, fun _ _ he => by cases he⟩
  · exact ⟨_, rfl, fun _ _ he => by cases he⟩

/-- No request changes the charge for good. -/
theorem keeps_charge (data : Data) : (host data).Keeps State.charge where
  arg _ _ := rfl
  param _ _ := rfl
  bind := bind_charge
  query q s := congrArg State.charge (answer_state data q s)

/-! ## Verdicts -/

/-- The limits under which a predicate is evaluated. -/
def limitsFor (data : Data) (s : State) (predicate : Value) : Limits :=
  { data.limits with
    maxDepth := data.limits.maxDepth - levelsUsed s.charge predicate.height }

/-- The state in which a predicate is evaluated on each cell. -/
def stateFor (s : State) (predicate : Value) : State :=
  { s with charge := levelsUsed s.charge predicate.height + predicate.height }

/-- The evaluation of a predicate on a cell, for a query that starts in the given state. -/
def verdict (data : Data) (s : State) (predicate cell : Value) :
    Ran (Event Error) (Machine State) (EvalError Error) Value :=
  Evaluator.eval (host data) (limitsFor data s predicate) predicate [[cell]]
    ⟨0, stateFor s predicate⟩

/-- Whatever a predicate does to the host is undone after the cell. -/
theorem forgetting_matchesCell_state (data : Data) (limits : Limits) (predicate : Value)
    (position : Nat) (cell : Value) (s : State) :
    (forgetting (matchesCell (host data) limits predicate position cell) s).state = s := by
  have hsteady : Evaluator.Steady State.charge
      (Evaluator.eval (host data) limits predicate [[cell]]) :=
    (Evaluator.steadyRules (keeps_charge data) limits).eval trivial [[cell]]
  have hcharge := hsteady.host ⟨0, s⟩
  -- The slots are put back; the charge is the same because every request gives it back.
  show State.mk s.slots
    (Evaluator.eval (host data) limits predicate [[cell]] ⟨0, s⟩).state.host.charge = s
  rw [hcharge]

/-- What happens during a query is what happens during its verdicts, and it ends as
    they do, unless it is malformed. -/
theorem answer_ends {P : List (Event Error) → Outcome (Refusal Error) Unit → Prop} {data : Data}
    {q : Value} {s : State} (hnil : P [] (.ok ()))
    (hmalformed : P [] (.error (.own (.malformedQuery q.children.length))))
    (happend : ∀ as bs o, P as (.ok ()) → P bs o → P (as ++ bs) o)
    (h : ∀ predicate, q.children = [predicate] → ∀ cell position,
      data.cells[position]? = some cell →
      let r := matchesCell (host data) (limitsFor data s predicate) predicate position cell
        (stateFor s predicate)
      P r.events r.outcome.ending) :
    P (answer data q s).events (answer data q s).outcome.ending := by
  rw [answer_eq]
  match hq : q.children with
  | [] => exact hnil
  | [predicate] =>
    simp only [charged_apply]
    apply Run.ends_bind happend _ fun _ => hnil
    apply Run.ends_keep (g := id) hnil happend
    · exact fun _ => forgetting_matchesCell_state data _ predicate _ _
    · intro ⟨cell, position⟩ hmem t ht
      rw [show t = stateFor s predicate from ht]
      exact h predicate hq cell position (List.mk_mem_zipIdx_iff_getElem?.mp hmem)
  | _ :: _ :: _ =>
    rw [hq] at hmalformed
    exact hmalformed

theorem answer_events {P : List (Event Error) → Prop} {data : Data} {q : Value} {s : State}
    (hnil : P []) (happend : ∀ as bs, P as → P bs → P (as ++ bs))
    (h : ∀ predicate, q.children = [predicate] →
      ∀ cell, P (verdict data s predicate cell).events) : P (answer data q s).events :=
  answer_ends (P := fun es _ => P es) hnil hnil (fun as bs _ => happend as bs)
    fun predicate hq cell _ _ => h predicate hq cell

/-- A query ends badly only if it is malformed or one of its verdicts makes it so. -/
theorem answer_avoids {bad : Refusal Error → Prop} {data : Data} {q : Value} {s : State}
    (hmalformed : ¬bad (.own (.malformedQuery q.children.length)))
    (h : ∀ predicate, q.children = [predicate] → ∀ cell position,
      (matchesCell (host data) (limitsFor data s predicate) predicate position cell
        (stateFor s predicate)).outcome.Avoids bad) :
    (answer data q s).outcome.Avoids bad :=
  Outcome.avoids_ending.mp (answer_ends (P := fun _ o => o.Avoids bad) trivial hmalformed
    (fun _ _ _ _ h => h)
    fun predicate hq cell position _ => Outcome.avoids_ending.mpr (h predicate hq cell position))

theorem matchesCell_avoids {bad : EvalError Error → Prop} {bad' : Refusal Error → Prop}
    {host : Host State Error} {limits : Limits} {predicate cell : Value} {position : Nat}
    {s : State} (h : (Evaluator.eval host limits predicate [[cell]] ⟨0, s⟩).outcome.Avoids bad)
    (hnonBool : ∀ tag, ¬bad' (.own (.nonBoolPredicate tag)))
    (herror : ∀ e, ¬bad e → ¬bad' (predicateRefusal position e)) :
    (matchesCell host limits predicate position cell s).outcome.Avoids bad' := by
  unfold matchesCell
  simp only
  split
  · trivial
  · next v _ _ => exact hnonBool v.tag
  · next e heq => rw [heq] at h; exact herror e h
  · next f heq => rw [heq] at h; exact h

/-- A query finds cells of the host, in order. -/
theorem answer_sublist (data : Data) (q : Value) (s : State) :
    (answer data q s).outcome.Ensures fun cells => cells.Sublist data.cells := by
  rw [answer_eq]
  match q.children with
  | [] => exact List.Sublist.refl data.cells
  | _ :: _ :: _ => trivial
  | [predicate] =>
    simp only [charged_apply]
    apply Run.ensures_bind (Run.keep_sublist _ data.cells.zipIdx _)
    intro accepted haccepted
    -- The positions only tag along.
    have hcells := haccepted.map Prod.fst
    rw [List.zipIdx_map_fst] at hcells
    exact hcells

/-! ## Safety -/

/-- A query is answered or refused; the bound on nested queries is never reached. -/
theorem answer_safe (data : Data) (q : Value) :
    ∀ s, (answer data q s).outcome.Avoids fun _ => False := by
  induction q using query_induction with
  | step q ih =>
    intro s
    apply answer_avoids not_false
    intro predicate hq cell position
    have hverdict := ((Evaluator.safeRules (host data) (limitsFor data s predicate)).eval
      (e := predicate) (ih predicate hq) [[cell]]).2 ⟨0, stateFor s predicate⟩
    exact matchesCell_avoids hverdict (fun _ => not_false) (fun _ _ => not_false)

/-- An evaluation on the host ends with a value or an error. -/
theorem eval_safe (data : Data) (limits : Limits) (e : Value) (scopes : Scopes)
    (m : Machine State) :
    (Evaluator.eval (host data) limits e scopes m).outcome.Avoids fun _ => False :=
  ((Evaluator.safeRules (host data) limits).eval (fun q _ _ => answer_safe data q) scopes).2 m

theorem evalList_safe (data : Data) (limits : Limits) (e : Value) (scopes : Scopes)
    (m : Machine State) :
    (Evaluator.evalList (host data) limits e scopes m).outcome.Avoids fun _ => False :=
  ((Evaluator.safeRules (host data) limits).evalList
    (fun q _ _ => answer_safe data q) scopes).2 m

end Memory

end CellQuery
