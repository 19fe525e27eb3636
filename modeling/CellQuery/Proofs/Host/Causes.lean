import CellQuery.Proofs.Eval.Refusal
import CellQuery.Proofs.Host.Filter

/-! # The causes of an error

    When a predicate fails the host wraps its error in one of its own, which names the cell;
    a limit it passes on as it is.  Where queries are nested in one another an error may
    be wrapped several times, once for each of them.

    * `Memory.layered` puts an error into layers, and `Memory.texts_layered` reads them off
      the texts of the error and its causes.
    * `Memory.Chain` says what errors there are: no more layers than queries are nested, and
      none of them around a limit.  The induction is the one over queries.
    * `Memory.Hits` follows an evaluation into the predicates that the host evaluates for it.
      Wherever a limit is hit, it is the error of the evaluation. -/

namespace CellQuery

/-! ## Nested queries -/

namespace Value

mutual

/-- How many queries are nested in one another, at most. -/
def nesting : Value → Nat
  | node tag children => (if tag = .queryCells then 1 else 0) + nestingAll children
  | _ => 0

/-- The same for the expressions of a list. -/
def nestingAll : List Value → Nat
  | [] => 0
  | v :: vs => max v.nesting (nestingAll vs)

end

theorem nesting_le_nestingAll {v : Value} {vs : List Value} (h : v ∈ vs) :
    v.nesting ≤ nestingAll vs := by
  induction vs with
  | nil => simp at h
  | cons w ws ih =>
    simp only [nestingAll]
    rcases List.mem_cons.mp h with rfl | h
    · exact Nat.le_max_left _ _
    · exact Nat.le_trans (ih h) (Nat.le_max_right _ _)

theorem nesting_child_le {v c : Value} (h : c ∈ v.children) : c.nesting ≤ v.nesting := by
  cases v with
  | node tag children =>
    have := nesting_le_nestingAll h
    simp only [nesting]
    exact Nat.le_trans this (Nat.le_add_left _ _)
  | _ => cases h

/-- A query with a predicate nests one query more than the predicate. -/
theorem nesting_query {q predicate : Value} (ht : q.tag = .queryCells)
    (hq : q.children = [predicate]) : q.nesting = predicate.nesting + 1 := by
  cases q with
  | node tag children =>
    obtain rfl : tag = .queryCells := ht
    obtain rfl : children = [predicate] := hq
    simp [nesting, nestingAll, Nat.add_comm]
  | _ => cases hq

end Value

namespace Memory

open Evaluator Event

/-! ## Layers -/

/-- An error in layers of failed predicates, given by the positions of the cells, outermost
    layer first. -/
def layered (cells : List Nat) (base : EvalError Error) : EvalError Error :=
  cells.foldr (fun cell source => .host (.predicate cell source)) base

/-- The text of a layer. -/
def layerText (cell : Nat) : String :=
  "cell predicate failed on cell " ++ toString cell

/-- The error is in no layer. -/
def Unlayered (base : EvalError Error) : Prop :=
  ∀ cell source, base ≠ .host (.predicate cell source)

theorem unlayered_limit (l : LimitExceeded) : Unlayered (.limit l) := by
  intro cell source h
  cases h

/-- The host's other refusals are no layers. -/
theorem unlayered_host {e : Error} (h : ∀ cell source, e ≠ .predicate cell source) :
    Unlayered (.host e) := by
  intro cell source heq
  exact h cell source (EvalError.host.inj heq)

theorem unlayered_of_local {e : EvalError Error} (h : e.Local) : Unlayered e := by
  rintro cell source rfl
  exact h

/-- The layers of an error are determined by the error. -/
theorem layered_inj {cells cells' : List Nat} {base base' : EvalError Error}
    (hbase : Unlayered base) (hbase' : Unlayered base')
    (h : layered cells base = layered cells' base') : cells = cells' ∧ base = base' := by
  induction cells generalizing cells' with
  | nil =>
    cases cells' with
    | nil => exact ⟨rfl, h⟩
    | cons cell cells' => exact absurd h (hbase cell _)
  | cons cell cells ih =>
    cases cells' with
    | nil => exact absurd h.symm (hbase' cell _)
    | cons cell' cells' =>
      injection h with h
      injection h with hcell h
      obtain ⟨rfl, rfl⟩ := ih h
      exact ⟨congrArg (· :: cells) hcell, rfl⟩

theorem causes_of_unlayered {base : EvalError Error} (h : Unlayered base) : base.causes = [] := by
  cases base with
  | host e =>
    cases e with
    | predicate cell source => exact absurd rfl (h cell source)
    | _ => rfl
  | _ => rfl

/-- Below a layer are the error in it and what is below that. -/
theorem causes_predicate (cell : Nat) (source : EvalError Error) :
    (Error.predicate cell source).causes = source.message :: source.causes := by
  cases source <;> rfl

/-- The texts are those of the layers, from the outside in, and then that of the error in them. -/
theorem texts_layered (cells : List Nat) {base : EvalError Error} (h : Unlayered base) :
    (layered cells base).message :: (layered cells base).causes =
      cells.map layerText ++ [base.message] := by
  induction cells with
  | nil => rw [layered, List.foldr_nil, causes_of_unlayered h, List.map_nil, List.nil_append]
  | cons cell cells ih =>
    show layerText cell :: (Error.predicate cell (layered cells base)).causes = _
    rw [causes_predicate, ih, List.map_cons, List.cons_append]

/-! ## Chains -/

/-- The error is in at most the given number of layers, each of which names a cell of the
    host; a limit is in none. -/
def Chain (data : Data) (n : Nat) (e : EvalError Error) : Prop :=
  ∃ cells base, e = layered cells base ∧ Unlayered base ∧ cells.length ≤ n ∧
    (∀ cell ∈ cells, cell < data.cells.length) ∧ ∀ l, base = .limit l → cells = []

variable {data : Data} {n : Nat}

theorem chain_of_unlayered {e : EvalError Error} (h : Unlayered e) : Chain data n e :=
  ⟨[], e, rfl, h, Nat.zero_le n, by simp, fun _ _ => rfl⟩

theorem Chain.mono {n' : Nat} {e : EvalError Error} (h : Chain data n e) (hle : n ≤ n') :
    Chain data n' e := by
  obtain ⟨cells, base, he, hbase, hlength, hrest⟩ := h
  exact ⟨cells, base, he, hbase, Nat.le_trans hlength hle, hrest⟩

/-- A failed predicate adds one layer, unless it has exceeded a limit. -/
theorem Chain.predicateRefusal {e : EvalError Error} (h : Chain data n e) {position : Nat}
    (hposition : position < data.cells.length) :
    Chain data (n + 1) (predicateRefusal position e).toEvalError := by
  unfold Memory.predicateRefusal
  split
  · next l => exact chain_of_unlayered (unlayered_limit l)
  · next hlimit =>
    obtain ⟨cells, base, rfl, hbase, hlength, hcells, hbare⟩ := h
    refine ⟨position :: cells, base, rfl, hbase, Nat.succ_le_succ hlength,
      List.forall_mem_cons.mpr ⟨hposition, hcells⟩, ?_⟩
    rintro l rfl
    exact absurd (by rw [hbare l rfl]; rfl) (hlimit l)

/-! ## Evaluations -/

/-- If the ending is an error, the error is a chain. -/
def Chained (data : Data) (n : Nat) (ending : Outcome (EvalError Error) Unit) : Prop :=
  ∀ e, ending = .error e → Chain data n e

theorem chained_error {e : EvalError Error} (h : Chain data n e) : Chained data n (.error e) := by
  intro e' he'
  obtain rfl := Outcome.error.inj he'
  exact h

theorem chained_ok : Chained data n (.ok ()) := by
  intro e he
  cases he

theorem chained_fault (f : Fault) : Chained data n (.fault f) := by
  intro e he
  cases he

/-- The query is answered, or refused with a chain. -/
def ChainedQuery (data : Data) (q : Value) : Prop :=
  ∀ s, Chained data q.nesting ((answer data q s).outcome.ending.mapError Refusal.toEvalError)

theorem unlayered_bind {index : Nat} {v : Value} {s : State} {r : Refusal Error}
    (h : (bind index v s).1 = .error r) : Unlayered r.toEvalError := by
  obtain ⟨e, rfl, hne⟩ := bind_refusal h
  exact unlayered_host hne

/-- Evaluations, given that their queries are as they should be. -/
def chainRules (data : Data) (limits : Limits) : Rules (host data) limits where
  covers e := ∀ q ∈ e.subtrees, q.tag = .queryCells → ChainedQuery data q
  inside e _ x := Ends (fun _ => Chained data e.nesting) x
  whole e _ x := Ends (fun _ => Chained data e.nesting) x
  covers_child he hc q hq := he q (Value.mem_subtrees_of_child hc hq)
  lift {_ _ x} _ hx := by
    apply ends_lift
    cases x with
    | ok a => exact chained_ok
    | error e => exact chained_error (chain_of_unlayered (unlayered_of_local hx))
    | fault f => exact hx.elim
  bind := ends_bind fun _ _ _ _ h => h
  child _ hc hx := ⟨hx.1, fun m e he => (hx.2 m e he).mono (Value.nesting_child_le hc)⟩
  arg _ _ := ⟨fun _ => rfl, fun _ => chained_ok⟩
  param _ := ⟨fun _ => rfl, fun _ => chained_ok⟩
  binding _ _ _ _ := ends_askBind chained_ok fun _ _ h =>
    chained_error (chain_of_unlayered (unlayered_bind h))
  query {e} he ht := ends_askQuery (he e (Value.self_mem_subtrees e) ht)
  activation _ hx := by
    refine ends_activation (fun depth maxDepth => ?_) (fun _ _ h => h) hx
    exact chained_error (chain_of_unlayered (unlayered_limit (.stackOverflow depth maxDepth)))

/-- What the host makes of a predicate that fails has one layer more. -/
theorem chained_matchesCell {limits : Limits} {predicate cell : Value} {position : Nat} {s : State}
    (h : Ends (fun _ => Chained data n) (eval (host data) limits predicate [[cell]]))
    (hposition : position < data.cells.length) :
    let r := matchesCell (host data) limits predicate position cell s
    Chained data (n + 1) (r.outcome.ending.mapError Refusal.toEvalError) := by
  have hchain := h.2 ⟨0, s⟩
  unfold matchesCell
  simp only
  split
  · exact chained_ok
  · exact chained_error (chain_of_unlayered (unlayered_host fun _ _ h => by cases h))
  · next e heq =>
    rw [heq] at hchain
    exact chained_error ((hchain e rfl).predicateRefusal hposition)
  · next f _ => exact chained_fault f

/-- Every query is as it should be. -/
theorem chained_answer (data : Data) (q : Value) (ht : q.tag = .queryCells) :
    ChainedQuery data q := by
  induction q using query_induction with
  | step q ih =>
    intro s
    apply answer_ends
      (P := fun _ o => Chained data q.nesting (o.mapError Refusal.toEvalError))
      chained_ok _ (fun _ _ _ _ h => h)
    · intro predicate hq cell position hcell
      have hposition : position < data.cells.length := (List.getElem?_eq_some_iff.mp hcell).1
      have hcovers : (chainRules data (limitsFor data s predicate)).covers predicate :=
        fun q' hq' ht' => ih predicate hq q' hq' ht' ht'
      have hpredicate := (chainRules data (limitsFor data s predicate)).eval hcovers [[cell]]
      rw [Value.nesting_query ht hq]
      exact chained_matchesCell hpredicate hposition
    · exact chained_error (chain_of_unlayered (unlayered_host fun _ _ h => by cases h))

theorem chained_evaluations (data : Data) (limits : Limits) (e : Value) (scopes : Scopes) :
    Ends (fun _ => Chained data e.nesting) (eval (host data) limits e scopes) ∧
      Ends (fun _ => Chained data e.nesting) (evalList (host data) limits e scopes) := by
  have hcovers : (chainRules data limits).covers e := fun q _ ht => chained_answer data q ht
  exact ⟨(chainRules data limits).eval hcovers scopes,
    (chainRules data limits).evalList hcovers scopes⟩

/-! ## Limits -/

/-- An evaluation that began with the given machine hits a limit: it ends with the limit, or a
    predicate hits it that the host evaluates on a cell for one of the queries.  There the
    query is the request at a position, the host is in the state that the requests
    before have left it in, and all cells before have got a truth value. -/
inductive Hits (data : Data) (l : LimitExceeded) : {α : Type} → Machine State →
    Ran (Event Error) (Machine State) (EvalError Error) α → Prop where
  | itself {α : Type} {m : Machine State}
      {r : Ran (Event Error) (Machine State) (EvalError Error) α}
      (outcome : r.outcome = .error (.limit l)) : Hits data l m r
  | predicate {α : Type} {m : Machine State}
      {r : Ran (Event Error) (Machine State) (EvalError Error) α} {position : Nat} {s : State}
      {q predicate cell : Value} {before after : List Value}
      (asked : (requestsOf r.events)[position]?.bind Event.query? = some q)
      (state : ((host data).replay m.host ((requestsOf r.events).take position)).2 = s)
      (child : q.children = [predicate])
      (cells : data.cells = before ++ cell :: after)
      (judged : ∀ c ∈ before, ∃ b, (verdict data s predicate c).outcome = .ok (.bool b))
      (below : Hits data l ⟨0, stateFor s predicate⟩ (verdict data s predicate cell)) :
      Hits data l m r

/-- A limit that is hit is the error. -/
theorem Hits.outcome {l : LimitExceeded} {α : Type} {m : Machine State}
    {r : Ran (Event Error) (Machine State) (EvalError Error) α} (h : Hits data l m r)
    (hr : Surfaces (host data) m r) : r.outcome = .error (.limit l) := by
  induction h with
  | itself outcome => exact outcome
  | @predicate _ m r position s q predicate cell before after asked state child cells judged _ ih =>
    -- The predicate ends with the limit, so the query is refused with it.
    have hverdict := ih (eval_surfaces _ _ _ _ _)
    have hanswer : (answer data q s).outcome = .error (.limit l) :=
      answer_of_refusal child cells judged (judge_of_error hverdict _)
    subst state
    exact hr.of_refused_query asked hanswer

/-! ## Errors and their causes -/

/-- No layer is right around a limit. -/
theorem Chain.not_limit {e : EvalError Error} (h : Chain data n e) (outer : List Nat) (cell : Nat)
    (l : LimitExceeded) : e ≠ layered outer (.host (.predicate cell (.limit l))) := by
  rintro rfl
  obtain ⟨cells, base, he, hbase, _, _, hbare⟩ := h
  have hsplit : layered outer (.host (.predicate cell (.limit l))) =
      layered (outer ++ [cell]) (.limit l) := by
    rw [layered, layered, List.foldr_append]
    rfl
  obtain ⟨rfl, rfl⟩ := layered_inj (unlayered_limit l) hbase (hsplit.symm.trans he)
  exact absurd (hbare l rfl) (by simp)

/-- An error of an evaluation is one that is no failed predicate, in layers of failed
    predicates.  There are at most as many layers as queries are nested, and each names a
    cell that is there.  A limit is in no layer: wherever it is hit, however deep queries are
    nested there, it is the error of the evaluation.  The texts of the error and its causes are
    those of the layers, from the outside in, and then that of the error in them. -/
theorem errors_are_layered (data : Data) (limits : Limits) (e : Value) (scopes : Scopes)
    (m : Machine State) :
    let value := eval (host data) limits e scopes m
    let list := evalList (host data) limits e scopes m
    (∀ err, value.outcome = .error err ∨ list.outcome = .error err →
      ∃ cells base, err = layered cells base ∧ Unlayered base ∧
        cells.length ≤ e.nesting ∧ (∀ cell ∈ cells, cell < data.cells.length) ∧
        (∀ l, base = .limit l → cells = []) ∧
        (∀ outer cell l, err ≠ layered outer (.host (.predicate cell (.limit l)))) ∧
        err.message :: err.causes = cells.map layerText ++ [base.message] ∧
        err.causes.length = cells.length) ∧
    (∀ l, Hits data l m value → value.outcome = .error (.limit l)) ∧
    ∀ l, Hits data l m list → list.outcome = .error (.limit l) := by
  intro value list
  obtain ⟨hvalue, hlist⟩ := chained_evaluations data limits e scopes
  refine ⟨fun err herr => ?_, fun l hl => hl.outcome (eval_surfaces _ _ _ _ _),
    fun l hl => hl.outcome (evalList_surfaces _ _ _ _ _)⟩
  have hchain : Chain data e.nesting err := by
    rcases herr with herr | herr
    · exact hvalue.2 m err (Outcome.ending_eq_error.mpr herr)
    · exact hlist.2 m err (Outcome.ending_eq_error.mpr herr)
  have hlimit := hchain.not_limit
  obtain ⟨cells, base, rfl, hbase, hlength, hcells, hbare⟩ := hchain
  have htexts := texts_layered cells hbase
  refine ⟨cells, base, rfl, hbase, hlength, hcells, hbare, hlimit, htexts, ?_⟩
  have hcount := congrArg List.length htexts
  simpa using hcount

/-- A query in the predicate of a query fails on the first cell when the outer one has got to
    the second.  Under a lower limit its predicate is refused already when the outer one is
    at the first cell, and that is the error. -/
theorem errors_are_layered_nested :
    let test : Value := .node .not [.param 0]
    let outer : Value :=
      .reduce (.bool true) (.node .equal [.param 0, .arg 0]) (.queryCells test)
    let e : Value := .queryCells outer
    let data : Data := ⟨[], [.bool true, .uint 5], {}⟩
    let tight : Data := ⟨[], [.bool true, .uint 5], ⟨3, none⟩⟩
    let m : Machine State := ⟨0, .fresh [none]⟩
    let base : EvalError Error := .typeMismatch .not .bool .uint64
    let err := layered [1, 0] base
    let l : LimitExceeded := .stackOverflow 1 1
    e.nesting = 2 ∧ (evalList (host data) {} e [] m).outcome = .error err ∧
      err.message :: err.causes = [1, 0].map layerText ++ [base.message] ∧
      Hits tight l m (evalList (host tight) {} e [] m) ∧
      (evalList (host tight) {} e [] m).outcome = .error (.limit l) := by
  intro test outer e data tight m base err l
  have hnesting : e.nesting = 2 := by decide
  have houtcome : (evalList (host data) {} e [] m).outcome = .error err := by cbv
  obtain ⟨cells, base', herr, hbase', _, _, _, _, htexts, _⟩ :=
    (errors_are_layered data {} e [] m).1 err (.inr houtcome)
  have hbase : Unlayered base := unlayered_of_local trivial
  obtain ⟨rfl, rfl⟩ := layered_inj hbase hbase' herr
  -- The inner query is asked when the parameter has been solved.
  let s : State := ⟨[.solved (.bool true)], 4⟩
  have hinner : Hits tight l ⟨0, stateFor s test⟩ (verdict tight s test (.bool true)) :=
    .itself (by cbv)
  have hcells : tight.cells = [] ++ .bool true :: [.uint 5] := rfl
  have houter : Hits tight l ⟨0, stateFor m.host outer⟩
      (verdict tight m.host outer (.bool true)) := by
    have hasked : (requestsOf (verdict tight m.host outer (.bool true)).events)[2]?.bind
        Event.query? = some (.queryCells test) := by cbv
    have hbefore : (requestsOf (verdict tight m.host outer (.bool true)).events).take 2 =
        [.param 0, .bind 0 (.bool true) none] := by cbv
    have hstate : ((host tight).replay (stateFor m.host outer)
        ((requestsOf (verdict tight m.host outer (.bool true)).events).take 2)).2 = s := by
      rw [hbefore]
      rfl
    exact .predicate hasked hstate rfl hcells (by simp) hinner
  have hasked : (requestsOf (evalList (host tight) {} e [] m).events)[0]?.bind Event.query? =
      some e := by cbv
  have hhits : Hits tight l m (evalList (host tight) {} e [] m) :=
    .predicate hasked rfl rfl hcells (by simp) houter
  exact ⟨hnesting, houtcome, htexts, hhits, (errors_are_layered tight {} e [] m).2.2 l hhits⟩

end Memory

end CellQuery
