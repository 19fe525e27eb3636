import CellQuery.Proofs.Host.Causes
import CellQuery.Proofs.Value.Text

/-! # Conflicts

    A request to bind a parameter that has another value is a conflict.  Its text shows
    both values, so it is of use only if the two can be told apart by their texts.

    * `Memory.conflict_of_bind`: the host finds a conflict between different values only.
    * `Memory.apart_of_raised`: an evaluation reports no other conflicts, in whatever layers
      of failed predicates.  The induction is the one over queries.
    * `Memory.texts_identify`: different values have different texts. -/

namespace CellQuery

namespace Memory

open Evaluator

/-! ## Errors that tell of a conflict -/

/-- The error tells of a conflict between the two values, in any layers of failed predicates. -/
def Conflicts (bound requested : Value) (e : EvalError Error) : Prop :=
  ∃ cells index, e = layered cells (.host (.conflict index bound requested))

/-- The error tells of a conflict between a value and itself. -/
def Idle (e : EvalError Error) : Prop :=
  ∃ v, Conflicts v v e

theorem unlayered_conflict (index : Nat) (bound requested : Value) :
    Unlayered (.host (.conflict index bound requested)) :=
  unlayered_host fun _ _ h => by cases h

/-- An error that is in no layer tells of a conflict only if it is one. -/
theorem not_idle_of_unlayered {e : EvalError Error} (h : Unlayered e)
    (hne : ∀ index v, e ≠ .host (.conflict index v v)) : ¬Idle e := by
  rintro ⟨v, cells, index, he⟩
  have hlayers : layered [] e = layered cells (.host (.conflict index v v)) := he
  exact hne index v (layered_inj h (unlayered_conflict index v v) hlayers).2

theorem not_idle_limit (l : LimitExceeded) : ¬Idle (.limit l) :=
  not_idle_of_unlayered (unlayered_limit l) fun _ _ h => by cases h

theorem not_idle_malformedQuery (children : Nat) : ¬Idle (.host (.malformedQuery children)) :=
  not_idle_of_unlayered (unlayered_host fun _ _ h => by cases h) fun _ _ h => by cases h

theorem not_idle_nonBoolPredicate (tag : Tag) : ¬Idle (.host (.nonBoolPredicate tag)) :=
  not_idle_of_unlayered (unlayered_host fun _ _ h => by cases h) fun _ _ h => by cases h

/-- A failed predicate tells of the conflicts that its error tells of. -/
theorem not_idle_predicateRefusal {e : EvalError Error} (h : ¬Idle e) (position : Nat) :
    ¬Idle (predicateRefusal position e).toEvalError := by
  unfold predicateRefusal
  split
  · next l => exact not_idle_limit l
  · rintro ⟨v, cells, index, he⟩
    cases cells with
    | nil => cases EvalError.host.inj he
    | cons cell cells =>
      injection EvalError.host.inj he with _ hsource
      exact h ⟨v, cells, index, hsource⟩

/-! ## Requests -/

/-- A parameter keeps its value if another one is requested. -/
theorem conflict_of_bind {index i : Nat} {v bound requested : Value} {s : State}
    (h : (bind index v s).1 = .error (.own (.conflict i bound requested))) :
    i = index ∧ requested = v ∧ bound ≠ v ∧
      s.slots[index]?.bind Slot.value? = some bound ∧ (bind index v s).2 = s := by
  obtain ⟨hstate, ⟨_, hr⟩ | ⟨_, held, hholds, hne, hr⟩⟩ := bind_refused h
  · cases hr
  · cases hr
    obtain ⟨slot, hslot, hvalue⟩ := hholds.value?
    exact ⟨rfl, rfl, hne, by rw [hslot]; exact hvalue, hstate⟩

theorem not_idle_of_bind {index : Nat} {v : Value} {s : State} {r : Refusal Error}
    (h : (bind index v s).1 = .error r) : ¬Idle r.toEvalError := by
  apply not_idle_of_unlayered (unlayered_bind h)
  intro i w heq
  obtain ⟨e, rfl, _⟩ := bind_refusal h
  obtain rfl : e = .conflict i w w := EvalError.host.inj heq
  obtain ⟨_, rfl, hne, _⟩ := conflict_of_bind h
  exact hne rfl

/-! ## Evaluations -/

/-- Evaluations whose queries are answered, or refused for a reason that is no idle conflict. -/
def conflictRules (data : Data) (limits : Limits) : Rules (host data) limits where
  covers e := ∀ q ∈ e.subtrees, q.tag = .queryCells →
    ∀ s, (answer data q s).outcome.Avoids fun r : Refusal Error => Idle r.toEvalError
  inside _ _ x := Ends (fun _ o => o.Avoids Idle) x
  whole _ _ x := Ends (fun _ o => o.Avoids Idle) x
  covers_child he hc q hq := he q (Value.mem_subtrees_of_child hc hq)
  lift {_ _ x} _ hx := by
    apply ends_lift
    cases x with
    | ok a => trivial
    | error e =>
      refine not_idle_of_unlayered (unlayered_of_local hx) ?_
      rintro index v rfl
      exact hx
    | fault f => exact hx
  bind := ends_bind fun _ _ _ _ h => h
  child _ _ hx := hx
  arg _ _ := ⟨fun _ => rfl, fun _ => trivial⟩
  param _ := ⟨fun _ => rfl, fun _ => trivial⟩
  binding _ _ _ _ := ends_askBind trivial fun _ _ h => not_idle_of_bind h
  query {e} he ht := ends_askQuery fun s =>
    Outcome.avoids_mapError.mpr (Outcome.avoids_ending.mpr (he e (Value.self_mem_subtrees e) ht s))
  activation _ hx :=
    ends_activation (fun _ _ => not_idle_limit _) (fun _ _ h => h) hx

theorem answer_not_idle (data : Data) (q : Value) :
    ∀ s, (answer data q s).outcome.Avoids fun r : Refusal Error => Idle r.toEvalError := by
  induction q using query_induction with
  | step q ih =>
    intro s
    apply answer_avoids (not_idle_malformedQuery _)
    intro predicate hq cell position
    have hverdict := ((conflictRules data (limitsFor data s predicate)).eval (e := predicate)
      (ih predicate hq) [[cell]]).2 ⟨0, stateFor s predicate⟩
    exact matchesCell_avoids (Outcome.avoids_ending.mp hverdict) not_idle_nonBoolPredicate
      fun _ h => not_idle_predicateRefusal h position

/-- The errors that the host, and evaluations on it, answer with. -/
inductive Raised (data : Data) : EvalError Error → Prop where
  | eval {limits : Limits} {e : Value} {scopes : Scopes} {m : Machine State}
      {err : EvalError Error} (h : (eval (host data) limits e scopes m).outcome = .error err) :
      Raised data err
  | evalList {limits : Limits} {e : Value} {scopes : Scopes} {m : Machine State}
      {err : EvalError Error} (h : (evalList (host data) limits e scopes m).outcome = .error err) :
      Raised data err
  | query {q : Value} {s : State} {r : Refusal Error}
      (h : ((host data).query q s).outcome = .error r) : Raised data r.toEvalError
  | bind {index : Nat} {v : Value} {s : State} {r : Refusal Error}
      (h : ((host data).bind index v s).1 = .error r) : Raised data r.toEvalError

/-- No error tells of a conflict between a value and itself. -/
theorem apart_of_raised {data : Data} {err : EvalError Error} (h : Raised data err)
    {bound requested : Value} (hconflict : Conflicts bound requested err) : bound ≠ requested := by
  rintro rfl
  suffices hidle : ¬Idle err from hidle ⟨bound, hconflict⟩
  have hcovers : ∀ limits e, (conflictRules data limits).covers e :=
    fun _ _ q _ _ => answer_not_idle data q
  cases h with
  | @eval limits e scopes m _ herr =>
    have hends := ((conflictRules data limits).eval (hcovers limits e) scopes).2 m
    rwa [herr] at hends
  | @evalList limits e scopes m _ herr =>
    have hends := ((conflictRules data limits).evalList (hcovers limits e) scopes).2 m
    rwa [herr] at hends
  | @query q s r herr =>
    have hends := answer_not_idle data q s
    change (answer data q s).outcome = .error r at herr
    rwa [herr] at hends
  | bind herr => exact not_idle_of_bind herr

/-! ## Texts -/

/-- The text of a value identifies it.

    * Where two texts begin with those of values, and a comma, a closing parenthesis or nothing
      follows, the values are the same and what follows is the same.
    * So values with the same text are the same.
    * A conflict is between different values, and their texts are different. -/
theorem texts_identify :
    (∀ (a b : Value) (x y : String), Value.Ends x.toList → Value.Ends y.toList →
      a.text ++ x = b.text ++ y → a = b ∧ x = y) ∧
    (∀ a b : Value, a.text = b.text → a = b) ∧
    ∀ (data : Data) (err : EvalError Error), Raised data err →
      ∀ bound requested, Conflicts bound requested err →
        bound ≠ requested ∧ bound.text ≠ requested.text := by
  refine ⟨fun a b x y hx hy h => ?_, fun a b => Value.text_inj, fun data err hraised bound requested
    hconflict => ?_⟩
  · have hchars : a.chars ++ x.toList = b.chars ++ y.toList := by
      simpa [Value.text] using congrArg String.toList h
    obtain ⟨hvalue, hrest⟩ := Value.chars_append_inj a b _ _ hx hy hchars
    exact ⟨hvalue, String.toList_inj.mp hrest⟩
  · have hne := apart_of_raised hraised hconflict
    exact ⟨hne, fun htext => hne (Value.text_inj htext)⟩

/-- In a predicate the placeholder of a parameter is bound to one argument and then to another,
    the name of whose tag goes on where the first one ends. -/
theorem texts_identify_in_predicate :
    let a : Value := .node .getData [.node .list [], .bytes [171]]
    let b : Value := .node .getDataHash [.node .list [], .bytes [171]]
    let solve : Value := .node .and [.node .equal [.arg 0, .arg 2], .node .equal [.arg 0, .arg 3]]
    let query : Value := .queryCells (.apply solve [.param 0])
    let data : Data := ⟨[a, b], [.nil], {}⟩
    let err := layered [0] (.host (.conflict 0 a b))
    let line := "GET_DATA(LIST(), BYTES(0xab)), NIL)"
    (evalList (host data) {} query [] ⟨0, .fresh [none]⟩).outcome = .error err ∧
      Conflicts a b err ∧ a ≠ b ∧ a.text ≠ b.text ∧
      Value.Ends ", NIL)".toList ∧ a.text ++ ", NIL)" = line ∧
      ∀ (c : Value) (y : String), Value.Ends y.toList → line = c.text ++ y →
        a = c ∧ ", NIL)" = y := by
  intro a b solve query data err line
  have houtcome : (evalList (host data) {} query [] ⟨0, .fresh [none]⟩).outcome = .error err := by
    dsimp only [err, data, query, solve, a, b]
    cbv
  have hraised : Raised data err := .evalList houtcome
  have hconflict : Conflicts a b err := ⟨[0], 0, rfl⟩
  obtain ⟨happend, _, happart⟩ := texts_identify
  obtain ⟨hne, htexts⟩ := happart data err hraised a b hconflict
  have hends : Value.Ends ", NIL)".toList := by
    rintro c ⟨⟩
    exact .inl rfl
  have hline : a.text ++ ", NIL)" = line := by decide
  refine ⟨houtcome, hconflict, hne, htexts, hends, hline, fun c y hy h => ?_⟩
  exact happend a c _ y hends hy (hline.trans h)

end Memory

end CellQuery
