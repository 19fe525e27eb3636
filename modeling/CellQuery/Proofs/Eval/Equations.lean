import CellQuery.Proofs.Eval.Flow
import CellQuery.Proofs.Eval.Rules

/-! # Forms in terms of evaluations

    An evaluation of a form is an activation in which the evaluations of its parts follow one
    another.  The equations here say so for each form in turn, so that what is proved of a
    form needs to know nothing of how expressions are taken apart.

    An argument of the innermost scope is a value that costs an activation and nothing else
    (`Evaluator.eval_arg`).  So an operator on the two arguments of a scope does what it does with
    the two values, if the activations are within the limit (`Evaluator.eval_pair_cases`). -/

namespace CellQuery

open Run

variable {σ ε α β : Type}

namespace Run

variable {ω γ : Type}

theorem each_map (f : β → Run ω σ ε γ) (g : α → β) (xs : List α) :
    each f (xs.map g) = each (fun x => f (g x)) xs := by
  induction xs with
  | nil => rfl
  | cons x xs ih => rw [List.map_cons, each, each, ih]

theorem each_singleton (f : α → Run ω σ ε β) (x : α) (g : List β → Run ω σ ε γ) :
    each f [x] >>= g = f x >>= fun y => g [y] := by
  have hnil : (each f [] : Run ω σ ε (List β)) = Pure.pure [] := rfl
  rw [each, hnil]
  simp only [bind_assoc, pure_bind]

theorem each_pair (f : α → Run ω σ ε β) (x₁ x₂ : α) (g : List β → Run ω σ ε γ) :
    each f [x₁, x₂] >>= g = f x₁ >>= fun y₁ => f x₂ >>= fun y₂ => g [y₁, y₂] := by
  rw [each]
  simp only [bind_assoc, pure_bind, each_singleton]

end Run

namespace Evaluator

/-! ## Forms -/

section forms
variable (host : Host σ ε) (limits : Limits) (scopes : Scopes)

theorem values_meanings (es : List Value) :
    values (meanings host limits es) scopes = each (fun e => eval host limits e scopes) es := by
  rw [meanings_eq_map]
  exact each_map _ _ es

/-- A scalar is its own value. -/
theorem eval_scalar {v : Value} (hv : v.IsScalar) :
    eval host limits v scopes = activation limits (Pure.pure v) := by
  cases v with
  | uint n => rfl
  | nil => rfl
  | bool b => rfl
  | bytes data => rfl
  | _ => exact hv.elim

/-- An argument of the innermost scope. -/
theorem eval_arg {scope : List Value} {i : UInt64} {v : Value} (h : scope[i.toNat]? = some v) :
    eval host limits (.arg i) (scope :: scopes) = activation limits (Pure.pure v) := by
  have hlookup : lookupArg host i (scope :: scopes) = Pure.pure v := by
    unfold lookupArg Scopes.find
    rw [h]
    rfl
  show activation limits (lookupArg host i (scope :: scopes)) = _
  rw [hlookup]

theorem eval_operator {tag : Tag} (htag : tag.nodeClass = .operator) (es : List Value) :
    eval host limits (.node tag es) scopes =
      activation limits (each (fun e => eval host limits e scopes) es >>= combine host tag) := by
  show activation limits (nodeValue host limits tag es (meanings host limits es) scopes) = _
  rw [nodeValue, htag, values_meanings]

/-- A negation has its operand evaluated, and then makes no request. -/
theorem eval_not (e : Value) :
    eval host limits (.node .not [e]) scopes =
      activation limits (eval host limits e scopes >>= fun v => lift (compute .not [v])) := by
  rw [eval_operator host limits scopes rfl, each_singleton]
  rfl

theorem eval_get {tag : Tag} (htag : tag.nodeClass = .structuralGet) (e : Value) :
    eval host limits (.node tag [e]) scopes =
      activation limits (eval host limits e scopes >>= fun record => lift (project tag record)) := by
  show activation limits (nodeValue host limits tag [e] (meanings host limits [e]) scopes) = _
  rw [nodeValue, htag]
  rfl

theorem eval_apply (body : Value) (args : List Value) :
    eval host limits (.apply body args) scopes =
      activation limits (each (fun e => eval host limits e scopes) args >>= fun scope =>
        eval host limits body (scope :: scopes)) := by
  rw [← values_meanings]
  rfl

theorem eval_reduce (body start list : Value) :
    eval host limits (.reduce body start list) scopes =
      activation limits (do
        let acc ← eval host limits start scopes
        let elements ← evalList host limits list scopes
        checkIterations limits .reduce elements
        fold (fun acc x => eval host limits body ([acc, x] :: scopes)) acc elements) :=
  rfl

theorem evalList_map (body list : Value) :
    evalList host limits (.map body list) scopes =
      activation limits (do
        let elements ← evalList host limits list scopes
        checkIterations limits .map elements
        each (fun x => eval host limits body ([x] :: scopes)) elements) :=
  rfl

theorem evalList_list (es : List Value) :
    evalList host limits (.list es) scopes =
      activation limits (each (fun e => eval host limits e scopes) es) := by
  rw [← values_meanings]
  rfl

end forms

/-! ## Operators on the arguments of a scope -/

/-- Below the limit an activation that only has a value makes no difference to what follows. -/
theorem activation_pure_bind {limits : Limits} {m : Machine σ} (h : m.depth < limits.maxDepth)
    (a : α) (f : α → Step σ ε β) :
    (activation limits (Pure.pure a) >>= f) m =
      ⟨(f a m).outcome, (f a m).state, .activation [] :: (f a m).events⟩ := by
  have hdone : activation limits (Pure.pure a : Step σ ε α) m = ⟨.ok a, m, [.activation []]⟩ :=
    activation_of_lt h rfl
  have hvalue : (activation limits (Pure.pure a : Step σ ε α) m).outcome = .ok a := by rw [hdone]
  rw [bind_of_ok hvalue, hdone]
  rfl

/-- At the limit it is all that happens. -/
theorem activation_bind_of_le {limits : Limits} {m : Machine σ} (h : limits.maxDepth ≤ m.depth)
    (x : Step σ ε α) (f : α → Step σ ε β) :
    (activation limits x >>= f) m =
      ⟨.error (.limit (.stackOverflow m.depth limits.maxDepth)), m, []⟩ := by
  have hrefused := activation_of_le (x := x) h
  have herror : (activation limits x m).outcome =
      .error (.limit (.stackOverflow m.depth limits.maxDepth)) := by rw [hrefused]
  rw [bind_of_error herror, hrefused]

theorem steady_combine (host : Host σ ε) (tag : Tag) (operands : List Value) :
    Steady (fun _ => ()) (combine host tag operands) := by
  unfold combine
  split
  · apply keeps_bind (fun _ => rfl)
    rintro ⟨x, y⟩
    dsimp only
    split
    · exact keeps_bind (steady_askBind (keeps_nothing host) _ _) fun _ _ => rfl
    · exact fun _ => rfl
  · exact fun _ => rfl

/-- What an operator on the two arguments of a scope does. -/
theorem eval_pair (host : Host σ ε) (limits : Limits) (scopes : Scopes) {tag : Tag}
    (htag : tag.nodeClass = .operator) (x y : Value) (m : Machine σ) :
    eval host limits (.node tag [.arg 0, .arg 1]) ([x, y] :: scopes) m =
      let combined := combine host tag [x, y] { m with depth := m.depth + 1 }
      if limits.maxDepth ≤ m.depth then
        ⟨.error (.limit (.stackOverflow m.depth limits.maxDepth)), m, []⟩
      else if limits.maxDepth ≤ m.depth + 1 then
        ⟨.error (.limit (.stackOverflow (m.depth + 1) limits.maxDepth)), m, [.activation []]⟩
      else
        ⟨combined.outcome, ⟨m.depth, combined.state.host⟩,
          [.activation (.activation [] :: .activation [] :: combined.events)]⟩ := by
  rw [eval_operator host limits _ htag, each_pair, eval_arg host limits scopes rfl,
    eval_arg host limits scopes rfl]
  let inside : Machine σ := { m with depth := m.depth + 1 }
  by_cases hle : limits.maxDepth ≤ m.depth
  · rw [activation_of_le hle, if_pos hle]
  · have hlt : m.depth < limits.maxDepth := Nat.not_le.mp hle
    simp only [if_neg hle]
    by_cases hle' : limits.maxDepth ≤ m.depth + 1
    · have hrefused := activation_bind_of_le (m := inside) hle' (Pure.pure x) fun a =>
        activation limits (Pure.pure y) >>= fun b => combine host tag [a, b]
      rw [activation_of_lt hlt (by rw [hrefused]), hrefused, if_pos hle']
    · have hlt' : inside.depth < limits.maxDepth := Nat.not_le.mp hle'
      have hcombined := activation_pure_bind hlt' x fun a =>
        activation limits (Pure.pure y) >>= fun b => combine host tag [a, b]
      rw [activation_pure_bind hlt' y fun b => combine host tag [x, b]] at hcombined
      have hdepth := (steady_combine host tag [x, y]).depth inside
      rw [activation_of_lt hlt (by rw [hcombined]; exact hdepth), hcombined, if_neg hle']

/-- With room for the activations it is what the operator does with the two values; else a
    limit, and nothing has happened. -/
theorem eval_pair_cases (host : Host σ ε) (limits : Limits) (scopes : Scopes) {tag : Tag}
    (htag : tag.nodeClass = .operator) (x y : Value) (m : Machine σ) :
    let r := eval host limits (.node tag [.arg 0, .arg 1]) ([x, y] :: scopes) m
    let combined := combine host tag [x, y] { m with depth := m.depth + 1 }
    (m.depth + 2 ≤ limits.maxDepth ∧ r.outcome = combined.outcome ∧
      r.state = ⟨m.depth, combined.state.host⟩) ∨
    (limits.maxDepth < m.depth + 2 ∧ (∃ l, r.outcome = .error (.limit l)) ∧ r.state = m) := by
  intro r combined
  have hr : r = _ := eval_pair host limits scopes htag x y m
  rw [hr]
  split
  · exact .inr ⟨by omega, ⟨_, rfl⟩, rfl⟩
  · split
    · exact .inr ⟨by omega, ⟨_, rfl⟩, rfl⟩
    · exact .inl ⟨by omega, rfl, rfl⟩

end Evaluator

end CellQuery
