import CellQuery.Proofs.Eval.Arguments
import CellQuery.Session

/-! # Nested scopes as one

    Each scope takes off an index what it holds itself and leaves the rest to the scopes
    around it.  So it makes no difference where one scope ends and the next one begins:

    * `Scopes.find_flatten` and `Host.under_flatten`: scopes around an expression may be
      joined, the innermost in front, in the evaluator as in the environment that they make
      of a host.
    * `Evaluator.sameFinds`: evaluations are the same under scopes in which the same is found.
      Bodies add the same scopes to both. -/

namespace CellQuery

variable {σ ε : Type}

/-! ## Looking an argument up -/

namespace Scopes

/-- What a scope does not hold is looked up further out. -/
theorem find_cons (scope : List Value) (scopes : Scopes) (i : Nat) :
    (find (scope :: scopes) i : Outcome ε Found) =
      match scope[i]? with
      | some v => .ok (.bound v)
      | none => find scopes (i - scope.length) := by
  rw [find]
  cases h : scope[i]? with
  | some v => rfl
  | none =>
    have hle : scope.length ≤ i := List.getElem?_eq_none_iff.mp h
    simp only [minus?, hle, if_true]

/-- The same is found in two scopes and in the one that they make together. -/
theorem find_cons_cons (scope scope' : List Value) (scopes : Scopes) (i : Nat) :
    (find (scope :: scope' :: scopes) i : Outcome ε Found) =
      find ((scope ++ scope') :: scopes) i := by
  rw [find_cons, find_cons, find_cons]
  rcases Nat.lt_or_ge i scope.length with hlt | hge
  · rw [List.getElem?_append_left hlt, List.getElem?_eq_getElem hlt]
  · -- The outer scope comes next, with an index that is reduced by the size of the inner one.
    rw [List.getElem?_append_right hge, List.getElem?_eq_none hge, List.length_append,
      Nat.sub_add_eq]

theorem find_nil_cons (scopes : Scopes) (i : Nat) :
    (find ([] :: scopes) i : Outcome ε Found) = find scopes i :=
  find_cons [] scopes i

theorem find_flatten (inner base : Scopes) (i : Nat) :
    (find (inner ++ base) i : Outcome ε Found) = find (inner.flatten :: base) i := by
  induction inner generalizing i with
  | nil => exact (find_nil_cons base i).symm
  | cons scope inner ih =>
    rw [List.flatten_cons, ← find_cons_cons, List.cons_append, find_cons, find_cons, ih]

end Scopes

/-! ## Environments -/

namespace Host

theorem prepend_prepend (host : Host σ ε) (scope scope' : List Value) :
    (host.prepend scope').prepend scope = host.prepend (scope ++ scope') := by
  have harg : ((host.prepend scope').prepend scope).arg =
      (host.prepend (scope ++ scope')).arg := by
    funext i s
    simp only [prepend]
    rcases Nat.lt_or_ge i scope.length with hlt | hge
    · rw [List.getElem?_append_left hlt, List.getElem?_eq_getElem hlt]
    · rw [List.getElem?_append_right hge, List.getElem?_eq_none hge, List.length_append,
        Nat.sub_add_eq]
  exact congrArg (fun arg => { host with arg }) harg

/-- Scopes make the same environment of a host as the one scope that they make together. -/
theorem under_flatten (host : Host σ ε) (inner base : Scopes) :
    host.under (inner ++ base) = (host.under base).prepend inner.flatten := by
  induction inner with
  | nil => rfl
  | cons scope inner ih =>
    show (host.under (inner ++ base)).prepend scope = _
    rw [ih, prepend_prepend, List.flatten_cons]

end Host

/-! ## Evaluations -/

namespace Evaluator

/-- Evaluations under scopes in which the same is found for every index. -/
def sameFinds (host : Host σ ε) (limits : Limits) : Coupling host limits host limits where
  covers _ := True
  scopes s₁ s₂ := ∀ i, (s₁.find i : Outcome (EvalError ε) Scopes.Found) = s₂.find i
  inside _ _ x₁ x₂ := x₁ = x₂
  whole _ _ x₁ x₂ := x₁ = x₂
  covers_child _ _ := trivial
  push scope hs i := by rw [Scopes.find_cons, Scopes.find_cons, hs]
  lift _ _ := rfl
  bind hx hf := by rw [hx, funext hf]
  child _ _ hx := hx
  iterations _ _ := rfl
  arg {i} {_} {_} _ hs := by
    unfold lookupArg
    rw [hs]
  param _ := rfl
  binding _ _ _ _ := rfl
  query _ _ := rfl
  activation _ hx := congrArg _ hx

end Evaluator

/-- An argument of a session under scopes is found in the list of all of them, the innermost
    first, with the arguments of the host at the end. -/
theorem Session.lookup_eq (data : Memory.Data) (scopes : Scopes) (i : Nat) :
    Session.lookup data scopes i = .ok (scopes.flatten ++ data.args)[i]? := by
  have hfind : (scopes.find i : Outcome (EvalError Memory.Error) Scopes.Found) =
      Scopes.find [scopes.flatten] i := by
    rw [← Scopes.find_flatten, List.append_nil]
  unfold lookup
  rw [hfind, Scopes.find_cons]
  rcases Nat.lt_or_ge i scopes.flatten.length with hlt | hge
  · rw [List.getElem?_append_left hlt, List.getElem?_eq_getElem hlt]
    rfl
  · rw [List.getElem?_append_right hge, List.getElem?_eq_none hge]
    rfl

namespace Evaluator

/-- Scopes that are nested around an expression, in front of any others, are as good as the one
    scope that they make together, the innermost in front.  Both evaluations are the same run:
    the outcome, all requests to the host and the state after it.  An argument is looked up in the
    scopes from the innermost to the outermost and then where the expression stands, and an
    index past the end of all this finds nothing.  An empty scope changes nothing wherever it
    stands. -/
theorem nested_scopes_flatten (host : Host σ ε) (limits : Limits) (e : Value)
    (base inner : Scopes) :
    eval host limits e (inner ++ base) = eval host limits e (inner.flatten :: base) ∧
    evalList host limits e (inner ++ base) = evalList host limits e (inner.flatten :: base) ∧
    (∀ i s, (host.under (inner ++ base)).arg i s =
      match inner.flatten[i]? with
      | some v => (some v, s)
      | none => (host.under base).arg (i - inner.flatten.length) s) ∧
    (∀ (data : Memory.Data) i, Session.lookup data (inner ++ base) i =
      .ok (inner.flatten ++ (base.flatten ++ data.args))[i]?) ∧
    eval host limits e (inner ++ [] :: base) = eval host limits e (inner ++ base) ∧
    evalList host limits e (inner ++ [] :: base) = evalList host limits e (inner ++ base) := by
  have hflat := Scopes.find_flatten (ε := EvalError ε) inner base
  have hempty : ∀ i, (Scopes.find (inner ++ [] :: base) i : Outcome (EvalError ε) Scopes.Found) =
      Scopes.find (inner ++ base) i := by
    intro i
    rw [Scopes.find_flatten, Scopes.find_cons_cons, List.append_nil, ← Scopes.find_flatten]
  let C := sameFinds host limits
  refine ⟨C.eval trivial hflat, C.evalList trivial hflat, fun i s => ?_, fun data i => ?_,
    C.eval trivial hempty, C.evalList trivial hempty⟩
  · rw [Host.under_flatten]
    rfl
  · rw [Session.lookup_eq, List.flatten_append, List.append_assoc]

end Evaluator

end CellQuery
