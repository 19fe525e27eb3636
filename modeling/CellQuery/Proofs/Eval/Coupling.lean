import CellQuery.Proofs.Eval.Flow

/-! # Laws of evaluation

    A `Coupling` relates steps of two evaluations of one expression, by two hosts and under
    two limits, whatever values they yield.  It is a flow of any values.  A `Rules` does the
    same for a single evaluation; it is a coupling of the evaluation with itself. -/

namespace CellQuery

namespace Evaluator

variable {σ₁ σ₂ ε : Type}

/-! ## Couplings -/

/-- Evaluations that stand under the same scopes push the same scope. -/
theorem cons_scope {s₁ s₂ : Scopes} (scope : List Value) (hs : s₁ = s₂) :
    scope :: s₁ = scope :: s₂ :=
  congrArg _ hs

/-- A relation between the steps of two evaluations of one expression that all parts of
    an evaluation keep. -/
structure Coupling (host₁ : Host σ₁ ε) (limits₁ : Limits) (host₂ : Host σ₂ ε)
    (limits₂ : Limits) where
  /-- The expressions that the relation is about. -/
  covers : Value → Prop
  /-- The scopes that the two evaluations may stand under. -/
  scopes : Scopes → Scopes → Prop
  /-- The relation between steps within the activations of an expression. -/
  inside : Value → {α : Type} → Step σ₁ ε α → Step σ₂ ε α → Prop
  /-- The relation between activations of an expression. -/
  whole : Value → {α : Type} → Step σ₁ ε α → Step σ₂ ε α → Prop
  covers_child : ∀ {e c : Value}, covers e → c ∈ e.children → covers c
  push : ∀ {s₁ s₂ : Scopes} (scope : List Value), scopes s₁ s₂ →
    scopes (scope :: s₁) (scope :: s₂)
  lift : ∀ {e : Value} {α : Type} {x : Outcome (EvalError ε) α}, covers e → x.Local →
    inside e (Run.lift x) (Run.lift x)
  bind : ∀ {e : Value} {α β : Type} {x₁ : Step σ₁ ε α} {x₂ : Step σ₂ ε α}
    {f₁ : α → Step σ₁ ε β} {f₂ : α → Step σ₂ ε β},
    inside e x₁ x₂ → (∀ a, inside e (f₁ a) (f₂ a)) → inside e (x₁ >>= f₁) (x₂ >>= f₂)
  child : ∀ {e c : Value} {α : Type} {x₁ : Step σ₁ ε α} {x₂ : Step σ₂ ε α}, covers e →
    c ∈ e.children → whole c x₁ x₂ → inside e x₁ x₂
  iterations : ∀ {e : Value} (elements : List Value), covers e →
    inside e (checkIterations limits₁ e.tag elements) (checkIterations limits₂ e.tag elements)
  arg : ∀ {i : UInt64} {s₁ s₂ : Scopes}, covers (.arg i) → scopes s₁ s₂ →
    inside (.arg i) (lookupArg host₁ i s₁) (lookupArg host₂ i s₂)
  param : ∀ {i : UInt64}, covers (.param i) →
    inside (.param i) (askParam host₁ i.toNat) (askParam host₂ i.toNat)
  binding : ∀ {e : Value} (i : Nat) (v : Value), covers e → e.tag = .equal →
    inside e (askBind host₁ i v) (askBind host₂ i v)
  query : ∀ {e : Value}, covers e → e.tag = .queryCells →
    inside e (askQuery host₁ e) (askQuery host₂ e)
  activation : ∀ {e : Value} {α : Type} {x₁ : Step σ₁ ε α} {x₂ : Step σ₂ ε α}, covers e →
    inside e x₁ x₂ → whole e (activation limits₁ x₁) (activation limits₂ x₂)

namespace Coupling

variable {host₁ : Host σ₁ ε} {limits₁ : Limits} {host₂ : Host σ₂ ε} {limits₂ : Limits}
  (C : Coupling host₁ limits₁ host₂ limits₂) {e : Value} {s₁ s₂ : Scopes}

/-- A coupling is a flow in which any value may flow. -/
def toFlow : Flow host₁ limits₁ host₂ limits₂ where
  covers := C.covers
  scopes _ := C.scopes
  good _ := True
  inside e _ _ x₁ x₂ := C.inside e x₁ x₂
  whole e _ _ x₁ x₂ := C.whole e x₁ x₂
  covers_child := C.covers_child
  good_scalar _ := trivial
  good_field _ _ := trivial
  good_primitive _ _ := trivial
  operand hs _ := hs
  body {_} {_} {_} {_} {scope} hs _ _ := C.push scope hs
  lift he hx _ := C.lift he hx
  bind hx hf := C.bind hx fun a => hf a fun _ _ => trivial
  child := C.child
  iterations := C.iterations
  arg := C.arg
  param := C.param
  binding i v he ht _ _ _ := C.binding i v he ht
  query := C.query
  activation := C.activation

theorem eval (he : C.covers e) (hs : C.scopes s₁ s₂) :
    C.whole e (Evaluator.eval host₁ limits₁ e s₁) (Evaluator.eval host₂ limits₂ e s₂) :=
  C.toFlow.eval he hs

theorem evalList (he : C.covers e) (hs : C.scopes s₁ s₂) :
    C.whole e (Evaluator.evalList host₁ limits₁ e s₁)
      (Evaluator.evalList host₂ limits₂ e s₂) :=
  C.toFlow.evalList he hs

end Coupling

end Evaluator

end CellQuery
