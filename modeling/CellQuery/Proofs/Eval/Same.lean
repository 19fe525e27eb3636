import CellQuery.Proofs.Eval.Refusal

/-! # Runs that are the same to the host

    A host is left in some state by a run, and it has met some requests.  Two runs that agree in
    both and end alike are the same as far as anyone but the evaluator can tell
    (`Evaluator.SameToHost`): their activations may be others.

    Where the values differ in a known way on purpose there is `Evaluator.RelatedToHost`, which has
    a relation in the place of equality.  One step after another is the rule that the two have
    in common. -/

namespace CellQuery

open Event Run

variable {σ ε α₁ α₂ β₁ β₂ α β : Type}

namespace Evaluator

/-- The runs end alike, with the host in the same state, and have made the same requests. -/
structure SameToHost (r₁ r₂ : Ran (Event ε) (Machine σ) (EvalError ε) α) : Prop where
  outcome : r₁.outcome = r₂.outcome
  host : r₁.state.host = r₂.state.host
  requests : requestsOf r₁.events = requestsOf r₂.events

theorem SameToHost.refl (r : Ran (Event ε) (Machine σ) (EvalError ε) α) : SameToHost r r :=
  ⟨rfl, rfl, rfl⟩

theorem SameToHost.symm {r₁ r₂ : Ran (Event ε) (Machine σ) (EvalError ε) α}
    (h : SameToHost r₁ r₂) : SameToHost r₂ r₁ :=
  ⟨h.outcome.symm, h.host.symm, h.requests.symm⟩

theorem SameToHost.trans {r₁ r₂ r₃ : Ran (Event ε) (Machine σ) (EvalError ε) α}
    (h₁₂ : SameToHost r₁ r₂) (h₂₃ : SameToHost r₂ r₃) : SameToHost r₁ r₃ :=
  ⟨h₁₂.outcome.trans h₂₃.outcome, h₁₂.host.trans h₂₃.host, h₁₂.requests.trans h₂₃.requests⟩

/-- The runs are the same to the host, but for their values, which are related. -/
structure RelatedToHost (R : α₁ → α₂ → Prop) (r₁ : Ran (Event ε) (Machine σ) (EvalError ε) α₁)
    (r₂ : Ran (Event ε) (Machine σ) (EvalError ε) α₂) : Prop where
  outcome : r₁.outcome.Rel R r₂.outcome
  host : r₁.state.host = r₂.state.host
  requests : requestsOf r₁.events = requestsOf r₂.events

theorem relatedToHost_eq {r₁ r₂ : Ran (Event ε) (Machine σ) (EvalError ε) α} :
    RelatedToHost Eq r₁ r₂ ↔ SameToHost r₁ r₂ :=
  ⟨fun h => ⟨Outcome.rel_eq.mp h.outcome, h.host, h.requests⟩,
    fun h => ⟨Outcome.rel_eq.mpr h.outcome, h.host, h.requests⟩⟩

theorem RelatedToHost.trans_same {R : α₁ → α₂ → Prop}
    {r₁ : Ran (Event ε) (Machine σ) (EvalError ε) α₁}
    {r₂ r₃ : Ran (Event ε) (Machine σ) (EvalError ε) α₂} (h₁₂ : RelatedToHost R r₁ r₂)
    (h₂₃ : SameToHost r₂ r₃) : RelatedToHost R r₁ r₃ :=
  ⟨h₂₃.outcome ▸ h₁₂.outcome, h₁₂.host.trans h₂₃.host, h₁₂.requests.trans h₂₃.requests⟩

section bind
variable {R : α₁ → α₂ → Prop} {S : β₁ → β₂ → Prop} {m₁ m₂ : Machine σ}

/-- What follows starts with related values, and with the host in the same state. -/
theorem RelatedToHost.bind {x₁ : Step σ ε α₁} {x₂ : Step σ ε α₂} {f₁ : α₁ → Step σ ε β₁}
    {f₂ : α₂ → Step σ ε β₂} (hx : RelatedToHost R (x₁ m₁) (x₂ m₂))
    (hf : ∀ a₁ a₂, (x₁ m₁).outcome = .ok a₁ → R a₁ a₂ →
      (x₁ m₁).state.host = (x₂ m₂).state.host →
      RelatedToHost S (f₁ a₁ (x₁ m₁).state) (f₂ a₂ (x₂ m₂).state)) :
    RelatedToHost S ((x₁ >>= f₁) m₁) ((x₂ >>= f₂) m₂) := by
  obtain ⟨houtcome, hhost, hrequests⟩ := hx
  rcases houtcome.cases with ⟨a₁, a₂, h₁, h₂, hab⟩ | ⟨e, h₁, h₂⟩ | ⟨f, h₁, h₂⟩
  · rw [bind_of_ok h₁, bind_of_ok h₂]
    obtain ⟨houtcome, hhost, hrest⟩ := hf a₁ a₂ h₁ hab hhost
    exact ⟨houtcome, hhost, by simp only [requestsOf_append, hrequests, hrest]⟩
  · rw [bind_of_error h₁, bind_of_error h₂]
    exact ⟨rfl, hhost, hrequests⟩
  · rw [bind_of_fault h₁, bind_of_fault h₂]
    exact ⟨rfl, hhost, hrequests⟩

theorem SameToHost.bind {x₁ x₂ : Step σ ε α} {f₁ f₂ : α → Step σ ε β}
    (hx : SameToHost (x₁ m₁) (x₂ m₂))
    (hf : ∀ a, (x₁ m₁).outcome = .ok a → (x₁ m₁).state.host = (x₂ m₂).state.host →
      SameToHost (f₁ a (x₁ m₁).state) (f₂ a (x₂ m₂).state)) :
    SameToHost ((x₁ >>= f₁) m₁) ((x₂ >>= f₂) m₂) := by
  refine relatedToHost_eq.mp ((relatedToHost_eq.mpr hx).bind ?_)
  rintro a _ ho rfl hhost
  exact relatedToHost_eq.mpr (hf a ho hhost)

end bind

/-- Below the limit an activation does to the host what its step does. -/
theorem sameToHost_activation {limits : Limits} {x : Step σ ε α} {m : Machine σ}
    (hx : Steady (fun _ => ()) x) (h : m.depth < limits.maxDepth) :
    SameToHost (activation limits x m) (x { m with depth := m.depth + 1 }) := by
  rw [activation_of_lt h (hx.depth _)]
  exact ⟨rfl, rfl, requestsOf_activation _⟩

end Evaluator

end CellQuery
