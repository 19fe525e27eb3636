import CellQuery.Proofs.Depth.Budget
import CellQuery.Proofs.Host.Filter

/-! # Room for activations

    How many activations are live when an evaluation starts, how many there may be, and what
    the predicates around it have been charged: all this decides whether the evaluation
    overflows, and nothing else.

    * `Run.Agree` relates runs from states that correspond: if neither ends badly, they end
      alike and in states that correspond again.
    * Evaluations of an expression that start with the same parameters agree in this way
      (`Memory.eval_agree`), overflows being the bad endings.  A query leaves to its
      predicates what is left of the limit, so the same is shown of queries first. -/

namespace CellQuery

/-! ## Runs that agree unless one ends badly -/

namespace Run

variable {ω σ₁ σ₂ ε α β : Type} {bad : ε → Prop} {sim : σ₁ → σ₂ → Prop}

/-- From states that correspond the two runs end alike, in states that correspond, unless one
    of them ends badly. -/
def Agree (bad : ε → Prop) (sim : σ₁ → σ₂ → Prop) (x₁ : Run ω σ₁ ε α) (x₂ : Run ω σ₂ ε α) :
    Prop :=
  ∀ s₁ s₂, sim s₁ s₂ → (x₁ s₁).outcome.Avoids bad → (x₂ s₂).outcome.Avoids bad →
    (x₁ s₁).outcome = (x₂ s₂).outcome ∧ sim (x₁ s₁).state (x₂ s₂).state

theorem agree_lift (x : Outcome ε α) :
    Agree bad sim (lift x : Run ω σ₁ ε α) (lift x : Run ω σ₂ ε α) :=
  fun _ _ hs _ _ => ⟨rfl, hs⟩

/-- What ends well has begun well. -/
theorem avoids_of_bind {σ : Type} {x : Run ω σ ε α} {f : α → Run ω σ ε β} {s : σ}
    (h : ((x >>= f) s).outcome.Avoids bad) : (x s).outcome.Avoids bad := by
  cases hx : (x s).outcome with
  | ok a => trivial
  | error e => rwa [bind_of_error hx] at h
  | fault f => rwa [bind_of_fault hx] at h

theorem agree_bind {x₁ : Run ω σ₁ ε α} {x₂ : Run ω σ₂ ε α} {f₁ : α → Run ω σ₁ ε β}
    {f₂ : α → Run ω σ₂ ε β} (hx : Agree bad sim x₁ x₂)
    (hf : ∀ a, Agree bad sim (f₁ a) (f₂ a)) : Agree bad sim (x₁ >>= f₁) (x₂ >>= f₂) := by
  intro s₁ s₂ hs h₁ h₂
  obtain ⟨houtcome, hstate⟩ := hx s₁ s₂ hs (avoids_of_bind h₁) (avoids_of_bind h₂)
  cases ho : (x₁ s₁).outcome with
  | ok a =>
    have ho₂ : (x₂ s₂).outcome = .ok a := houtcome ▸ ho
    rw [bind_of_ok ho] at h₁ ⊢
    rw [bind_of_ok ho₂] at h₂ ⊢
    exact hf a _ _ hstate h₁ h₂
  | error e =>
    rw [bind_of_error ho, bind_of_error (houtcome ▸ ho)]
    exact ⟨rfl, hstate⟩
  | fault f =>
    rw [bind_of_fault ho, bind_of_fault (houtcome ▸ ho)]
    exact ⟨rfl, hstate⟩

theorem agree_keep {test₁ : α → Run ω σ₁ ε Bool} {test₂ : α → Run ω σ₂ ε Bool}
    (h : ∀ a, Agree bad sim (test₁ a) (test₂ a)) (xs : List α) :
    Agree bad sim (keep test₁ xs) (keep test₂ xs) :=
  keep_related (fun a => agree_lift (.ok a)) agree_bind h xs

end Run

open Run

/-! ## Parts of an evaluation -/

namespace Evaluator

/-- An activation that does not overflow does what its step does. -/
theorem activation_of_avoids {σ ε α : Type} {limits : Limits} {x : Step σ ε α} {m : Machine σ}
    (h : (activation limits x m).outcome.Avoids EvalError.IsOverflow) :
    let r := x { m with depth := m.depth + 1 }
    (activation limits x m).outcome = r.outcome ∧
      (activation limits x m).state.host = r.state.host := by
  unfold activation at h ⊢
  split
  · next hle =>
    rw [if_pos hle] at h
    exact absurd ⟨_, _, rfl⟩ h
  · next hlt =>
    simp only [if_neg hlt] at h ⊢
    split
    · exact ⟨rfl, rfl⟩
    · next hnone =>
      simp only [hnone] at h
      exact h.elim

end Evaluator

namespace Memory

open Evaluator

/-- The machines have the same parameters; their depths and charges may differ. -/
def SameSlots (m₁ m₂ : Machine State) : Prop :=
  m₁.host.slots = m₂.host.slots

variable {data : Data} {limits₁ limits₂ : Limits} {α : Type}

theorem agree_activation {x₁ x₂ : Evaluator.Step State Error α}
    (hx : Agree EvalError.IsOverflow SameSlots x₁ x₂) :
    Agree EvalError.IsOverflow SameSlots (activation limits₁ x₁) (activation limits₂ x₂) := by
  intro m₁ m₂ hm h₁ h₂
  obtain ⟨houtcome₁, hhost₁⟩ := activation_of_avoids h₁
  obtain ⟨houtcome₂, hhost₂⟩ := activation_of_avoids h₂
  rw [houtcome₁] at h₁ ⊢
  rw [houtcome₂] at h₂ ⊢
  obtain ⟨houtcome, hslots⟩ := hx { m₁ with depth := m₁.depth + 1 }
    { m₂ with depth := m₂.depth + 1 } hm h₁ h₂
  refine ⟨houtcome, ?_⟩
  unfold SameSlots
  rw [hhost₁, hhost₂]
  exact hslots

/-- A request to bind a parameter looks at the parameters only. -/
theorem bind_of_slots {s₁ s₂ : State} (h : s₁.slots = s₂.slots) (i : Nat) (v : Value) :
    (bind i v s₁).1 = (bind i v s₂).1 ∧ (bind i v s₁).2.slots = (bind i v s₂).2.slots := by
  unfold bind
  rw [h]
  split
  · exact ⟨rfl, h⟩
  · split
    · split
      · exact ⟨rfl, h⟩
      · exact ⟨rfl, h⟩
    · exact ⟨rfl, rfl⟩

theorem agree_askBind (i : Nat) (v : Value) :
    Agree EvalError.IsOverflow SameSlots (askBind (host data) i v) (askBind (host data) i v) := by
  intro m₁ m₂ hm _ _
  obtain ⟨hdone, hslots⟩ := bind_of_slots hm i v
  have hbind : (host data).bind = bind := rfl
  unfold askBind SameSlots
  rw [hbind]
  cases h₁ : bind i v m₁.host with
  | mk done₁ s₁ =>
    cases h₂ : bind i v m₂.host with
    | mk done₂ s₂ =>
      rw [h₁, h₂] at hdone hslots
      obtain rfl : done₁ = done₂ := hdone
      cases done₁ with
      | ok u => exact ⟨rfl, hslots⟩
      | error r => exact ⟨rfl, hslots⟩

theorem agree_askParam (i : Nat) :
    Agree EvalError.IsOverflow SameSlots (askParam (host data) i) (askParam (host data) i) := by
  intro m₁ m₂ hm _ _
  have hparam : param i m₁.host = param i m₂.host := by
    unfold param
    rw [show m₁.host.slots = m₂.host.slots from hm]
  exact ⟨congrArg Outcome.ok hparam, hm⟩

theorem agree_lookupArg (i : UInt64) {s₁ s₂ : Scopes} (hs : s₁ = s₂) :
    Agree EvalError.IsOverflow SameSlots (lookupArg (host data) i s₁)
      (lookupArg (host data) i s₂) := by
  subst hs
  exact lookupArg_related (host data) (host data) (fun _ => agree_lift _) agree_bind
    (fun _ _ _ hm _ _ => ⟨rfl, hm⟩) i s₁

/-! ## Queries -/

/-- A query gets the same answer whatever has been charged, unless it overflows. -/
def QueryAgrees (data : Data) (q : Value) : Prop :=
  Agree (fun r => r.toEvalError.IsOverflow) (fun s₁ s₂ : State => s₁.slots = s₂.slots)
    (answer data q) (answer data q)

theorem agree_askQuery {q : Value} (h : QueryAgrees data q) :
    Agree EvalError.IsOverflow SameSlots (askQuery (host data) q) (askQuery (host data) q) := by
  intro m₁ m₂ hm h₁ h₂
  obtain ⟨houtcome, hslots⟩ := h m₁.host m₂.host hm (askQuery_avoids.mp h₁) (askQuery_avoids.mp h₂)
  have hquery : (host data).query = answer data := rfl
  unfold SameSlots
  rw [askQuery_outcome, askQuery_outcome, askQuery_state, askQuery_state, hquery, houtcome]
  exact ⟨rfl, hslots⟩

/-- Evaluations that have the same iterations allowed, but not the same room. -/
def roomCoupling (data : Data) (h : limits₁.maxIterations = limits₂.maxIterations) :
    Coupling (host data) limits₁ (host data) limits₂ where
  covers e := ∀ q ∈ e.subtrees, q.tag = .queryCells → QueryAgrees data q
  scopes s₁ s₂ := s₁ = s₂
  inside _ _ x₁ x₂ := Agree EvalError.IsOverflow SameSlots x₁ x₂
  whole _ _ x₁ x₂ := Agree EvalError.IsOverflow SameSlots x₁ x₂
  covers_child he hc q hq := he q (Value.mem_subtrees_of_child hc hq)
  push := cons_scope
  lift _ _ := agree_lift _
  bind := agree_bind
  child _ _ hx := hx
  iterations {e} elements _ := by
    obtain ⟨x, _, hlift⟩ := checkIterations_eq_lift (σ := State) (ε := Error) limits₁ e.tag elements
    rw [← checkIterations_congr h, hlift]
    exact agree_lift x
  arg {i} {_} {_} _ hs := agree_lookupArg i hs
  param {i} _ := agree_askParam i.toNat
  binding n v _ _ := agree_askBind n v
  query {e} he ht := agree_askQuery (he e (Value.self_mem_subtrees e) ht)
  activation _ hx := agree_activation hx

/-- A cell that is judged without an overflow has a verdict without one. -/
theorem eval_avoids_of_matchesCell {host : Host State Error} {limits : Limits}
    {predicate cell : Value} {position : Nat} {s : State}
    (h : (matchesCell host limits predicate position cell s).outcome.Avoids
      fun r => r.toEvalError.IsOverflow) :
    (Evaluator.eval host limits predicate [[cell]] ⟨0, s⟩).outcome.Avoids
      EvalError.IsOverflow := by
  unfold matchesCell at h
  cases ho : (Evaluator.eval host limits predicate [[cell]] ⟨0, s⟩).outcome with
  | ok v => trivial
  | error e =>
    simp only [ho] at h
    rintro ⟨depth, maxDepth, rfl⟩
    exact h ⟨depth, maxDepth, rfl⟩
  | fault f =>
    simp only [ho] at h
    exact h

theorem agree_judge {predicate : Value} (h : ∀ q ∈ predicate.subtrees, q.tag = .queryCells →
    QueryAgrees data q) (s₁ s₂ : State) (entry : Value × Nat) :
    Agree (fun r => r.toEvalError.IsOverflow) (fun t₁ t₂ : State => t₁.slots = t₂.slots)
      (judge data s₁ predicate entry) (judge data s₂ predicate entry) := by
  intro t₁ t₂ ht h₁ h₂
  have hlimits : (limitsFor data s₁ predicate).maxIterations =
    (limitsFor data s₂ predicate).maxIterations := rfl
  have heval := (roomCoupling data hlimits).eval h (Eq.refl [[entry.1]])
  obtain ⟨houtcome, _⟩ := heval ⟨0, t₁⟩ ⟨0, t₂⟩ ht (eval_avoids_of_matchesCell h₁)
    (eval_avoids_of_matchesCell h₂)
  refine ⟨?_, ht⟩
  simp only [judge, forgetting, matchesCell, houtcome]

theorem queryAgrees (data : Data) (q : Value) : QueryAgrees data q := by
  induction q using query_induction with
  | step q ih =>
    intro s₁ s₂ hs h₁ h₂
    rw [answer_state, answer_state]
    refine ⟨?_, hs⟩
    match hq : q.children with
    | [] => rw [answer_of_nil hq, answer_of_nil hq]
    | _ :: _ :: _ => rw [answer_of_many hq, answer_of_many hq]
    | [predicate] =>
      -- The predicate is judged under different limits, from the same parameters.
      have hkeep := agree_bind (agree_keep (agree_judge (ih predicate hq) s₁ s₂) data.cells.zipIdx)
        fun accepted => agree_lift (.ok (accepted.map Prod.fst))
      rw [answer_outcome hq] at h₁ h₂ ⊢
      rw [answer_outcome hq]
      exact (hkeep (stateFor s₁ predicate) (stateFor s₂ predicate) hs h₁ h₂).1

/-! ## Evaluations -/

/-- Evaluations that start with the same parameters end alike, with the same parameters,
    unless one of them overflows.  It does not matter how deep they start, how deep they may
    go, and what has been charged. -/
theorem eval_agree (data : Data) (h : limits₁.maxIterations = limits₂.maxIterations) (e : Value)
    (scopes : Scopes) :
    Agree EvalError.IsOverflow SameSlots (Evaluator.eval (host data) limits₁ e scopes)
      (Evaluator.eval (host data) limits₂ e scopes) :=
  (roomCoupling data h).eval (fun q _ _ => queryAgrees data q) rfl

end Memory

end CellQuery
