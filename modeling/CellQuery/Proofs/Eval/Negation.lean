import CellQuery.Host.Memory
import CellQuery.Proofs.Eval.Equations
import CellQuery.Proofs.Eval.Same

/-! # De Morgan's law

    The negation of a conjunction and the disjunction of the negations have all operands
    evaluated, left to right, at the same depth.  The values of the operands differ between
    the two in that each is the negation of the other.

    * `Run.EachEnsures` is what is known of the values of operands that are evaluated one
      after another: an operand after the first one without a value is not evaluated, so nothing
      is known of it.
    * With truth values for values the evaluations of the operands are the same to the
      host (`Evaluator.each_negated`), and what `AND` and `OR` make of opposite truth values is
      opposite (`foldBool_opposite`). -/

namespace CellQuery

open Run

variable {σ ε α β : Type}

/-- The runs for the elements one after another: each value that there is has the property, up to
    the first run without one. -/
def Run.EachEnsures {ω : Type} (P : β → Prop) (f : α → Run ω σ ε β) : List α → σ → Prop
  | [], _ => True
  | x :: xs, s => (f x s).outcome.Ensures fun y => P y ∧ EachEnsures P f xs (f x s).state

theorem Run.eachEnsures_cons {ω : Type} {P : β → Prop} {f : α → Run ω σ ε β} {x : α} {xs : List α}
    {s : σ} {y : β} (hx : (f x s).outcome = .ok y) (hy : P y)
    (hxs : EachEnsures P f xs (f x s).state) : EachEnsures P f (x :: xs) s := by
  rw [EachEnsures, hx]
  exact ⟨hy, hxs⟩

/-- A truth value and its negation. -/
def Value.Opposite (v w : Value) : Prop :=
  ∃ b, v = .bool b ∧ w = .bool (!b)

/-! ## Truth values -/

/-- What `AND` and `OR` make of opposite truth values is opposite. -/
theorem foldBool_opposite {vs ws : List Value} (h : List.Forall₂ Value.Opposite vs ws) :
    ∃ b, (foldBool .and false vs : Outcome (EvalError ε) Value) = .ok (.bool b) ∧
      (foldBool .or true ws : Outcome (EvalError ε) Value) = .ok (.bool (!b)) := by
  induction h with
  | nil => exact ⟨true, rfl, rfl⟩
  | cons hvw _ ih =>
    obtain ⟨b, rfl, rfl⟩ := hvw
    -- A false value decides a conjunction, and its opposite the disjunction.
    cases b with
    | false => exact ⟨false, rfl, rfl⟩
    | true => exact ih

theorem compute_opposite {vs ws : List Value} (h : List.Forall₂ Value.Opposite vs ws)
    (hne : vs ≠ []) :
    ∃ b, (compute .and vs : Outcome (EvalError ε) Value) = .ok (.bool b) ∧
      (compute .or ws : Outcome (EvalError ε) Value) = .ok (.bool (!b)) := by
  cases h with
  | nil => exact absurd rfl hne
  | cons hvw hrest => exact foldBool_opposite (hrest.cons hvw)

namespace Evaluator

/-! ## Operands -/

section operands
variable {host : Host σ ε} {limits : Limits} {scopes : Scopes} {m₁ m₂ : Machine σ}

/-- A truth value is evaluated as it is in the negation, which has the opposite one. -/
theorem eval_not_related {e : Value} (hhost : m₁.host = m₂.host)
    (hdepth : m₁.depth = m₂.depth + 1) (hroom : m₂.depth < limits.maxDepth)
    (htruth : (eval host limits e scopes m₁).outcome.Ensures fun v => ∃ b, v = .bool b) :
    RelatedToHost Value.Opposite (eval host limits e scopes m₁)
      (eval host limits (.node .not [e]) scopes m₂) := by
  let negated : Step σ ε Value :=
    eval host limits e scopes >>= fun v => lift (compute .not [v])
  have hsteady : Steady (fun _ => ()) negated :=
    keeps_bind (steady_eval host limits e scopes) fun _ _ => rfl
  have hinside : m₁ = { m₂ with depth := m₂.depth + 1 } := by
    rw [← hhost, ← hdepth]
  have hnegated : RelatedToHost Value.Opposite ((eval host limits e scopes >>= Pure.pure) m₁)
      (negated m₁) := by
    refine (relatedToHost_eq.mpr (.refl _)).bind ?_
    rintro v _ ho rfl _
    rw [ho] at htruth
    obtain ⟨b, rfl⟩ := htruth
    exact ⟨⟨b, rfl, rfl⟩, rfl, rfl⟩
  rw [bind_pure] at hnegated
  have hactivation := sameToHost_activation hsteady hroom
  rw [← hinside] at hactivation
  rw [eval_not]
  exact hnegated.trans_same hactivation.symm

/-- Negated operands are evaluated as the operands are if they start a level higher. -/
theorem each_negated {es : List Value} (hhost : m₁.host = m₂.host)
    (hdepth : m₁.depth = m₂.depth + 1) (hroom : m₂.depth < limits.maxDepth)
    (htruths : EachEnsures (fun v => ∃ b, v = .bool b) (fun e => eval host limits e scopes) es m₁) :
    RelatedToHost (List.Forall₂ Value.Opposite)
      (each (fun e => eval host limits e scopes) es m₁)
      (each (fun e => eval host limits (.node .not [e]) scopes) es m₂) := by
  induction es generalizing m₁ m₂ with
  | nil => exact ⟨.nil, hhost, rfl⟩
  | cons e es ih =>
    have hfirst := eval_not_related hhost hdepth hroom (htruths.imp fun _ h => h.1)
    refine hfirst.bind fun v w hv hvw hhost => ?_
    -- The depths are what they were before the first operand.
    have hdepth₁ := (steady_eval host limits e scopes).depth m₁
    have hdepth₂ := (steady_eval host limits (.node .not [e]) scopes).depth m₂
    have hrest : EachEnsures (fun v => ∃ b, v = .bool b) (fun e => eval host limits e scopes) es
        (eval host limits e scopes m₁).state := by
      rw [EachEnsures, hv] at htruths
      exact htruths.2
    refine (ih hhost (by omega) (by omega) hrest).bind fun vs ws _ hvws hhost => ?_
    exact ⟨.cons hvw hvws, hhost, rfl⟩

/-- Within the outer activation a negated conjunction does what the disjunction of the negated
    operands does. -/
theorem negated_conjunction {es : List Value} (hne : es ≠ []) {m : Machine σ}
    (htruths : EachEnsures (fun v => ∃ b, v = .bool b) (fun e => eval host limits e scopes) es
      { m with depth := m.depth + 1 }) :
    SameToHost
      ((eval host limits (.node .and es) scopes >>= fun v => lift (compute .not [v])) m)
      ((each (fun e => eval host limits (.node .not [e]) scopes) es >>= combine host .or) m) := by
  rw [eval_operator host limits scopes (rfl : Tag.and.nodeClass = .operator)]
  by_cases hdepth : limits.maxDepth ≤ m.depth
  · -- The conjunction is refused, and so is the first negation.
    obtain ⟨e, rest, rfl⟩ := List.exists_cons_of_ne_nil hne
    rw [activation_bind_of_le hdepth, each]
    simp only [eval_not, bind_assoc]
    rw [activation_bind_of_le hdepth]
    exact .refl _
  · have hroom : m.depth < limits.maxDepth := Nat.not_le.mp hdepth
    have hsteady : Steady (fun _ => ())
        (each (fun e => eval host limits e scopes) es >>= combine host .and) :=
      keeps_bind (keeps_each (fun e => steady_eval host limits e scopes) es) fun _ _ => rfl
    have hentered : SameToHost
        ((activation limits (each (fun e => eval host limits e scopes) es >>= combine host .and) >>=
          fun v => lift (compute .not [v])) m)
        (((each (fun e => eval host limits e scopes) es >>= combine host .and) >>=
          fun v => lift (compute .not [v])) { m with depth := m.depth + 1 }) :=
      (sameToHost_activation hsteady hroom).bind fun v _ hhost => ⟨rfl, hhost, rfl⟩
    have hoperands : RelatedToHost (List.Forall₂ Value.Opposite)
        (each (fun e => eval host limits e scopes) es { m with depth := m.depth + 1 })
        (each (fun e => eval host limits (.node .not [e]) scopes) es m) :=
      each_negated rfl rfl hroom htruths
    -- Inside the conjunction its operands start a level deeper than the negations of them.
    refine hentered.trans ?_
    rw [bind_assoc]
    refine relatedToHost_eq.mp (hoperands.bind ?_)
    intro vs ws hvs hvws hhost
    -- There is a value for each operand, and so at least one.
    have hlength := each_length (fun e => eval host limits e scopes) es
      { m with depth := m.depth + 1 }
    rw [hvs] at hlength
    have hvsne : vs ≠ [] := List.ne_nil_of_length_pos (hlength ▸ List.length_pos_of_ne_nil hne)
    obtain ⟨b, hand, hor⟩ := compute_opposite hvws hvsne
    show RelatedToHost Eq ((lift (compute .and vs) >>= fun v => lift (compute .not [v])) _)
      (lift (compute .or ws) _)
    rw [hand, hor]
    exact ⟨rfl, hhost, rfl⟩

end operands

/-- De Morgan's law, if the operands have truth values as far as they have values: the negation
    of a conjunction and the disjunction of the negations end alike, make the same requests and
    leave the host in the same state. -/
theorem de_morgan (host : Host σ ε) (limits : Limits) (scopes : Scopes) {es : List Value}
    (hne : es ≠ []) (m : Machine σ)
    (htruths : EachEnsures (fun v => ∃ b, v = .bool b) (fun e => eval host limits e scopes) es
      { m with depth := m.depth + 2 }) :
    SameToHost (eval host limits (.node .not [.node .and es]) scopes m)
      (eval host limits (.node .or (es.map fun e => .node .not [e])) scopes m) := by
  rw [eval_not, eval_operator host limits scopes (rfl : Tag.or.nodeClass = .operator), each_map]
  by_cases hdepth : limits.maxDepth ≤ m.depth
  · rw [activation_of_le hdepth, activation_of_le hdepth]
    exact .refl _
  · have hroom : m.depth < limits.maxDepth := Nat.not_le.mp hdepth
    have hleft : Steady (fun _ => ())
        (eval host limits (.node .and es) scopes >>= fun v => lift (compute .not [v])) :=
      keeps_bind (steady_eval host limits _ scopes) fun _ _ => rfl
    have hright : Steady (fun _ => ())
        (each (fun e => eval host limits (.node .not [e]) scopes) es >>= combine host .or) :=
      keeps_bind (keeps_each (fun e => steady_eval host limits _ scopes) es) fun _ _ => rfl
    exact ((sameToHost_activation hleft hroom).trans (negated_conjunction hne htruths)).trans
      (sameToHost_activation hright hroom).symm

/-- The first operand decides, and still the second one binds a parameter. -/
theorem de_morgan_after_decision :
    let host := Memory.host ⟨[], [], {}⟩
    let es : List Value := [.bool false, .node .equal [.param 0, .uint 5]]
    let m : Machine Memory.State := ⟨0, .fresh [none]⟩
    let negated := eval host {} (.node .not [.node .and es]) [] m
    es ≠ [] ∧ EachEnsures (fun v => ∃ b, v = .bool b) (fun e => eval host {} e []) es
        { m with depth := m.depth + 2 } ∧
      negated.outcome = .ok (.bool true) ∧ negated.state.host.bindings = [(0, .uint 5)] := by
  intro host es m negated
  have hne : es ≠ [] := List.cons_ne_nil _ _
  have hfirst : (eval host {} (.bool false) [] { m with depth := m.depth + 2 }).outcome =
      .ok (.bool false) := by cbv
  have hsecond : (eval host {} (.node .equal [.param 0, .uint 5]) []
      (eval host {} (.bool false) [] { m with depth := m.depth + 2 }).state).outcome =
      .ok (.bool true) := by cbv
  have htruths : EachEnsures (fun v => ∃ b, v = .bool b) (fun e => eval host {} e []) es
      { m with depth := m.depth + 2 } :=
    eachEnsures_cons hfirst ⟨false, rfl⟩ (eachEnsures_cons hsecond ⟨true, rfl⟩ trivial)
  have hsame : SameToHost negated _ := de_morgan host {} [] hne m htruths
  have hdisjunction : let r := eval host {} (.node .or (es.map fun e => .node .not [e])) [] m
      (r.outcome, r.state.host.bindings) = (.ok (.bool true), [(0, .uint 5)]) := by cbv
  obtain ⟨houtcome, hbindings⟩ := Prod.mk.inj hdisjunction
  refine ⟨hne, htruths, ?_, ?_⟩
  · rw [hsame.outcome]
    exact houtcome
  · rw [hsame.host]
    exact hbindings

end Evaluator

end CellQuery
