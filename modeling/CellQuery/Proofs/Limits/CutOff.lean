import CellQuery.Proofs.Host.Answer

/-! # Limits as cut-offs

    A limit decides whether an evaluation goes on and nothing else.  Under wider
    limits an evaluation is therefore the same, unless a limit has ended it:

    * `Limits.Within` compares limits; a missing limit is wider than any other.
    * `Run.CutOff` relates two runs of which the first may be ended by a limit and
      which are the same otherwise.  Every part of an evaluation keeps it, because
      a limit that is exceeded is reported through any number of evaluations and
      queries as the same limit.
    * What nested predicates are left of the host's limit grows with that limit, so the
      relation holds of queries as well. -/

namespace CellQuery

/-! ## Wider limits -/

/-- Whatever the first limits allow the second ones allow, too. -/
def Limits.Within (limits wider : Limits) : Prop :=
  limits.maxDepth ≤ wider.maxDepth ∧
    ∀ most, wider.maxIterations = some most →
      ∃ least, limits.maxIterations = some least ∧ least ≤ most

theorem Limits.Within.iterationFault? {limits wider : Limits} (h : limits.Within wider)
    {tag : Tag} {count : Nat} (hcount : limits.iterationFault? tag count = none) :
    wider.iterationFault? tag count = none := by
  unfold Limits.iterationFault?
  cases hmost : wider.maxIterations with
  | none => rfl
  | some most =>
    obtain ⟨least, hleast, hle⟩ := h.2 most hmost
    have hcount_le : ¬least < count := by
      intro hlt
      simp [Limits.iterationFault?, hleast, hlt] at hcount
    have hmost_le : ¬most < count := by omega
    simp only [hmost_le, if_false]

/-! ## Errors that are limits -/

/-- The error says that a limit was exceeded. -/
def EvalError.IsLimit {ε : Type} (e : EvalError ε) : Prop :=
  ∃ l, e = .limit l

/-- The refusal says that a limit was exceeded. -/
def Refusal.IsLimit {ε : Type} (r : Refusal ε) : Prop :=
  ∃ l, r = .limit l

theorem Refusal.IsLimit.toEvalError {ε : Type} {r : Refusal ε} (h : r.IsLimit) :
    r.toEvalError.IsLimit := by
  obtain ⟨l, rfl⟩ := h
  exact ⟨l, rfl⟩

/-! ## Runs that are cut off -/

namespace Run

variable {ω σ ε α β : Type} {cut : ε → Prop}

/-- The first run ends with one of the given errors, or both runs are the same. -/
def CutOff (cut : ε → Prop) (x₁ x₂ : Run ω σ ε α) : Prop :=
  ∀ s, (∃ e, (x₁ s).outcome = .error e ∧ cut e) ∨ x₁ s = x₂ s

theorem cutOff_refl (x : Run ω σ ε α) : CutOff cut x x :=
  fun _ => .inr rfl

theorem cutOff_bind {x₁ x₂ : Run ω σ ε α} {f₁ f₂ : α → Run ω σ ε β} (hx : CutOff cut x₁ x₂)
    (hf : ∀ a, CutOff cut (f₁ a) (f₂ a)) : CutOff cut (x₁ >>= f₁) (x₂ >>= f₂) := by
  intro s
  rcases hx s with ⟨e, he, hcut⟩ | hsame
  · left
    rw [bind_of_error he]
    exact ⟨e, rfl, hcut⟩
  · cases ho : (x₁ s).outcome with
    | ok a =>
      have ho₂ : (x₂ s).outcome = .ok a := hsame ▸ ho
      rw [bind_of_ok ho, bind_of_ok ho₂, ← hsame]
      -- The first parts are the same; what follows may still be cut off.
      rcases hf a (x₁ s).state with ⟨e, he, hcut⟩ | hrest
      · exact .inl ⟨e, he, hcut⟩
      · rw [hrest]
        exact .inr rfl
    | error e =>
      have ho₂ : (x₂ s).outcome = .error e := hsame ▸ ho
      rw [bind_of_error ho, bind_of_error ho₂, hsame]
      exact .inr rfl
    | fault f =>
      have ho₂ : (x₂ s).outcome = .fault f := hsame ▸ ho
      rw [bind_of_fault ho, bind_of_fault ho₂, hsame]
      exact .inr rfl

theorem cutOff_keep {test₁ test₂ : α → Run ω σ ε Bool}
    (h : ∀ a, CutOff cut (test₁ a) (test₂ a)) (xs : List α) :
    CutOff cut (keep test₁ xs) (keep test₂ xs) :=
  keep_related (fun a => cutOff_refl (pure a)) cutOff_bind h xs

end Run

open Run

/-! ## Parts of an evaluation -/

namespace Evaluator

variable {σ ε α : Type} {limits wider : Limits} {host₁ host₂ : Host σ ε}

theorem cutOff_lookupArg (h : host₁.arg = host₂.arg) (i : UInt64) {s₁ s₂ : Scopes}
    (hs : s₁ = s₂) : CutOff EvalError.IsLimit (lookupArg host₁ i s₁) (lookupArg host₂ i s₂) := by
  rw [lookupArg_congr h, hs]
  exact cutOff_refl _

theorem cutOff_askParam (h : host₁.param = host₂.param) (n : Nat) :
    CutOff EvalError.IsLimit (askParam host₁ n) (askParam host₂ n) := by
  rw [askParam_congr h]
  exact cutOff_refl _

theorem cutOff_askBind (h : host₁.bind = host₂.bind) (n : Nat) (v : Value) :
    CutOff EvalError.IsLimit (askBind host₁ n v) (askBind host₂ n v) := by
  rw [askBind_congr h]
  exact cutOff_refl _

/-- A narrower limit on depth refuses the activation, or both activations are made. -/
theorem cutOff_activation (h : limits.Within wider) {x₁ x₂ : Step σ ε α}
    (hsteady : Steady (fun _ => ()) x₁) (hx : CutOff EvalError.IsLimit x₁ x₂) :
    CutOff EvalError.IsLimit (activation limits x₁) (activation wider x₂) := by
  intro m
  rcases Nat.lt_or_ge m.depth limits.maxDepth with hlt | hle
  · have hlt₂ : m.depth < wider.maxDepth := Nat.lt_of_lt_of_le hlt h.1
    have hdepth := hsteady.depth { m with depth := m.depth + 1 }
    rw [activation_of_lt hlt hdepth]
    rcases hx { m with depth := m.depth + 1 } with hcut | hsame
    · exact .inl hcut
    · rw [activation_of_lt hlt₂ (hsame ▸ hdepth), hsame]
      exact .inr rfl
  · rw [activation_of_le hle]
    exact .inl ⟨_, rfl, _, rfl⟩

theorem cutOff_checkIterations (h : limits.Within wider) (tag : Tag) (elements : List Value) :
    CutOff EvalError.IsLimit (checkIterations limits tag elements : Step σ ε Unit)
      (checkIterations wider tag elements) := by
  intro m
  unfold checkIterations
  cases hfault : limits.iterationFault? tag elements.length with
  | some l => exact .inl ⟨.limit l, rfl, l, rfl⟩
  | none =>
    rw [h.iterationFault? hfault]
    exact .inr rfl

theorem cutOff_askQuery {q : Value}
    (h : CutOff Refusal.IsLimit (host₁.query q) (host₂.query q)) :
    CutOff EvalError.IsLimit (askQuery host₁ q) (askQuery host₂ q) := by
  intro m
  unfold askQuery
  rcases h m.host with ⟨r, hr, hlimit⟩ | hsame
  · left
    simp only [hr]
    exact ⟨r.toEvalError, rfl, hlimit.toEvalError⟩
  · right
    rw [hsame]

end Evaluator

/-! ## Evaluations and queries -/

namespace Memory

open Evaluator

section wider
variable {data : Data} {hostLimits limits wider : Limits}

/-! ### Requests in which the limits have no part -/

theorem host_arg (data : Data) (hostLimits : Limits) :
    (host data).arg = (host { data with limits := hostLimits }).arg := by
  unfold host hostWith
  rfl

theorem host_param (data : Data) (hostLimits : Limits) :
    (host data).param = (host { data with limits := hostLimits }).param := by
  unfold host hostWith
  rfl

theorem host_bind (data : Data) (hostLimits : Limits) :
    (host data).bind = (host { data with limits := hostLimits }).bind := by
  unfold host hostWith
  rfl

/-! ### Queries -/

/-- Evaluations of an expression whose queries are cut off only by limits. -/
def cutOffCoupling (data : Data) (hostLimits : Limits) (h : limits.Within wider) :
    Coupling (host data) limits (host { data with limits := hostLimits }) wider where
  covers e := ∀ q ∈ e.subtrees, q.tag = .queryCells →
    CutOff Refusal.IsLimit (answer data q) (answer { data with limits := hostLimits } q)
  scopes s₁ s₂ := s₁ = s₂
  inside _ _ x₁ x₂ := Steady (fun _ => ()) x₁ ∧ CutOff EvalError.IsLimit x₁ x₂
  whole _ _ x₁ x₂ := Steady (fun _ => ()) x₁ ∧ CutOff EvalError.IsLimit x₁ x₂
  covers_child he hc q hq := he q (Value.mem_subtrees_of_child hc hq)
  push := cons_scope
  lift _ _ := ⟨fun _ => rfl, cutOff_refl _⟩
  bind hx hf := ⟨keeps_bind hx.1 fun a => (hf a).1, cutOff_bind hx.2 fun a => (hf a).2⟩
  child _ _ hx := hx
  iterations {e} elements _ :=
    ⟨steady_checkIterations limits _ e.tag elements, cutOff_checkIterations h e.tag elements⟩
  arg {i} {s₁} {_} _ hs :=
    ⟨(steadyRules (keeps_nothing (host data)) limits).lookupArg_inside trivial s₁,
      cutOff_lookupArg (host_arg data hostLimits) i hs⟩
  param {i} _ :=
    ⟨fun _ => rfl, cutOff_askParam (host_param data hostLimits) i.toNat⟩
  binding n v _ _ :=
    ⟨steady_askBind (keeps_nothing (host data)) n v, cutOff_askBind (host_bind data hostLimits) n v⟩
  query {e} he ht :=
    ⟨steady_askQuery (keeps_nothing (host data)) e,
      cutOff_askQuery (he e (Value.self_mem_subtrees e) ht)⟩
  activation _ hx := ⟨steady_activation limits hx.1, cutOff_activation h hx.1 hx.2⟩

/-- A limit that ends the evaluation of a predicate ends the query. -/
theorem cutOff_matchesCell {host₁ host₂ : Host State Error} {predicate cell : Value}
    (h : CutOff EvalError.IsLimit (Evaluator.eval host₁ limits predicate [[cell]])
      (Evaluator.eval host₂ wider predicate [[cell]])) (position : Nat) :
    CutOff Refusal.IsLimit (matchesCell host₁ limits predicate position cell)
      (matchesCell host₂ wider predicate position cell) := by
  intro s
  unfold matchesCell
  rcases h ⟨0, s⟩ with ⟨_, he, l, rfl⟩ | hsame
  · left
    simp only [he]
    exact ⟨.limit l, rfl, l, rfl⟩
  · right
    rw [hsame]

theorem cutOff_forgetting {α : Type} {x₁ x₂ : Memory.Step α}
    (h : CutOff Refusal.IsLimit x₁ x₂) :
    CutOff Refusal.IsLimit (forgetting x₁) (forgetting x₂) := by
  intro s
  unfold forgetting
  rcases h s with hcut | hsame
  · exact .inl hcut
  · rw [hsame]
    exact .inr rfl

/-- What predicates are left of the limits grows with the limits. -/
theorem within_limitsFor (h : data.limits.Within hostLimits) (s : State) (predicate : Value) :
    (limitsFor data s predicate).Within
      (limitsFor { data with limits := hostLimits } s predicate) :=
  ⟨Nat.sub_le_sub_right h.1 _, h.2⟩

/-- A query under wider limits has the same answer, unless a limit has ended it. -/
theorem cutOff_answer (h : data.limits.Within hostLimits) (q : Value) :
    CutOff Refusal.IsLimit (answer data q) (answer { data with limits := hostLimits } q) := by
  induction q using query_induction with
  | step q ih =>
    intro s
    rw [answer_eq, answer_eq]
    match hq : q.children with
    | [] => exact .inr rfl
    | _ :: _ :: _ => exact .inr rfl
    | [predicate] =>
      have hcell : ∀ entry : Value × Nat, CutOff Refusal.IsLimit
          (forgetting (matchesCell (host data) (limitsFor data s predicate) predicate
            entry.2 entry.1))
          (forgetting (matchesCell (host { data with limits := hostLimits })
            (limitsFor { data with limits := hostLimits } s predicate) predicate
            entry.2 entry.1)) := by
        intro ⟨cell, position⟩
        have heval := (cutOffCoupling data hostLimits (within_limitsFor h s predicate)).eval
          (ih predicate hq) (Eq.refl [[cell]])
        exact cutOff_forgetting (cutOff_matchesCell heval.2 position)
      have hfilter := cutOff_bind (cutOff_keep hcell data.cells.zipIdx)
        fun accepted => cutOff_refl (Run.pure (accepted.map Prod.fst))
      simp only [charged_apply]
      -- Both queries evaluate their predicate from the same state.
      rcases hfilter (stateFor s predicate) with hcut | hsame
      · exact .inl hcut
      · right
        exact congrArg (fun r : Ran (Event Error) State (Refusal Error) (List Value) =>
          { r with state := { r.state with charge := s.charge } }) hsame

end wider

/-! ## Limits change nothing else -/

/-- If no limit ends an evaluation, it is the same under any wider limits of the evaluator and
    of the host: same outcome with all that an error tells, same state with the same bindings,
    same requests on the way. -/
theorem runs_eq_of_within (data : Data) (hostLimits limits wider : Limits)
    (hlimits : limits.Within wider) (hhost : data.limits.Within hostLimits)
    (e : Value) (scopes : Scopes) (m : Machine State) :
    let widerHost := host { data with limits := hostLimits }
    ((∀ l, (Evaluator.eval (host data) limits e scopes m).outcome ≠ .error (.limit l)) →
      Evaluator.eval widerHost wider e scopes m = Evaluator.eval (host data) limits e scopes m) ∧
    ((∀ l, (Evaluator.evalList (host data) limits e scopes m).outcome ≠ .error (.limit l)) →
      Evaluator.evalList widerHost wider e scopes m =
        Evaluator.evalList (host data) limits e scopes m) := by
  have hcovers : (cutOffCoupling data hostLimits hlimits).covers e :=
    fun q _ _ => cutOff_answer hhost q
  have heval := ((cutOffCoupling data hostLimits hlimits).eval hcovers (Eq.refl scopes)).2 m
  have hlist := ((cutOffCoupling data hostLimits hlimits).evalList hcovers (Eq.refl scopes)).2 m
  constructor
  · intro hne
    rcases heval with ⟨_, he, l, rfl⟩ | hsame
    · exact absurd he (hne l)
    · exact hsame.symm
  · intro hne
    rcases hlist with ⟨_, he, l, rfl⟩ | hsame
    · exact absurd he (hne l)
    · exact hsame.symm

/-- A binding is made, then the predicate of a query fails, within limits that have nothing to
    spare; without them everything is the same. -/
theorem runs_eq_of_within_failing_predicate :
    let data : Data := ⟨[], [.uint 1], ⟨2, some 1⟩⟩
    let predicate : Value := .node .not [.arg 0]
    let e : Value := .node .and
      [.node .equal [.param 0, .uint 5], .reduce (.arg 0) .nil (.queryCells predicate)]
    let m : Machine State := ⟨0, .fresh [none]⟩
    let r := Evaluator.eval (host { data with limits := ⟨64, none⟩ }) ⟨64, none⟩ e [] m
    r.outcome = .error (.host (.predicate 0 (.typeMismatch .not .bool .uint64))) ∧
      r.state.host.bindings = [(0, .uint 5)] := by
  intro data predicate e m r
  have houtcome : (Evaluator.eval (host data) ⟨3, some 1⟩ e [] m).outcome =
    .error (.host (.predicate 0 (.typeMismatch .not .bool .uint64))) := by cbv
  have hbindings : (Evaluator.eval (host data) ⟨3, some 1⟩ e [] m).state.host.bindings =
    [(0, .uint 5)] := by cbv
  have hne : ∀ l, (Evaluator.eval (host data) ⟨3, some 1⟩ e [] m).outcome ≠
      .error (.limit l) := by
    intro l hl
    rw [houtcome] at hl
    cases hl
  have hlimits : Limits.Within ⟨3, some 1⟩ ⟨64, none⟩ := ⟨by decide, fun _ h => by cases h⟩
  have hhost : data.limits.Within ⟨64, none⟩ := ⟨by decide, fun _ h => by cases h⟩
  have hsame : r = _ := (runs_eq_of_within data ⟨64, none⟩ _ _ hlimits hhost e [] m).1 hne
  rw [hsame]
  exact ⟨houtcome, hbindings⟩

end Memory

end CellQuery
