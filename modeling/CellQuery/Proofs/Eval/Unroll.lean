import Mathlib.Data.List.Induction
import CellQuery.Host.Memory
import CellQuery.Proofs.Eval.Equations
import CellQuery.Proofs.Eval.Same

/-! # Loops over literal lists

    A `REDUCE` or `MAP` over a list that is written out does what applications of its body do
    that are written out one by one.  The two sides evaluate the same things in the same
    order, but not at the same depth:

    * `Evaluator.Shallower` compares a step with one that starts no deeper.  Unless the first
      one goes too deep the second one does the same, so both sides can be compared with
      the bare loop, which starts no deeper than any part of them.
    * An evaluation compares so with itself (`Evaluator.eval_shallower`), and an activation may
      be left out (`Evaluator.Shallower.of_activation`). -/

namespace CellQuery

open Event Run

variable {σ ε α β : Type}

/-- The body applied to what has been reached and each of the elements in turn, from the start. -/
def Value.applied (body start : Value) (elements : List Value) : Value :=
  elements.foldl (fun reached x => .apply body [reached, x]) start

namespace Run

variable {ω γ : Type}

theorem each_pure (xs : List α) : (each Pure.pure xs : Run ω σ ε (List α)) = Pure.pure xs := by
  induction xs with
  | nil => rfl
  | cons x xs ih => rw [each, ih, pure_bind, pure_bind]

theorem fold_append (f : β → α → Run ω σ ε β) (acc : β) (xs ys : List α) :
    fold f acc (xs ++ ys) = fold f acc xs >>= fun acc => fold f acc ys := by
  induction xs generalizing acc with
  | nil => exact (pure_bind acc fun acc => fold f acc ys).symm
  | cons x xs ih => simp only [List.cons_append, fold, bind_assoc, ih]

end Run

namespace Evaluator

/-! ## Steps that start no deeper -/

/-- The run ended because an activation would have gone past the limit on depth.  A refusal of
    the host that reads the same is something else. -/
structure TooDeep (limits : Limits) (r : Ran (Event ε) (Machine σ) (EvalError ε) α) : Prop where
  outcome : ∃ depth, limits.maxDepth ≤ depth ∧
    r.outcome = .error (.limit (.stackOverflow depth limits.maxDepth))
  granted : Granted (requestsOf r.events)

/-- Unless the first step goes too deep, the second one does the same if it starts no deeper. -/
structure Shallower (limits : Limits) (x₁ x₂ : Step σ ε α) : Prop where
  heedful : Heedful x₁
  steady : Steady (fun _ => ()) x₂
  same : ∀ m₁ m₂, m₁.host = m₂.host → m₂.depth ≤ m₁.depth → ¬TooDeep limits (x₁ m₁) →
    SameToHost (x₁ m₁) (x₂ m₂)

variable {limits : Limits}

/-- A step that looks at nothing but the host. -/
theorem shallower_of_host {x : Step σ ε α} (hheedful : Heedful x)
    (h : ∀ m₁ m₂, m₁.host = m₂.host → SameToHost (x m₁) (x m₂)) : Shallower limits x x :=
  ⟨hheedful, hheedful.1, fun m₁ m₂ hhost _ _ => h m₁ m₂ hhost⟩

theorem shallower_lift {x : Outcome (EvalError ε) α} (hx : x.Local) :
    Shallower limits (lift x : Step σ ε α) (lift x) :=
  shallower_of_host (heedful_lift hx) fun _ _ hhost => ⟨rfl, hhost, rfl⟩

theorem shallower_pure (a : α) : Shallower limits (Pure.pure a : Step σ ε α) (Pure.pure a) :=
  shallower_lift (x := .ok a) trivial

theorem shallower_bind {x₁ x₂ : Step σ ε α} {f₁ f₂ : α → Step σ ε β}
    (hx : Shallower limits x₁ x₂) (hf : ∀ a, Shallower limits (f₁ a) (f₂ a)) :
    Shallower limits (x₁ >>= f₁) (x₂ >>= f₂) := by
  refine ⟨heedful_bind hx.heedful fun a => (hf a).heedful,
    keeps_bind hx.steady fun a => (hf a).steady, fun m₁ m₂ hhost hdepth hdeep => ?_⟩
  have hfirst : ¬TooDeep limits (x₁ m₁) := by
    rintro ⟨⟨depth, hle, ho⟩, hgranted⟩
    rw [bind_of_error ho] at hdeep
    exact hdeep ⟨⟨depth, hle, rfl⟩, hgranted⟩
  refine (hx.same m₁ m₂ hhost hdepth hfirst).bind fun a ho hhost' => ?_
  -- The depths are what they were before the first parts.
  have hdepth' : (x₂ m₂).state.depth ≤ (x₁ m₁).state.depth := by
    rw [hx.heedful.1.depth, hx.steady.depth]
    exact hdepth
  -- All that the first part asked for was granted, so the second part is to blame.
  have hsecond : ¬TooDeep limits (f₁ a (x₁ m₁).state) := by
    rintro ⟨hlimit, hgranted⟩
    have hbefore : Granted (requestsOf (x₁ m₁).events) := by
      have hheeds := hx.heedful.2 m₁
      rw [ho] at hheeds
      exact hheeds.granted
    rw [bind_of_ok ho] at hdeep
    refine hdeep ⟨hlimit, ?_⟩
    rw [requestsOf_append]
    exact hbefore.append hgranted
  exact (hf a).same _ _ hhost' hdepth' hsecond

/-- What follows a step that is as good as a value gets that value. -/
theorem Shallower.bind_pure {x : Step σ ε α} {a : α} {f : α → Step σ ε β}
    (hx : Shallower limits x (Pure.pure a)) (hf : ∀ v, Shallower limits (f v) (f v)) :
    Shallower limits (x >>= f) (f a) := by
  have hbind := shallower_bind hx hf
  rwa [pure_bind] at hbind

/-- An activation that does not go too deep is entered, and its step does not go too deep. -/
theorem lt_of_not_tooDeep {x : Step σ ε α} {m : Machine σ} (hx : Steady (fun _ => ()) x)
    (h : ¬TooDeep limits (activation limits x m)) :
    m.depth < limits.maxDepth ∧ ¬TooDeep limits (x { m with depth := m.depth + 1 }) := by
  rcases Nat.lt_or_ge m.depth limits.maxDepth with hlt | hle
  · refine ⟨hlt, fun ⟨hlimit, hgranted⟩ => h ?_⟩
    have hsame := sameToHost_activation hx hlt
    rw [← hsame.outcome] at hlimit
    rw [← hsame.requests] at hgranted
    exact ⟨hlimit, hgranted⟩
  · rw [activation_of_le hle] at h
    exact absurd ⟨⟨m.depth, hle, rfl⟩, granted_nil⟩ h

/-- Without the activation a step starts a level higher. -/
theorem Shallower.of_activation {x₁ x₂ : Step σ ε α} (hx : Shallower limits x₁ x₂) :
    Shallower limits (activation limits x₁) x₂ := by
  refine ⟨heedful_activation hx.heedful, hx.steady, fun m₁ m₂ hhost hdepth hdeep => ?_⟩
  obtain ⟨hlt, hdeep⟩ := lt_of_not_tooDeep hx.heedful.1 hdeep
  exact (sameToHost_activation hx.heedful.1 hlt).trans
    (hx.same _ m₂ hhost (Nat.le_succ_of_le hdepth) hdeep)

theorem shallower_activation {x₁ x₂ : Step σ ε α} (hx : Shallower limits x₁ x₂) :
    Shallower limits (activation limits x₁) (activation limits x₂) := by
  refine ⟨heedful_activation hx.heedful, steady_activation limits hx.steady,
    fun m₁ m₂ hhost hdepth hdeep => ?_⟩
  obtain ⟨hlt, hdeep⟩ := lt_of_not_tooDeep hx.heedful.1 hdeep
  have hsame := hx.same { m₁ with depth := m₁.depth + 1 } { m₂ with depth := m₂.depth + 1 } hhost
    (Nat.succ_le_succ hdepth) hdeep
  exact ((sameToHost_activation hx.heedful.1 hlt).trans hsame).trans
    (sameToHost_activation hx.steady (Nat.lt_of_le_of_lt hdepth hlt)).symm

/-! ### Requests -/

section requests
variable (host : Host σ ε)

theorem shallower_askArg (n : Nat) : Shallower limits (askArg host n) (askArg host n) := by
  refine shallower_of_host (heedful_askArg n) fun m₁ m₂ hhost => ?_
  unfold askArg
  rw [hhost]
  exact ⟨rfl, rfl, rfl⟩

theorem shallower_askParam (n : Nat) : Shallower limits (askParam host n) (askParam host n) := by
  refine shallower_of_host (heedful_askParam n) fun m₁ m₂ hhost => ?_
  unfold askParam
  rw [hhost]
  exact ⟨rfl, rfl, rfl⟩

theorem shallower_askBind (n : Nat) (v : Value) :
    Shallower limits (askBind host n v) (askBind host n v) := by
  refine shallower_of_host (heedful_askBind n v) fun m₁ m₂ hhost => ?_
  unfold askBind
  rw [hhost]
  split
  · exact ⟨rfl, rfl, rfl⟩
  · exact ⟨rfl, rfl, rfl⟩

theorem shallower_askQuery (q : Value) :
    Shallower limits (askQuery host q) (askQuery host q) := by
  refine shallower_of_host (heedful_askQuery q) fun m₁ m₂ hhost => ?_
  unfold askQuery
  rw [hhost]
  simp only
  split
  · exact ⟨rfl, rfl, rfl⟩
  · exact ⟨rfl, rfl, rfl⟩
  · exact ⟨rfl, rfl, rfl⟩

end requests

/-! ## Evaluations -/

/-- An evaluation does the same wherever it starts, unless it goes too deep. -/
def shallowerCoupling (host : Host σ ε) (limits : Limits) : Coupling host limits host limits where
  covers _ := True
  scopes s₁ s₂ := s₁ = s₂
  inside _ _ x₁ x₂ := Shallower limits x₁ x₂
  whole _ _ x₁ x₂ := Shallower limits x₁ x₂
  covers_child _ _ := trivial
  push := cons_scope
  lift _ := shallower_lift
  bind := shallower_bind
  child _ _ hx := hx
  iterations {e} elements _ := by
    obtain ⟨x, hx, hlift⟩ := checkIterations_eq_lift (σ := σ) (ε := ε) limits e.tag elements
    rw [hlift]
    exact shallower_lift hx
  arg {i} {s₁} {_} _ hs := by
    subst hs
    exact lookupArg_related host host (R := fun x₁ x₂ => Shallower limits x₁ x₂)
      shallower_lift shallower_bind (shallower_askArg host) i s₁
  param {i} _ := shallower_askParam host i.toNat
  binding n v _ _ := shallower_askBind host n v
  query {e} _ _ := shallower_askQuery host e
  activation _ hx := shallower_activation hx

theorem eval_shallower (host : Host σ ε) (limits : Limits) (e : Value) (scopes : Scopes) :
    Shallower limits (eval host limits e scopes) (eval host limits e scopes) :=
  (shallowerCoupling host limits).eval trivial rfl

theorem evalList_shallower (host : Host σ ε) (limits : Limits) (e : Value) (scopes : Scopes) :
    Shallower limits (evalList host limits e scopes) (evalList host limits e scopes) :=
  (shallowerCoupling host limits).evalList trivial rfl

/-! ## Loops -/

theorem each_shallower {f₁ : α → Step σ ε Value} {f₂ : β → Step σ ε Value} {xs : List α}
    {ys : List β} (h : List.Forall₂ (fun x y => Shallower limits (f₁ x) (f₂ y)) xs ys) :
    Shallower limits (each f₁ xs) (each f₂ ys) := by
  induction h with
  | nil => exact shallower_pure []
  | cons hxy _ ih =>
    exact shallower_bind hxy fun v => shallower_bind ih fun vs => shallower_pure (v :: vs)

theorem fold_shallower {f₁ f₂ : Value → Value → Step σ ε Value}
    (h : ∀ acc x, Shallower limits (f₁ acc x) (f₂ acc x)) (acc : Value) (xs : List Value) :
    Shallower limits (fold f₁ acc xs) (fold f₂ acc xs) := by
  induction xs generalizing acc with
  | nil => exact shallower_pure acc
  | cons x xs ih => exact shallower_bind (h acc x) ih

/-- No number of elements is too many if there is no limit on it. -/
theorem checkIterations_none (hiter : limits.maxIterations = none) (tag : Tag)
    (elements : List Value) :
    (checkIterations limits tag elements : Step σ ε Unit) = Pure.pure () :=
  checkIterations_of_none (iterationFault?_of_le fun _ h => nomatch hiter.symm.trans h)

section unrolled
variable (host : Host σ ε) (limits : Limits) (scopes : Scopes)

/-- A scalar is its own value. -/
theorem scalar_shallower {v : Value} (hv : v.IsScalar) :
    Shallower limits (eval host limits v scopes) (Pure.pure v) := by
  rw [eval_scalar host limits scopes hv]
  exact (shallower_pure v).of_activation

/-- A list of scalars is its own list of values. -/
theorem scalars_shallower {vs : List Value} (hvs : ∀ v ∈ vs, v.IsScalar) :
    Shallower limits (evalList host limits (.list vs) scopes) (Pure.pure vs) := by
  rw [evalList_list, ← each_pure]
  exact (each_shallower (List.forall₂_same.mpr fun v hv =>
    scalar_shallower host limits scopes (hvs v hv))).of_activation

/-- The loop that a `REDUCE` is once its list is there. -/
def reduction (body start : Value) (xs : List Value) : Step σ ε Value :=
  eval host limits start scopes >>= fun acc =>
    fold (fun acc x => eval host limits body ([acc, x] :: scopes)) acc xs

/-- The loop that a `MAP` is once its list is there. -/
def mapping (body : Value) (xs : List Value) : Step σ ε (List Value) :=
  each (fun x => eval host limits body ([x] :: scopes)) xs

theorem reduction_append (body start : Value) (xs : List Value) (x : Value) :
    reduction host limits scopes body start (xs ++ [x]) =
      reduction host limits scopes body start xs >>= fun acc =>
        eval host limits body ([acc, x] :: scopes) := by
  simp only [reduction, fold_append, bind_assoc]
  congr 1
  funext acc
  congr 1
  funext acc
  exact bind_pure _

/-- Applications inside each other do what the loop does. -/
theorem applied_shallower (body start : Value) {xs : List Value} (hxs : ∀ x ∈ xs, x.IsScalar) :
    Shallower limits (eval host limits (.applied body start xs) scopes)
      (reduction host limits scopes body start xs) := by
  induction xs using List.reverseRecOn with
  | nil =>
    show Shallower limits _ (eval host limits start scopes >>= Pure.pure)
    rw [bind_pure]
    exact eval_shallower host limits start scopes
  | append_singleton xs x ih =>
    have hxs' : ∀ x ∈ xs, x.IsScalar := fun x hx => hxs x (List.mem_append_left _ hx)
    have hx : x.IsScalar := hxs x (List.mem_append_right xs List.mem_cons_self)
    have hlast : Value.applied body start (xs ++ [x]) =
        .apply body [.applied body start xs, x] := by
      simp only [Value.applied, List.foldl_append, List.foldl_cons, List.foldl_nil]
    rw [hlast, eval_apply, each_pair, reduction_append]
    refine (shallower_bind (ih hxs') fun acc => ?_).of_activation
    exact (scalar_shallower host limits scopes hx).bind_pure fun v =>
      eval_shallower host limits body ([acc, v] :: scopes)

/-- So does a `REDUCE` over the elements. -/
theorem reduce_shallower (hiter : limits.maxIterations = none) (body start : Value)
    {xs : List Value} (hxs : ∀ x ∈ xs, x.IsScalar) :
    Shallower limits (eval host limits (.reduce body start (.list xs)) scopes)
      (reduction host limits scopes body start xs) := by
  rw [eval_reduce]
  simp only [checkIterations_none hiter, pure_bind]
  refine (shallower_bind (eval_shallower host limits start scopes) fun acc => ?_).of_activation
  exact (scalars_shallower host limits scopes hxs).bind_pure fun elements =>
    fold_shallower (fun acc x => eval_shallower host limits body ([acc, x] :: scopes)) acc elements

/-- A `LIST` of applications does what the loop over the elements does. -/
theorem applications_shallower (body : Value) {xs : List Value} (hxs : ∀ x ∈ xs, x.IsScalar) :
    Shallower limits (evalList host limits (.list (xs.map fun x => .apply body [x])) scopes)
      (mapping host limits scopes body xs) := by
  rw [evalList_list, each_map]
  refine (each_shallower (List.forall₂_same.mpr fun x hx => ?_)).of_activation
  rw [eval_apply, each_singleton]
  exact ((scalar_shallower host limits scopes (hxs x hx)).bind_pure fun v =>
    eval_shallower host limits body ([v] :: scopes)).of_activation

/-- So does a `MAP` over them. -/
theorem map_shallower (hiter : limits.maxIterations = none) (body : Value) {xs : List Value}
    (hxs : ∀ x ∈ xs, x.IsScalar) :
    Shallower limits (evalList host limits (.map body (.list xs)) scopes)
      (mapping host limits scopes body xs) := by
  rw [evalList_map]
  simp only [checkIterations_none hiter, pure_bind]
  exact ((scalars_shallower host limits scopes hxs).bind_pure fun elements =>
    each_shallower (List.forall₂_same.mpr fun x _ =>
      eval_shallower host limits body ([x] :: scopes))).of_activation

end unrolled

theorem not_tooDeep {r : Ran (Event ε) (Machine σ) (EvalError ε) α} {o : Outcome (EvalError ε) α}
    (ho : r.outcome = o) (h : ∀ depth, o ≠ .error (.limit (.stackOverflow depth limits.maxDepth))) :
    ¬TooDeep limits r := by
  rintro ⟨⟨depth, _, hdeep⟩, _⟩
  exact h depth (ho.symm.trans hdeep)

/-- Two steps that both do what a third one does. -/
theorem Shallower.sameToHost {x₁ x₂ x : Step σ ε α} {m : Machine σ}
    (h₁ : Shallower limits x₁ x) (h₂ : Shallower limits x₂ x)
    (hdeep₁ : ¬TooDeep limits (x₁ m)) (hdeep₂ : ¬TooDeep limits (x₂ m)) :
    SameToHost (x₁ m) (x₂ m) :=
  (h₁.same m m rfl (Nat.le_refl _) hdeep₁).trans (h₂.same m m rfl (Nat.le_refl _) hdeep₂).symm

/-- Without a limit on elements, a `REDUCE` over a list of scalars does what the applications of
    its body inside each other do, and a `MAP` what a `LIST` of applications does: same outcome,
    same requests in the same order and same state of the host, unless one of the two goes too
    deep. -/
theorem loops_unroll (host : Host σ ε) (hiter : limits.maxIterations = none)
    (body start : Value) {xs : List Value} (hxs : ∀ x ∈ xs, x.IsScalar) (scopes : Scopes)
    (m : Machine σ) :
    let reduced := eval host limits (.reduce body start (.list xs)) scopes m
    let applied := eval host limits (.applied body start xs) scopes m
    let mapped := evalList host limits (.map body (.list xs)) scopes m
    let listed := evalList host limits (.list (xs.map fun x => .apply body [x])) scopes m
    (¬TooDeep limits reduced → ¬TooDeep limits applied → SameToHost reduced applied) ∧
    (¬TooDeep limits mapped → ¬TooDeep limits listed → SameToHost mapped listed) := by
  intro reduced applied mapped listed
  -- Both sides start no higher than the loop that they are compared with.
  constructor
  · exact (reduce_shallower host limits scopes hiter body start hxs).sameToHost
      (applied_shallower host limits scopes body start hxs)
  · exact (map_shallower host limits scopes hiter body hxs).sameToHost
      (applications_shallower host limits scopes body hxs)

/-- The body binds a parameter for the first element.  For the second one it has no value as a
    `REDUCE`, and as a `MAP` under a scope it compares what is bound by then. -/
theorem loops_unroll_binding :
    let host := Memory.host ⟨[], [], {}⟩
    let body : Value := .node .and [.arg 1, .node .equal [.param 0, .arg 0]]
    let xs : List Value := [.bool true, .nil]
    let m : Machine Memory.State := ⟨0, .fresh [none]⟩
    let applied := eval host {} (.applied body (.uint 7) xs) [[.bool true]] m
    let listed := evalList host {} (.list (xs.map fun x => .apply body [x])) [[.bool true]] m
    Value.applied body (.uint 7) xs = .apply body [.apply body [.uint 7, .bool true], .nil] ∧
      applied.outcome = .error (.typeMismatch .and .bool .nil) ∧
      applied.state.host.bindings = [(0, .uint 7)] ∧
      listed.outcome = .ok [.bool true, .bool false] ∧
      listed.state.host.bindings = [(0, .bool true)] := by
  intro host body xs m applied listed
  -- Each run has a name of its own here, so that it is evaluated once for all of its parts.
  have hreduced : let r := eval host {} (.reduce body (.uint 7) (.list xs)) [[.bool true]] m
      (r.outcome, r.state.host.bindings) =
        (.error (.typeMismatch .and .bool .nil), [(0, .uint 7)]) := by cbv
  have happlied : let r := eval host {} (.applied body (.uint 7) xs) [[.bool true]] m
      r.outcome = .error (.typeMismatch .and .bool .nil) := by cbv
  have hmapped : let r := evalList host {} (.map body (.list xs)) [[.bool true]] m
      (r.outcome, r.state.host.bindings) =
        (.ok [.bool true, .bool false], [(0, .bool true)]) := by cbv
  have hlisted :
      let r := evalList host {} (.list (xs.map fun x => .apply body [x])) [[.bool true]] m
      r.outcome = .ok [.bool true, .bool false] := by cbv
  obtain ⟨hreduceOutcome, hreduceBound⟩ := Prod.mk.inj hreduced
  obtain ⟨hmapOutcome, hmapBound⟩ := Prod.mk.inj hmapped
  have hxs : ∀ x ∈ xs, x.IsScalar := by
    intro x hx
    rcases List.mem_pair.mp hx with rfl | rfl
    · trivial
    · trivial
  have hiter : Limits.maxIterations {} = none := rfl
  obtain ⟨hreduce, hmap⟩ := loops_unroll host hiter body (.uint 7) hxs [[.bool true]] m
  have hsame := hreduce (not_tooDeep hreduceOutcome (by simp)) (not_tooDeep happlied (by simp))
  have hsameList := hmap (not_tooDeep hmapOutcome (by simp)) (not_tooDeep hlisted (by simp))
  refine ⟨rfl, happlied, ?_, hlisted, ?_⟩
  · rw [← hsame.host]
    exact hreduceBound
  · rw [← hsameList.host]
    exact hmapBound

end Evaluator

end CellQuery
