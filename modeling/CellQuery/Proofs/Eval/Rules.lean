import CellQuery.Proofs.Eval.Coupling
import CellQuery.Proofs.Run

/-! # Laws of a single evaluation

    `Rules` is the one-sided form of a coupling: a property of the steps of an
    evaluation that all its parts have.  The section on steady hosts is its first use:
    an evaluation leaves the number of live activations as it was, and leaves alone
    whatever its host leaves alone at each request.  With that an activation passes on the
    ending of what it does, so relations between the events of a step and its ending
    (`Evaluator.Ends`) are properties of this kind. -/

namespace CellQuery

namespace Evaluator

variable {σ ε τ : Type}

/-! ## Rules -/

/-- A property of the steps of an evaluation that all parts of an evaluation have. -/
structure Rules (host : Host σ ε) (limits : Limits) where
  /-- The expressions that the property is about. -/
  covers : Value → Prop
  /-- The property of steps within the activations of an expression. -/
  inside : Value → {α : Type} → Step σ ε α → Prop
  /-- The property of activations of an expression. -/
  whole : Value → {α : Type} → Step σ ε α → Prop
  covers_child : ∀ {e c : Value}, covers e → c ∈ e.children → covers c
  lift : ∀ {e : Value} {α : Type} {x : Outcome (EvalError ε) α}, covers e → x.Local →
    inside e (Run.lift x)
  bind : ∀ {e : Value} {α β : Type} {x : Step σ ε α} {f : α → Step σ ε β},
    inside e x → (∀ a, inside e (f a)) → inside e (x >>= f)
  child : ∀ {e c : Value} {α : Type} {x : Step σ ε α}, covers e → c ∈ e.children →
    whole c x → inside e x
  arg : ∀ {i : UInt64} (n : Nat), covers (.arg i) → inside (.arg i) (askArg host n)
  param : ∀ {i : UInt64}, covers (.param i) → inside (.param i) (askParam host i.toNat)
  binding : ∀ {e : Value} (i : Nat) (v : Value), covers e → e.tag = .equal →
    inside e (askBind host i v)
  query : ∀ {e : Value}, covers e → e.tag = .queryCells → inside e (askQuery host e)
  activation : ∀ {e : Value} {α : Type} {x : Step σ ε α}, covers e → inside e x →
    whole e (activation limits x)

/-- A loop may process as many elements as its limit says. -/
theorem iterationFault?_of_le {limits : Limits} {tag : Tag} {count : Nat}
    (h : ∀ most, limits.maxIterations = some most → count ≤ most) :
    limits.iterationFault? tag count = none := by
  unfold Limits.iterationFault?
  split
  · next most hmost => exact if_neg (Nat.not_lt.mpr (h most hmost))
  · rfl

theorem checkIterations_of_none {limits : Limits} {tag : Tag} {elements : List Value}
    (h : limits.iterationFault? tag elements.length = none) :
    (checkIterations limits tag elements : Step σ ε Unit) = Pure.pure () := by
  unfold checkIterations
  rw [h]
  rfl

/-- The check of a limit on elements is a local computation. -/
theorem checkIterations_eq_lift (limits : Limits) (tag : Tag) (elements : List Value) :
    ∃ x : Outcome (EvalError ε) Unit, x.Local ∧
      (checkIterations limits tag elements : Step σ ε Unit) = Run.lift x := by
  unfold checkIterations Limits.iterationFault?
  split
  · split
    · next most _ _ => exact ⟨.error (.limit (.iterations tag most)), trivial, rfl⟩
    · exact ⟨.ok (), trivial, rfl⟩
  · exact ⟨.ok (), trivial, rfl⟩

/-- A relation that is kept by what follows, and by requests for arguments, is kept when an
    argument is looked up. -/
theorem lookupArg_related {σ₁ σ₂ : Type} (host₁ : Host σ₁ ε) (host₂ : Host σ₂ ε)
    {R : {α : Type} → Step σ₁ ε α → Step σ₂ ε α → Prop}
    (hlift : ∀ {α : Type} {x : Outcome (EvalError ε) α}, x.Local → R (Run.lift x) (Run.lift x))
    (hbind : ∀ {α β : Type} {x₁ : Step σ₁ ε α} {x₂ : Step σ₂ ε α} {f₁ : α → Step σ₁ ε β}
      {f₂ : α → Step σ₂ ε β}, R x₁ x₂ → (∀ a, R (f₁ a) (f₂ a)) → R (x₁ >>= f₁) (x₂ >>= f₂))
    (hask : ∀ n, R (askArg host₁ n) (askArg host₂ n)) (i : UInt64) (scopes : Scopes) :
    R (lookupArg host₁ i scopes) (lookupArg host₂ i scopes) := by
  apply hbind (hlift (find_local scopes i.toNat))
  intro place
  cases place with
  | bound v => exact hlift (x := .ok v) trivial
  | outside n =>
    apply hbind (hask n)
    intro found
    cases found with
    | some v => exact hlift (x := .ok v) trivial
    | none => exact hlift (x := .error (.lookup .arg i)) trivial

namespace Rules

variable {host : Host σ ε} {limits : Limits} (R : Rules host limits) {e : Value}

theorem lookupArg_inside {i : UInt64} (he : R.covers (.arg i)) (scopes : Scopes) :
    R.inside (.arg i) (lookupArg host i scopes) :=
  lookupArg_related host host (R := fun x _ => R.inside (.arg i) x) (R.lift he) R.bind
    (fun n => R.arg n he) i scopes

/-- A property of single evaluations couples an evaluation with itself. -/
def toCoupling : Coupling host limits host limits where
  covers := R.covers
  -- The property is of steps under any scopes, so these are not compared.
  scopes _ _ := True
  inside e _ x _ := R.inside e x
  whole e _ x _ := R.whole e x
  covers_child := R.covers_child
  push _ _ := trivial
  lift := R.lift
  bind := R.bind
  child := R.child
  iterations {e} elements he := by
    obtain ⟨x, hx, heq⟩ := checkIterations_eq_lift limits e.tag elements
    rw [heq]
    exact R.lift he hx
  arg {_} {s₁} {_} he _ := R.lookupArg_inside he s₁
  param := R.param
  binding := R.binding
  query := R.query
  activation := R.activation

theorem eval (he : R.covers e) (scopes : Scopes) :
    R.whole e (Evaluator.eval host limits e scopes) :=
  R.toCoupling.eval he (show R.toCoupling.scopes scopes scopes from trivial)

theorem evalList (he : R.covers e) (scopes : Scopes) :
    R.whole e (Evaluator.evalList host limits e scopes) :=
  R.toCoupling.evalList he (show R.toCoupling.scopes scopes scopes from trivial)

end Rules

/-! ## Requests and checks

    A request depends on the part of the host that answers it, and a check on the limit that
    it is about. -/

section requests
variable {host₁ host₂ : Host σ ε}

theorem lookupArg_congr (h : host₁.arg = host₂.arg) (i : UInt64) (scopes : Scopes) :
    lookupArg host₁ i scopes = lookupArg host₂ i scopes := by
  unfold lookupArg askArg
  rw [h]

theorem askParam_congr (h : host₁.param = host₂.param) (i : Nat) :
    askParam host₁ i = askParam host₂ i := by
  unfold askParam
  rw [h]

theorem askBind_congr (h : host₁.bind = host₂.bind) (i : Nat) (v : Value) :
    askBind host₁ i v = askBind host₂ i v := by
  unfold askBind
  rw [h]

theorem askQuery_congr (h : host₁.query = host₂.query) (q : Value) :
    askQuery host₁ q = askQuery host₂ q := by
  unfold askQuery
  rw [h]

theorem checkIterations_congr {limits₁ limits₂ : Limits}
    (h : limits₁.maxIterations = limits₂.maxIterations) (tag : Tag) (elements : List Value) :
    (checkIterations limits₁ tag elements : Step σ ε Unit) =
      checkIterations limits₂ tag elements := by
  unfold checkIterations Limits.iterationFault?
  rw [h]

end requests

/-! ## Activations -/

/-- An activation is refused at the limit and changes nothing. -/
theorem activation_of_le {α : Type} {limits : Limits} {x : Step σ ε α} {m : Machine σ}
    (h : limits.maxDepth ≤ m.depth) :
    activation limits x m =
      ⟨.error (.limit (.stackOverflow m.depth limits.maxDepth)), m, []⟩ :=
  if_pos h

/-- Below the limit a step that leaves the depth as it was runs one level deeper. -/
theorem activation_of_lt {α : Type} {limits : Limits} {x : Step σ ε α} {m : Machine σ}
    (h : m.depth < limits.maxDepth)
    (hx : (x { m with depth := m.depth + 1 }).state.depth = m.depth + 1) :
    activation limits x m =
      let r := x { m with depth := m.depth + 1 }
      ⟨r.outcome, ⟨m.depth, r.state.host⟩, [.activation r.events]⟩ := by
  have hminus : minus? (m.depth + 1) 1 = some m.depth := by
    simp [minus?]
  simp only [activation, Nat.not_le.mpr h, if_false, hx, hminus]

/-- An activation has a value only if its step has. -/
theorem activation_eq_ok {α : Type} {limits : Limits} {x : Step σ ε α} {m : Machine σ} {a : α}
    (h : (activation limits x m).outcome = .ok a) :
    (x { m with depth := m.depth + 1 }).outcome = .ok a := by
  unfold activation at h
  split at h
  · cases h
  · simp only at h
    split at h
    · exact h
    · cases h

/-! ## Steady hosts -/

/-- The step leaves the depth, and what `f` sees of the host's state, as they were. -/
def Steady {α : Type} (f : σ → τ) (x : Step σ ε α) : Prop :=
  Run.Keeps (fun m => (m.depth, f m.host)) x

theorem Steady.depth {α : Type} {f : σ → τ} {x : Step σ ε α} (hx : Steady f x) (m : Machine σ) :
    (x m).state.depth = m.depth :=
  congrArg Prod.fst (hx m)

theorem Steady.host {α : Type} {f : σ → τ} {x : Step σ ε α} (hx : Steady f x) (m : Machine σ) :
    f (x m).state.host = f m.host :=
  congrArg Prod.snd (hx m)

theorem steady_activation {α : Type} {f : σ → τ} {x : Step σ ε α} (limits : Limits)
    (hx : Steady f x) : Steady f (activation limits x) := by
  intro m
  -- At the limit nothing runs; below it the depth goes up by one and down again.
  rcases Nat.lt_or_ge m.depth limits.maxDepth with hlt | hle
  · rw [activation_of_lt hlt (hx.depth _)]
    exact congrArg (Prod.mk m.depth) (hx.host _)
  · rw [activation_of_le hle]

/-- Below the limit an activation ends as its step does. -/
theorem Steady.activation_outcome {α : Type} {f : σ → τ} {x : Step σ ε α} {limits : Limits}
    (hx : Steady f x) {m : Machine σ} (h : m.depth < limits.maxDepth) :
    (activation limits x m).outcome = (x { m with depth := m.depth + 1 }).outcome := by
  rw [activation_of_lt h (hx.depth _)]

/-- The check of a limit on elements changes nothing. -/
theorem steady_checkIterations (limits : Limits) (f : σ → τ) (tag : Tag) (elements : List Value) :
    Steady f (checkIterations limits tag elements : Step σ ε Unit) := by
  obtain ⟨x, _, hlift⟩ := checkIterations_eq_lift limits tag elements
  rw [hlift]
  exact fun _ => rfl

end Evaluator

/-- What `f` sees of a host's state is the same after each request. -/
structure Host.Keeps {σ ε τ : Type} (host : Host σ ε) (f : σ → τ) : Prop where
  arg : ∀ n s, f (host.arg n s).2 = f s
  param : ∀ n s, f (host.param n s).2 = f s
  bind : ∀ n v s, f (host.bind n v s).2 = f s
  query : ∀ q s, f (host.query q s).state = f s

theorem keeps_nothing {σ ε : Type} (host : Host σ ε) : host.Keeps fun _ => () where
  arg _ _ := rfl
  param _ _ := rfl
  bind _ _ _ := rfl
  query _ _ := rfl

namespace Evaluator

variable {σ ε τ : Type} {host : Host σ ε} {f : σ → τ}

theorem steady_askBind (h : host.Keeps f) (n : Nat) (v : Value) :
    Steady f (askBind host n v) := by
  intro m
  have hbind := h.bind n v m.host
  unfold askBind
  split
  · next heq => exact congrArg (Prod.mk m.depth) (by simpa [heq] using hbind)
  · next heq => exact congrArg (Prod.mk m.depth) (by simpa [heq] using hbind)

/-- A request for a query ends as the query does. -/
theorem askQuery_outcome (host : Host σ ε) (q : Value) (m : Machine σ) :
    (askQuery host q m).outcome =
      (host.query q m.host).outcome.mapError Refusal.toEvalError := by
  unfold askQuery
  cases h : (host.query q m.host).outcome <;> simp only [h] <;> rfl

theorem askQuery_state (host : Host σ ε) (q : Value) (m : Machine σ) :
    (askQuery host q m).state = { m with host := (host.query q m.host).state } := by
  unfold askQuery
  cases h : (host.query q m.host).outcome <;> simp only [h]

theorem steady_askQuery (h : host.Keeps f) (q : Value) : Steady f (askQuery host q) := by
  intro m
  rw [askQuery_state]
  exact congrArg (Prod.mk m.depth) (h.query q m.host)

/-- What a request for a query adds to the events. -/
theorem askQuery_events (host : Host σ ε) (q : Value) (m : Machine σ) :
    ∃ refusal, (askQuery host q m).events = [.query q (host.query q m.host).events refusal] := by
  unfold askQuery
  simp only
  split
  · exact ⟨none, rfl⟩
  · next e _ => exact ⟨some e, rfl⟩
  · exact ⟨none, rfl⟩

/-- What a request for a binding adds to the events. -/
theorem askBind_events (host : Host σ ε) (i : Nat) (v : Value) (m : Machine σ) :
    ∃ refusal, (askBind host i v m).events = [.bind i v refusal] := by
  unfold askBind
  split
  · exact ⟨none, rfl⟩
  · next e _ _ => exact ⟨some e, rfl⟩

/-- Every evaluation by a host that keeps `f` is steady. -/
def steadyRules (h : host.Keeps f) (limits : Limits) : Rules host limits where
  covers _ := True
  inside _ _ x := Steady f x
  whole _ _ x := Steady f x
  covers_child _ _ := trivial
  lift _ _ _ := rfl
  bind := Run.keeps_bind
  child _ _ hx := hx
  arg n _ m := congrArg (Prod.mk m.depth) (h.arg n m.host)
  param _ m := congrArg (Prod.mk m.depth) (h.param _ m.host)
  binding n v _ _ := steady_askBind h n v
  query {e} _ _ := steady_askQuery h e
  activation _ hx := steady_activation limits hx

/-- An evaluation leaves the depth as it was. -/
theorem steady_eval (host : Host σ ε) (limits : Limits) (e : Value) (scopes : Scopes) :
    Steady (fun _ => ()) (eval host limits e scopes) :=
  (steadyRules (keeps_nothing host) limits).eval trivial scopes

theorem steady_evalList (host : Host σ ε) (limits : Limits) (e : Value) (scopes : Scopes) :
    Steady (fun _ => ()) (evalList host limits e scopes) :=
  (steadyRules (keeps_nothing host) limits).evalList trivial scopes

/-! ## Endings -/

/-- The step leaves the depth as it was, and its events and its ending are related. -/
def Ends {α : Type} (P : List (Event ε) → Outcome (EvalError ε) Unit → Prop) (x : Step σ ε α) :
    Prop :=
  Steady (fun _ => ()) x ∧ ∀ m, P (x m).events (x m).outcome.ending

section ends
variable {P : List (Event ε) → Outcome (EvalError ε) Unit → Prop} {α β : Type}

theorem ends_lift {x : Outcome (EvalError ε) α} (h : P [] x.ending) :
    Ends P (Run.lift x : Step σ ε α) :=
  ⟨fun _ => rfl, fun _ => h⟩

theorem ends_bind {x : Step σ ε α} {f : α → Step σ ε β}
    (happend : ∀ as bs o, P as (.ok ()) → P bs o → P (as ++ bs) o) (hx : Ends P x)
    (hf : ∀ a, Ends P (f a)) : Ends P (x >>= f) :=
  ⟨Run.keeps_bind hx.1 fun a => (hf a).1,
    fun m => Run.ends_bind happend (hx.2 m) fun a => (hf a).2 _⟩

theorem ends_activation {limits : Limits} {x : Step σ ε α}
    (hrefused : ∀ depth maxDepth, P [] (.error (.limit (.stackOverflow depth maxDepth))))
    (hduring : ∀ es o, P es o → P [.activation es] o) (hx : Ends P x) :
    Ends P (activation limits x) := by
  refine ⟨steady_activation limits hx.1, fun m => ?_⟩
  rcases Nat.lt_or_ge m.depth limits.maxDepth with hlt | hle
  · rw [activation_of_lt hlt (hx.1.depth _)]
    exact hduring _ _ (hx.2 _)
  · rw [activation_of_le hle]
    exact hrefused m.depth limits.maxDepth

theorem ends_askBind {n : Nat} {v : Value} (hgranted : P [.bind n v none] (.ok ()))
    (hrefused : ∀ r s, (host.bind n v s).1 = .error r →
      P [.bind n v (some r)] (.error r.toEvalError)) :
    Ends P (askBind host n v) := by
  refine ⟨steady_askBind (keeps_nothing host) n v, fun m => ?_⟩
  unfold askBind
  split
  · exact hgranted
  · next r s heq => exact hrefused r m.host (congrArg Prod.fst heq)

theorem ends_askQuery {q : Value}
    (h : ∀ s, P [.query q (host.query q s).events (host.query q s).outcome.error?]
      ((host.query q s).outcome.ending.mapError Refusal.toEvalError)) :
    Ends P (askQuery host q) := by
  refine ⟨steady_askQuery (keeps_nothing host) q, fun m => ?_⟩
  have hquery := h m.host
  unfold askQuery
  simp only
  split
  · next heq => rw [heq] at hquery; exact hquery
  · next heq => rw [heq] at hquery; exact hquery
  · next heq => rw [heq] at hquery; exact hquery

end ends

theorem askBind_avoids {bad : EvalError ε → Prop} {n : Nat} {v : Value} {m : Machine σ}
    (h : ∀ r, (host.bind n v m.host).1 = .error r → ¬bad r.toEvalError) :
    (askBind host n v m).outcome.Avoids bad := by
  unfold askBind
  split
  · trivial
  · next r _ heq => exact h r (congrArg Prod.fst heq)

theorem askQuery_avoids {bad : EvalError ε → Prop} {q : Value} {m : Machine σ} :
    (askQuery host q m).outcome.Avoids bad ↔
      (host.query q m.host).outcome.Avoids fun r => bad r.toEvalError := by
  rw [askQuery_outcome, Outcome.avoids_mapError]

/-- No evaluation ends with a fault if the host answers its queries without one. -/
def safeRules (host : Host σ ε) (limits : Limits) : Rules host limits where
  covers e := ∀ q ∈ e.subtrees, q.tag = .queryCells →
    ∀ s, (host.query q s).outcome.Avoids fun _ => False
  inside _ _ x := Steady (fun _ => ()) x ∧ ∀ m, (x m).outcome.Avoids fun _ => False
  whole _ _ x := Steady (fun _ => ()) x ∧ ∀ m, (x m).outcome.Avoids fun _ => False
  covers_child he hc q hq := he q (Value.mem_subtrees_of_child hc hq)
  lift {_ _ x} _ hx := by
    refine ⟨fun _ => rfl, fun m => ?_⟩
    cases x with
    | ok a => trivial
    | error e => exact not_false
    | fault f => exact hx
  bind hx hf :=
    ⟨Run.keeps_bind hx.1 fun a => (hf a).1,
      fun m => Run.avoids_bind (hx.2 m) fun a => (hf a).2 _⟩
  child _ _ hx := hx
  arg _ _ := ⟨fun _ => rfl, fun _ => trivial⟩
  param _ := ⟨fun _ => rfl, fun _ => trivial⟩
  binding n v _ _ :=
    ⟨steady_askBind (keeps_nothing host) n v, fun _ => askBind_avoids fun _ _ => not_false⟩
  query {e} he ht :=
    ⟨steady_askQuery (keeps_nothing host) e,
      fun m => askQuery_avoids.mpr (he e (Value.self_mem_subtrees e) ht m.host)⟩
  activation _ hx := by
    refine ⟨steady_activation limits hx.1, fun m => ?_⟩
    rcases Nat.lt_or_ge m.depth limits.maxDepth with hlt | hle
    · rw [activation_of_lt hlt (hx.1.depth _)]
      exact hx.2 _
    · rw [activation_of_le hle]
      exact not_false

end Evaluator

end CellQuery
