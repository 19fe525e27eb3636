import CellQuery.Host.Memory
import CellQuery.Proofs.Eval.Refusal

/-! # Arguments: what an evaluation can tell of its environment

    The arguments that an expression finds are those of the scopes around it, the innermost
    first, and after them those of the host.  Taken together they are the arguments of an
    environment, which is a host again (`Host.under`).

    * `Host.AgreeBelow` compares environments at the leading arguments.  A scope that is put
      before both moves their arguments along, so they agree at as many more as it has.
    * `Ran.Alike` compares runs that may have looked for their arguments in different
      places.
    * An expression that needs no more arguments than the environments agree at is evaluated
      alike in both.  `scopedFlow` says so of each part of an evaluation, with the number
      of arguments that is needed there. -/

namespace CellQuery

open Event

variable {σ τ ε ε' α β : Type}

/-! ## Environments -/

namespace Host

/-- The host with more arguments in front of its own. -/
def prepend (scope : List Value) (host : Host σ ε) : Host σ ε :=
  { host with
    arg := fun i s =>
      match scope[i]? with
      | some v => (some v, s)
      | none => host.arg (i - scope.length) s }

/-- The host as it is seen under scopes. -/
def under (host : Host σ ε) (scopes : Scopes) : Host σ ε :=
  scopes.foldr prepend host

theorem prepend_arg_of_lt {scope : List Value} {i : Nat} (h : i < scope.length)
    (host : Host σ ε) : (host.prepend scope).arg i = fun s => (some scope[i], s) := by
  funext s
  simp only [prepend, List.getElem?_eq_getElem h]

theorem prepend_arg_of_le {scope : List Value} {i : Nat} (h : scope.length ≤ i)
    (host : Host σ ε) : (host.prepend scope).arg i = host.arg (i - scope.length) := by
  funext s
  simp only [prepend, List.getElem?_eq_none h]

/-- The environments have the same leading arguments, as many as given, and differ in nothing
    but their arguments. -/
structure AgreeBelow (count : Nat) (env₁ env₂ : Host σ ε) : Prop where
  arg : ∀ i < count, env₁.arg i = env₂.arg i
  param : env₁.param = env₂.param
  bind : env₁.bind = env₂.bind
  query : env₁.query = env₂.query

variable {env₁ env₂ env₃ host₁ host₂ : Host σ ε} {count : Nat}

theorem AgreeBelow.symm (h : AgreeBelow count env₁ env₂) : AgreeBelow count env₂ env₁ :=
  ⟨fun i hi => (h.arg i hi).symm, h.param.symm, h.bind.symm, h.query.symm⟩

theorem AgreeBelow.trans (h₁₂ : AgreeBelow count env₁ env₂) (h₂₃ : AgreeBelow count env₂ env₃) :
    AgreeBelow count env₁ env₃ :=
  ⟨fun i hi => (h₁₂.arg i hi).trans (h₂₃.arg i hi), h₁₂.param.trans h₂₃.param,
    h₁₂.bind.trans h₂₃.bind, h₁₂.query.trans h₂₃.query⟩

theorem AgreeBelow.mono {fewer : Nat} (h : AgreeBelow count env₁ env₂) (hle : fewer ≤ count) :
    AgreeBelow fewer env₁ env₂ :=
  ⟨fun i hi => h.arg i (Nat.lt_of_lt_of_le hi hle), h.param, h.bind, h.query⟩

theorem AgreeBelow.prepend (h : AgreeBelow count env₁ env₂) (scope : List Value) :
    AgreeBelow (count + scope.length) (env₁.prepend scope) (env₂.prepend scope) := by
  refine ⟨fun i hi => ?_, h.param, h.bind, h.query⟩
  rcases Nat.lt_or_ge i scope.length with hlt | hge
  · rw [prepend_arg_of_lt hlt, prepend_arg_of_lt hlt]
  · rw [prepend_arg_of_le hge, prepend_arg_of_le hge]
    exact h.arg _ (by omega)

/-- Scopes change nothing but the arguments. -/
theorem under_agrees (host : Host σ ε) (scopes : Scopes) :
    AgreeBelow 0 (host.under scopes) host := by
  induction scopes with
  | nil => exact ⟨nofun, rfl, rfl, rfl⟩
  | cons scope scopes ih => exact ⟨nofun, ih.param, ih.bind, ih.query⟩

/-- Where no argument counts the scopes do not, either. -/
theorem agreeBelow_zero_under {scopes₁ scopes₂ : Scopes} :
    AgreeBelow 0 (host₁.under scopes₁) (host₂.under scopes₂) ↔ AgreeBelow 0 host₁ host₂ :=
  ⟨fun h => ((under_agrees host₁ scopes₁).symm.trans h).trans (under_agrees host₂ scopes₂),
    fun h => ((under_agrees host₁ scopes₁).trans h).trans (under_agrees host₂ scopes₂).symm⟩

end Host

open Host

/-! ## Runs in different environments -/

/-- The event is a request for an argument. -/
def Event.isArg : Event ε → Bool
  | arg _ => true
  | _ => false

/-- The requests that are made of the host, in order, but for those for arguments. -/
def callsOf (events : List (Event ε)) : List (Event ε) :=
  (requestsOf events).filter (!·.isArg)

@[simp]
theorem callsOf_append (xs ys : List (Event ε)) :
    callsOf (xs ++ ys) = callsOf xs ++ callsOf ys := by
  simp [callsOf]

@[simp]
theorem callsOf_activation (during : List (Event ε)) :
    callsOf [.activation during] = callsOf during := by
  simp [callsOf]

/-- The runs end alike, in the same state, and have made the same requests for anything but
    arguments, with the same answers. -/
structure Ran.Alike (r₁ r₂ : Ran (Event ε) τ ε' α) : Prop where
  outcome : r₁.outcome = r₂.outcome
  state : r₁.state = r₂.state
  calls : callsOf r₁.events = callsOf r₂.events

theorem Ran.Alike.refl (r : Ran (Event ε) τ ε' α) : r.Alike r :=
  ⟨rfl, rfl, rfl⟩

theorem Ran.Alike.symm {r₁ r₂ : Ran (Event ε) τ ε' α} (h : r₁.Alike r₂) : r₂.Alike r₁ :=
  ⟨h.outcome.symm, h.state.symm, h.calls.symm⟩

theorem Ran.Alike.trans {r₁ r₂ r₃ : Ran (Event ε) τ ε' α} (h₁₂ : r₁.Alike r₂)
    (h₂₃ : r₂.Alike r₃) : r₁.Alike r₃ :=
  ⟨h₁₂.outcome.trans h₂₃.outcome, h₁₂.state.trans h₂₃.state, h₁₂.calls.trans h₂₃.calls⟩

namespace Run

/-- From the same state the two runs go alike. -/
def Alike (x₁ x₂ : Run (Event ε) τ ε' α) : Prop :=
  ∀ s, (x₁ s).Alike (x₂ s)

theorem alike_of_eq {x₁ x₂ : Run (Event ε) τ ε' α} (h : x₁ = x₂) : Alike x₁ x₂ := by
  subst h
  exact fun s => .refl (x₁ s)

theorem alike_refl (x : Run (Event ε) τ ε' α) : Alike x x :=
  alike_of_eq rfl

theorem alike_bind {x₁ x₂ : Run (Event ε) τ ε' α} {f₁ f₂ : α → Run (Event ε) τ ε' β}
    (hx : Alike x₁ x₂) (hf : ∀ a, Alike (f₁ a) (f₂ a)) : Alike (x₁ >>= f₁) (x₂ >>= f₂) := by
  intro s
  obtain ⟨houtcome, hstate, hcalls⟩ := hx s
  cases h : (x₁ s).outcome with
  | ok a =>
    rw [bind_of_ok h, bind_of_ok (houtcome ▸ h), ← hstate]
    obtain ⟨houtcome, hstate, hrest⟩ := hf a (x₁ s).state
    exact ⟨houtcome, hstate, by simp only [callsOf_append, hcalls, hrest]⟩
  | error e =>
    rw [bind_of_error h, bind_of_error (houtcome ▸ h)]
    exact ⟨rfl, hstate, hcalls⟩
  | fault f =>
    rw [bind_of_fault h, bind_of_fault (houtcome ▸ h)]
    exact ⟨rfl, hstate, hcalls⟩

end Run

open Run

namespace Evaluator

/-! ## Parts of an evaluation -/

/-- What scopes do not hold is left to the host. -/
theorem find_under (host : Host σ ε) (scopes : Scopes) (i : Nat) :
    (∃ v, scopes.find i = (.ok (.bound v) : Outcome (EvalError ε) Scopes.Found) ∧
        (host.under scopes).arg i = fun s => (some v, s)) ∨
      ∃ j, scopes.find i = (.ok (.outside j) : Outcome (EvalError ε) Scopes.Found) ∧
        (host.under scopes).arg i = host.arg j := by
  induction scopes generalizing i with
  | nil => exact .inr ⟨i, rfl, rfl⟩
  | cons scope scopes ih =>
    have hunder : host.under (scope :: scopes) = (host.under scopes).prepend scope := rfl
    rw [hunder]
    rcases Nat.lt_or_ge i scope.length with hlt | hge
    · refine .inl ⟨scope[i], ?_, prepend_arg_of_lt hlt _⟩
      simp only [Scopes.find, List.getElem?_eq_getElem hlt]
    · rw [prepend_arg_of_le hge]
      simp only [Scopes.find, List.getElem?_eq_none hge, minus?, hge, if_true]
      exact ih (i - scope.length)

/-- Takes the answer of an environment for the value of an argument. -/
def readArg (answer : σ → Option Value × σ) (i : UInt64) : Step σ ε Value := fun m =>
  let (v, s) := answer m.host
  found .arg i v { m with host := s }

/-- To look an argument up under scopes is to read it in the environment that these make of
    the host. -/
theorem alike_lookupArg_under (host : Host σ ε) (i : UInt64) (scopes : Scopes) :
    Alike (lookupArg host i scopes) (readArg ((host.under scopes).arg i.toNat) i) := by
  intro m
  unfold lookupArg
  rcases find_under host scopes i.toNat with ⟨v, hfind, harg⟩ | ⟨j, hfind, harg⟩
  · rw [hfind, harg]
    exact .refl _
  · rw [hfind, harg]
    -- That the host is asked does not count, only what it answers.
    have hask : (askArg host j m).outcome = .ok (host.arg j m.host).1 := rfl
    show ((askArg host j >>= found .arg i) m).Alike _
    rw [bind_of_ok hask]
    exact ⟨rfl, rfl, rfl⟩

variable {host₁ host₂ : Host σ ε}

theorem alike_lookupArg {i : UInt64} {scopes₁ scopes₂ : Scopes}
    (h : (host₁.under scopes₁).arg i.toNat = (host₂.under scopes₂).arg i.toNat) :
    Alike (lookupArg host₁ i scopes₁) (lookupArg host₂ i scopes₂) := by
  intro m
  have h₂ := alike_lookupArg_under host₂ i scopes₂ m
  rw [← h] at h₂
  exact (alike_lookupArg_under host₁ i scopes₁ m).trans h₂.symm

theorem alike_activation (limits : Limits) {x₁ x₂ : Step σ ε α} (hx : Alike x₁ x₂) :
    Alike (activation limits x₁) (activation limits x₂) := by
  intro m
  obtain ⟨houtcome, hstate, hcalls⟩ := hx { m with depth := m.depth + 1 }
  unfold activation
  split
  · exact .refl _
  · simp only [← houtcome, ← hstate]
    split
    · exact ⟨rfl, rfl, by simpa using hcalls⟩
    · exact ⟨rfl, rfl, by simpa using hcalls⟩

/-! ## Evaluations -/

/-- Evaluations in environments that agree at the arguments which the expression needs. -/
def scopedFlow (h : AgreeBelow 0 host₁ host₂) (limits : Limits) :
    Flow host₁ limits host₂ limits where
  covers _ := True
  scopes e s₁ s₂ := AgreeBelow e.need (host₁.under s₁) (host₂.under s₂)
  good _ := True
  inside _ _ _ x₁ x₂ := Alike x₁ x₂
  whole _ _ _ x₁ x₂ := Alike x₁ x₂
  covers_child _ _ := trivial
  good_scalar _ := trivial
  good_field _ _ := trivial
  good_primitive _ _ := trivial
  operand hs hc := hs.mono (Value.need_operand_le hc)
  body {_} {_} {_} {_} {scope} hs hb _ := (hs.prepend scope).mono (Value.need_body_le hb)
  lift _ _ _ := alike_refl _
  bind hx hf := alike_bind hx fun a => hf a fun _ _ => trivial
  child _ _ hx := hx
  iterations _ _ := alike_refl _
  arg {i} _ _ _ hs := alike_lookupArg (hs.arg i.toNat (Nat.lt_succ_self _))
  param {i} _ := alike_of_eq (askParam_congr h.param i.toNat)
  binding n v _ _ _ _ _ := alike_of_eq (askBind_congr h.bind n v)
  query {e} _ _ := alike_of_eq (askQuery_congr h.query e)
  activation _ hx := alike_activation limits hx

/-- An evaluation depends on the arguments that the expression needs and on no others: in
    environments that agree at these it ends alike, with the same state of the host, and
    makes the same requests for parameters, bindings and queries.  A query needs none, so
    what it yields does not depend on the scopes around it at all. -/
theorem needed_arguments_suffice {e : Value} {scopes₁ scopes₂ : Scopes}
    (h : AgreeBelow e.need (host₁.under scopes₁) (host₂.under scopes₂)) (limits : Limits)
    (m : Machine σ) :
    (eval host₁ limits e scopes₁ m).Alike (eval host₂ limits e scopes₂ m) ∧
      (evalList host₁ limits e scopes₁ m).Alike (evalList host₂ limits e scopes₂ m) ∧
      ∀ q : Value, q.tag = .queryCells → ∀ around₁ around₂ : Scopes,
        (evalList host₁ limits q around₁ m).Alike (evalList host₂ limits q around₂ m) := by
  have hhosts : AgreeBelow 0 host₁ host₂ := agreeBelow_zero_under.mp (h.mono (Nat.zero_le _))
  refine ⟨(scopedFlow hhosts limits).eval trivial h m,
    (scopedFlow hhosts limits).evalList trivial h m, fun q hq around₁ around₂ => ?_⟩
  have haround : AgreeBelow q.need (host₁.under around₁) (host₂.under around₂) := by
    rw [Value.need_of_queryCells hq]
    exact agreeBelow_zero_under.mpr hhosts
  exact (scopedFlow hhosts limits).evalList trivial haround m

/-- A predicate and a body that read one argument more than they are given: the host has it in
    front in one evaluation, and a scope in the other.  Both times a parameter is bound to it
    and it is counted in for each cell.  The predicate of a query finds the argument of the
    host behind the cell, not that of the scope. -/
theorem needed_arguments_suffice_reduce :
    let host := Memory.host ⟨[.uint 2], [.uint 1, .uint 2], {}⟩
    let kept : Value := .filter (.node .equal [.arg 1, .param 0]) .queryAllCells
    let e : Value := .reduce (.node .plus [.node .plus [.arg 0, .arg 1], .arg 2]) (.uint 0) kept
    let q : Value := .queryCells (.node .equal [.arg 0, .arg 1])
    let scopes : Scopes := [[.uint 2, .uint 8], [.uint 9]]
    let m : Machine Memory.State := ⟨0, .fresh [none]⟩
    let r := eval host {} e scopes m
    e.need = 1 ∧ AgreeBelow e.need (host.under []) (host.under scopes) ∧
      r.outcome = .ok (.uint 7) ∧ r.state.host.bindings = [(0, .uint 2)] ∧
      callsOf r.events =
        [.query .queryAllCells [] none, .param 0, .bind 0 (.uint 2) none, .param 0] ∧
      (evalList host {} q [[.uint 1]] m).outcome = .ok [.uint 2] := by
  intro host kept e q scopes m r
  have hneed : e.need = 1 := by decide
  have hagree : AgreeBelow e.need (host.under []) (host.under scopes) := by
    refine ⟨fun i hi => ?_, rfl, rfl, rfl⟩
    obtain rfl : i = 0 := by omega
    rfl
  obtain ⟨hbare, _, hqueries⟩ := needed_arguments_suffice hagree {} m
  have houtcome : (eval host {} e [] m).outcome = .ok (.uint 7) := by cbv
  have hbindings : (eval host {} e [] m).state.host.bindings = [(0, .uint 2)] := by cbv
  have hcalls : callsOf (eval host {} e [] m).events =
      [.query .queryAllCells [] none, .param 0, .bind 0 (.uint 2) none, .param 0] := by cbv
  have hquery : (evalList host {} q [] m).outcome = .ok [.uint 2] := by cbv
  refine ⟨hneed, hagree, hbare.outcome ▸ houtcome, ?_, hbare.calls ▸ hcalls,
    (hqueries q rfl [] [[.uint 1]]).outcome ▸ hquery⟩
  rw [← hbare.state]
  exact hbindings

end Evaluator

end CellQuery
