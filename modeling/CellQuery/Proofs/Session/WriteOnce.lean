import CellQuery.Proofs.Host.Growth
import CellQuery.Session

/-! # Bindings are written once

    An evaluation adds to what has been solved and takes nothing away: that is `Memory.Grows`.
    It only remains to follow a session from step to step.  Unless it is asked to forget
    what has been solved, its host grows, and a parameter that has a value keeps it. -/

namespace CellQuery

open Evaluator Memory

/-! ## Sessions -/

theorem Root.runCalls_grows (data : Data) (limits : Limits) (scopes : Scopes)
    (calls : List Call) (m : Machine State) :
    m.host.GrowsTo (runCalls (host data) limits scopes calls m).2.host := by
  induction calls generalizing m with
  | nil => exact .refl m.host
  | cons call calls ih =>
    have hcall := eval_grows_solutions data limits call.result scopes m
    exact (hcall.imp fun _ _ => trivial).trans (ih _)

namespace Session

/-- The session after the given steps. -/
def after (data : Data) (s : Session) (steps : List Step) : Session :=
  steps.foldl (fun s first => (step data s first).2) s

/-- Steps that follow others are answered by the session after those. -/
theorem run_append (data : Data) (s : Session) (steps steps' : List Step) :
    run data s (steps ++ steps') = run data s steps ++ run data (after data s steps) steps' := by
  induction steps generalizing s with
  | nil => rfl
  | cons first steps ih =>
    show _ :: run data _ (steps ++ steps') = _ :: (run data _ steps ++ _)
    rw [ih]
    rfl

/-- One step: nothing that has been solved is lost, unless that is what the step is for. -/
theorem step_grows (data : Data) (s : Session) (first : Step) (hreset : first.request ≠ .reset) :
    s.host.GrowsTo (step data s first).2.host := by
  obtain ⟨request, scopes, limits⟩ := first
  cases request with
  | eval e => exact (eval_grows_solutions data limits e scopes s).imp fun _ _ => trivial
  | evalList e => exact (evalList_grows_solutions data limits e scopes s).imp fun _ _ => trivial
  | runRoot root =>
    -- The calls are run by an evaluator of their own, on the same host.
    exact Root.runCalls_grows data limits scopes root.calls ⟨0, s.host⟩
  | bind index v => exact grows_bind index trivial s.host
  | query q =>
    -- What the predicates solve is forgotten.
    show s.host.GrowsTo (answer data q s.host).state
    rw [answer_state]
    exact .refl s.host
  | reset => exact absurd rfl hreset
  | arg | param | bindings | cells => exact .refl s.host

/-- Many steps: the same. -/
theorem after_grows (data : Data) (s : Session) (steps : List Step)
    (hsteps : ∀ step ∈ steps, step.request ≠ .reset) :
    s.host.GrowsTo (after data s steps).host := by
  induction steps generalizing s with
  | nil => exact .refl s.host
  | cons first steps ih =>
    obtain ⟨hfirst, hrest⟩ := List.forall_mem_cons.mp hsteps
    exact (step_grows data s first hfirst).trans (ih _ hrest)

/-- A parameter that has a value, or is not declared, stays as it is. -/
theorem param_after (data : Data) (s : Session) (steps : List Step)
    (hsteps : ∀ step ∈ steps, step.request ≠ .reset) {i : Nat}
    (hne : s.host.slots[i]? ≠ some .unbound) :
    param i (after data s steps).host = param i s.host := by
  unfold param
  rw [(after_grows data s steps hsteps).slot_of_ne hne]

/-- There is a step up to which the parameter has no value, and from which it is what it
    is in the end. -/
theorem param_changes_once (data : Data) (s : Session) (steps : List Step)
    (hsteps : ∀ step ∈ steps, step.request ≠ .reset) (i : Nat) :
    ∃ change,
      (∀ k < change, param i (after data s (steps.take k)).host = some (.param (.ofNat i))) ∧
      ∀ k, change ≤ k →
        param i (after data s (steps.take k)).host = param i (after data s steps).host := by
  induction steps generalizing s with
  | nil => exact ⟨0, nofun, fun k _ => by rw [List.take_nil]⟩
  | cons first steps ih =>
    by_cases hslot : s.host.slots[i]? = some .unbound
    · -- There is no value yet, so one step more goes by before the change.
      have hrest := (List.forall_mem_cons.mp hsteps).2
      obtain ⟨change, hbefore, hafter⟩ := ih (step data s first).2 hrest
      refine ⟨change + 1, fun k hk => ?_, fun k hk => ?_⟩
      · cases k with
        | zero =>
          show param i s.host = _
          simp [param, hslot, Slot.value?]
        | succ k => exact hbefore k (by omega)
      · cases k with
        | zero => omega
        | succ k => exact hafter k (by omega)
    · -- A parameter that has a value keeps it, and one that is not declared stays so.
      refine ⟨0, nofun, fun k _ => ?_⟩
      have htake : ∀ step ∈ (first :: steps).take k, step.request ≠ .reset :=
        fun step hstep => hsteps step (List.mem_of_mem_take hstep)
      rw [param_after data s _ htake hslot, param_after data s _ hsteps hslot]

/-- An evaluation, whether it succeeds or fails, keeps all bindings.  The new ones are for
    parameters that were declared without a value and had none, and are never to `NIL` or to
    a parameter; if every parameter was supplied the host stays as it is.  So unless
    a session is asked to forget what has been solved, a parameter changes at most once,
    from its placeholder to its final value. -/
theorem bindings_written_once (data : Data) (s : Session) :
    (∀ (limits : Limits) (e : Value) (scopes : Scopes) (t : State),
      t = (eval (host data) limits e scopes s).state.host ∨
        t = (evalList (host data) limits e scopes s).state.host →
      (∀ b ∈ s.host.bindings, b ∈ t.bindings) ∧
      (∀ b ∈ t.bindings, b ∉ s.host.bindings →
        s.host.slots[b.1]? = some .unbound ∧ b.2.isNil = false ∧ b.2.isParam = false) ∧
      ((∀ slot ∈ s.host.slots, ∃ v, slot = .supplied v) → t = s.host)) ∧
    ∀ steps : List Step, (∀ step ∈ steps, step.request ≠ .reset) →
      ∀ i, ∃ change,
        (∀ k < change, param i (after data s (steps.take k)).host = some (.param (.ofNat i))) ∧
        ∀ k, change ≤ k →
          param i (after data s (steps.take k)).host = param i (after data s steps).host := by
  refine ⟨fun limits e scopes t ht => ?_, param_changes_once data s⟩
  have hgrown : Grows Solution s.host t := by
    rcases ht with rfl | rfl
    · exact eval_grows_solutions data limits e scopes s
    · exact evalList_grows_solutions data limits e scopes s
  refine ⟨fun b hb => hgrown.mem_bindings hb, fun b hb hnew => hgrown.new_binding hb hnew,
    fun hsupplied => hgrown.eq_of_bound ?_⟩
  -- No parameter is left that could be solved.
  rintro slot hslot rfl
  obtain ⟨v, hv⟩ := hsupplied _ hslot
  cases hv

/-- An evaluation that fails has solved a parameter before; a request to solve it with
    another value is then a conflict.  Where the parameter was supplied nothing changes. -/
theorem bindings_written_once_failing :
    let data : Data := ⟨[], [], {}⟩
    let solve (n : UInt64) : Value := .node .equal [.param 0, .uint n]
    let e : Value := .node .and [solve 7, .uint 1]
    let steps : List Step := [⟨.eval e, [], {}⟩, ⟨.eval (solve 8), [], {}⟩]
    let s : Session := .new [none]
    let supplied : Session := .new [some (.uint 9)]
    (eval (host data) {} e [] s).state.host.bindings = [(0, .uint 7)] ∧
      s.host.slots[0]? = some .unbound ∧
      param 0 (after data s (steps.take 1)).host = some (.uint 7) ∧
      param 0 (after data s steps).host = some (.uint 7) ∧
      (evalList (host data) {} e [] supplied).state.host = supplied.host := by
  intro data solve e steps s supplied
  have hbindings : (eval (host data) {} e [] s).state.host.bindings = [(0, .uint 7)] := by cbv
  have hparam : param 0 (eval (host data) {} e [] s).state.host = some (.uint 7) := by cbv
  have hafter (first : Step) : after data s [first] = (step data s first).2 := rfl
  have hstep (e : Value) (scopes : Scopes) (limits : Limits) :
      (step data s ⟨.eval e, scopes, limits⟩).2 = (eval (host data) limits e scopes s).state := rfl
  have hfirst : param 0 (after data s (steps.take 1)).host = some (.uint 7) := by
    rw [show steps.take 1 = [⟨.eval e, [], {}⟩] from rfl, hafter, hstep, hparam]
  obtain ⟨hevals, hsteps⟩ := bindings_written_once data s
  obtain ⟨_, hnew, _⟩ := hevals {} e [] _ (.inl rfl)
  have hslot := (hnew (0, .uint 7) (by simp [hbindings]) List.not_mem_nil).1
  have hreset : ∀ step ∈ steps, step.request ≠ .reset := by simp [steps]
  obtain ⟨change, hbefore, hafter⟩ := hsteps steps hreset 0
  have hchange : change ≤ 1 := by
    by_contra hlate
    have hplaceholder := hbefore 1 (by omega)
    rw [hfirst] at hplaceholder
    cases hplaceholder
  have hlast : param 0 (after data s steps).host = some (.uint 7) := by
    rw [← hafter 1 hchange, hfirst]
  obtain ⟨_, _, hkept⟩ := (bindings_written_once data supplied).1 {} e [] _ (.inr rfl)
  have hsupplied : ∀ slot ∈ supplied.host.slots, ∃ v, slot = .supplied v := by
    intro slot hslot
    exact ⟨.uint 9, List.mem_singleton.mp hslot⟩
  exact ⟨hbindings, hslot, hfirst, hlast, hkept hsupplied⟩

end Session

end CellQuery
