import CellQuery.Proofs.Session.WriteOnce

/-! # Forgetting what has been solved

    Evaluations and queries change the depth of the evaluator, the charge of the host and what
    has been solved.  The first two are given back when a request has been dealt with,
    however it ends.  So what has been solved is all that one request leaves to the next, and a
    session that forgets it is as good as new.

    * `Memory.State.resetBindings` is what a host has left after it has forgotten; every
      request of an evaluation keeps it (`Memory.keeps_resetBindings`).
    * `Session.Renews` is the invariant of a session: no activation is live, and a reset
      would give the host back as it was built. -/

namespace CellQuery

open Evaluator Memory

/-! ## Hosts -/

namespace Memory

/-- A reset takes back what a request to bind has recorded. -/
theorem bind_resetBindings (index : Nat) (v : Value) (s : State) :
    (bind index v s).2.resetBindings = s.resetBindings := by
  rcases bind_changes index v s with hstate | ⟨hslot, hstate⟩
  · rw [hstate]
  · -- Only an unbound parameter takes the value, and a reset makes it unbound again.
    obtain ⟨hlt, hget⟩ := List.getElem?_eq_some_iff.mp hslot
    have hlt' : index < (s.slots.map Slot.reset).length := by simpa using hlt
    have hreset : (s.slots.map Slot.reset)[index] = .unbound := by
      rw [List.getElem_map, hget]
      rfl
    rw [hstate]
    simp only [State.resetBindings, State.withSolved, List.map_set, Slot.reset]
    rw [← hreset, List.set_getElem_self]

/-- No request leaves anything on the host that a reset does not forget. -/
theorem keeps_resetBindings (data : Data) : (host data).Keeps State.resetBindings where
  arg _ _ := rfl
  param _ _ := rfl
  bind := bind_resetBindings
  query q s := congrArg State.resetBindings (answer_state data q s)

/-- There is nothing to forget on a new host. -/
@[simp]
theorem resetBindings_fresh (params : List (Option Value)) :
    (State.fresh params).resetBindings = .fresh params := by
  have hslot : Slot.reset ∘ Slot.declared = Slot.declared := by
    funext value
    cases value <;> rfl
  simp only [State.fresh, State.resetBindings, List.map_map, hslot]

end Memory

/-! ## Sessions -/

/-- The calls of a root give back what they take, whether they fail or not. -/
theorem Root.runCalls_steady {τ : Type} {data : Data} {f : State → τ} (h : (host data).Keeps f)
    (limits : Limits) (scopes : Scopes) (calls : List Call) (m : Machine State) :
    (runCalls (host data) limits scopes calls m).2.depth = m.depth ∧
      f (runCalls (host data) limits scopes calls m).2.host = f m.host := by
  induction calls generalizing m with
  | nil => exact ⟨rfl, rfl⟩
  | cons call calls ih =>
    have hcall : Steady f (eval (host data) limits call.result scopes) :=
      (steadyRules h limits).eval trivial scopes
    obtain ⟨hdepth, hhost⟩ := ih (eval (host data) limits call.result scopes m).state
    exact ⟨hdepth.trans (hcall.depth m), hhost.trans (hcall.host m)⟩

namespace Session

/-- The evaluator is at rest, and but for what has been solved the host is as it was built. -/
structure Renews (params : List (Option Value)) (s : Session) : Prop where
  depth : s.depth = 0
  host : s.host.resetBindings = .fresh params

variable {params : List (Option Value)} {s : Session}

theorem renews_new (params : List (Option Value)) : Renews params (new params) :=
  ⟨rfl, resetBindings_fresh params⟩

/-- One step that gives back what it takes. -/
theorem Renews.of_steady (h : Renews params s) {α : Type} {x : Evaluator.Step State Error α}
    (hx : Steady State.resetBindings x) : Renews params (x s).state :=
  ⟨(hx.depth s).trans h.depth, (hx.host s).trans h.host⟩

/-- No charge is left over: a reset would not take it off. -/
theorem Renews.charge (h : Renews params s) : s.host.charge = 0 :=
  congrArg State.charge h.host

/-- One step: whatever is asked, and whether it succeeds or fails. -/
theorem Renews.step (h : Renews params s) (data : Data) (first : Step) :
    Renews params (step data s first).2 := by
  obtain ⟨request, scopes, limits⟩ := first
  have hkeeps := keeps_resetBindings data
  cases request with
  | eval e => exact h.of_steady ((steadyRules hkeeps limits).eval trivial scopes)
  | evalList e => exact h.of_steady ((steadyRules hkeeps limits).evalList trivial scopes)
  | runRoot root =>
    -- The calls have an evaluator of their own, so the depth is not theirs to change.
    have hcalls := Root.runCalls_steady hkeeps limits scopes root.calls ⟨0, s.host⟩
    exact ⟨h.depth, hcalls.2.trans h.host⟩
  | bind index v => exact ⟨h.depth, (bind_resetBindings index v s.host).trans h.host⟩
  | query q => exact ⟨h.depth, (hkeeps.query q s.host).trans h.host⟩
  | reset =>
    -- Forgetting twice is forgetting once.
    have hhost : s.host.resetBindings.resetBindings = .fresh params := by
      rw [h.host, resetBindings_fresh]
    exact ⟨h.depth, hhost⟩
  | arg | param | bindings | cells => exact h

/-- Many steps: the same. -/
theorem Renews.after (h : Renews params s) (data : Data) (steps : List Step) :
    Renews params (after data s steps) := by
  induction steps generalizing s with
  | nil => exact h
  | cons first steps ih => exact ih (h.step data first)

/-- A session that has forgotten what was solved is a new one. -/
theorem Renews.step_reset (h : Renews params s) (data : Data) (scopes : Scopes)
    (limits : Limits) : (Session.step data s ⟨.reset, scopes, limits⟩).2 = new params := by
  show Machine.mk s.depth s.host.resetBindings = _
  rw [h.depth, h.host]
  rfl

/-- Whatever a session has been asked, and however that has ended: no activation is live after
    it and no charge is due, and once the session has forgotten what was solved it answers
    all that follows as a new session does, with the same bindings after each step. -/
theorem reset_renews (data : Data) (params : List (Option Value)) (steps : List Step) :
    (after data (new params) steps).depth = 0 ∧
      (after data (new params) steps).host.charge = 0 ∧
      ∀ (scopes : Scopes) (limits : Limits) (steps' : List Step),
        let reset : Step := ⟨.reset, scopes, limits⟩
        run data (new params) (steps ++ reset :: steps') =
          run data (new params) (steps ++ [reset]) ++ run data (new params) steps' := by
  have hsteps := (renews_new params).after data steps
  refine ⟨hsteps.depth, hsteps.charge, ?_⟩
  intro scopes limits steps' reset
  have hreset : after data (new params) (steps ++ [reset]) = new params := by
    rw [after, List.foldl_append]
    exact hsteps.step_reset data scopes limits
  rw [List.append_cons, run_append, hreset]

/-- A parameter is solved, then the predicate of a query within the predicate of a query hits
    the limit.  Forgetting brings the placeholder back, and the limit is not reached again. -/
example :
    let data : Data := ⟨[], [.uint 1], ⟨3, none⟩⟩
    let solve (v : Value) : Value := .node .equal [.param 0, v]
    let within (test : Value) : Value := .reduce (.bool true) .nil (.queryCells test)
    let steps : List Step :=
      [⟨.eval (solve (.uint 5)), [], {}⟩,
       ⟨.evalList (.queryCells (within (solve (.arg 0)))), [], {}⟩,
       ⟨.reset, [], {}⟩, ⟨.param 0, [], {}⟩,
       ⟨.evalList (.queryCells (within (.bool true))), [], {}⟩]
    let l : LimitExceeded := .stackOverflow 1 1
    run data (new [none]) steps =
      [(.value (.ok (.bool true)), [(0, .uint 5)]),
       (.list (.error (.limit l)), [(0, .uint 5)]),
       (.done, []), (.found (.ok (some (.param 0))), []), (.list (.ok [.uint 1]), [])] := by
  cbv

end Session

end CellQuery
