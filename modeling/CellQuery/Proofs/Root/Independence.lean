import CellQuery.Proofs.Host.Growth
import CellQuery.Root.Run

/-! # Independent calls

    The calls of a root share an evaluator and a host.  Of the evaluator nothing is left
    over from one call to the next: its depth is given back by every call, however the call
    ends.  Of the host what has been solved is left over, and where every parameter has a
    value nothing can be solved.

    * `Call.alone` is the result of a call with a new evaluator.
    * `Root.hostAfter` is the state in which calls leave the host when each of them has a
      new evaluator.
    * `Root.runCalls_state` and `Root.runCalls_getElem?`: on any host, this is what the calls
      of a root do to the host, and each of them has its result alone in its turn.
    * `Root.calls_independent`: on a host in memory whose parameters all have values, a call
      has the same result in whatever place of whatever root. -/

namespace CellQuery

open Evaluator

section apart
variable {σ ε : Type} (host : Host σ ε) (limits : Limits) (scopes : Scopes)

/-- The result of a call that a new evaluator evaluates on the host in the given state. -/
def Call.alone (s : σ) (call : Call) : CallResult ε :=
  ⟨call.name, (eval host limits call.result scopes ⟨0, s⟩).outcome⟩

namespace Root

/-- The state of the host after calls that are evaluated one after another, each of them
    by a new evaluator. -/
def hostAfter (calls : List Call) (s : σ) : σ :=
  calls.foldl (fun s call => (eval host limits call.result scopes ⟨0, s⟩).state.host) s

/-- A call that is evaluated at rest leaves the evaluator at rest. -/
theorem state_of_call (call : Call) (s : σ) :
    (eval host limits call.result scopes ⟨0, s⟩).state =
      ⟨0, hostAfter host limits scopes [call] s⟩ := by
  have hsteady := steady_eval host limits call.result scopes
  calc (eval host limits call.result scopes ⟨0, s⟩).state
    _ = ⟨_, (eval host limits call.result scopes ⟨0, s⟩).state.host⟩ := rfl
    _ = ⟨0, hostAfter host limits scopes [call] s⟩ := by rw [hsteady.depth ⟨0, s⟩]; rfl

/-- The calls that share an evaluator do to the host what calls with new evaluators do. -/
theorem runCalls_state (calls : List Call) (s : σ) :
    (runCalls host limits scopes calls ⟨0, s⟩).2 = ⟨0, hostAfter host limits scopes calls s⟩ := by
  induction calls generalizing s with
  | nil => rfl
  | cons call calls ih =>
    show (runCalls host limits scopes calls _).2 = _
    rw [state_of_call, ih]
    rfl

/-- Each call has the result that it has alone on the host that the calls before it leave. -/
theorem runCalls_getElem? (calls : List Call) (s : σ) (i : Nat) :
    (runCalls host limits scopes calls ⟨0, s⟩).1[i]? =
      calls[i]?.map (Call.alone host limits scopes
        (hostAfter host limits scopes (calls.take i) s)) := by
  induction calls generalizing s i with
  | nil => rfl
  | cons call calls ih =>
    cases i with
    | zero => rfl
    | succ i =>
      show (runCalls host limits scopes calls _).1[i]? = _
      rw [state_of_call, ih]
      rfl

end Root

end apart

namespace Root

open Memory

variable {data : Data} {limits : Limits} {scopes : Scopes} {s : State}

/-! ## Hosts whose parameters all have values -/

theorem hostAfter_of_bound (calls : List Call) (hbound : ∀ slot ∈ s.slots, slot ≠ .unbound) :
    hostAfter (host data) limits scopes calls s = s := by
  induction calls with
  | nil => rfl
  | cons call calls ih =>
    have hcall := eval_state_of_bound (m := ⟨0, s⟩) data limits call.result scopes hbound
    unfold hostAfter at ih ⊢
    rw [List.foldl_cons, hcall, ih]

/-- No call sees the others. -/
theorem run_of_bound (root : Root) (hbound : ∀ slot ∈ s.slots, slot ≠ .unbound) :
    root.run (host data) limits scopes s =
      (root.calls.map (Call.alone (host data) limits scopes s), s) := by
  have hstate := runCalls_state (host data) limits scopes root.calls s
  have hresults : (runCalls (host data) limits scopes root.calls ⟨0, s⟩).1 =
      root.calls.map (Call.alone (host data) limits scopes s) := by
    apply List.ext_getElem?
    intro i
    rw [runCalls_getElem?, hostAfter_of_bound _ hbound, List.getElem?_map]
  simp only [run, hstate, hresults, hostAfter_of_bound _ hbound]

/-- Calls that are picked by their indices, in any order and any number of times. -/
def pick (root : Root) (indices : List Nat) : Root :=
  ⟨indices.filterMap (root.calls[·]?)⟩

/-- A root has one result for each call, in order and with its name: the one that the call has
    with a new evaluator on the host that the calls before it leave, whether they failed or not.
    If every parameter has a value the calls leave the host as it is; each has the result
    that it has alone, and calls that are picked from the root, in any order, some left out
    and some repeated, have their results picked alike. -/
theorem calls_independent (root : Root) (data : Data) (limits : Limits) (scopes : Scopes)
    (s : State) :
    let results := (root.run (host data) limits scopes s).1
    let last := (root.run (host data) limits scopes s).2
    (∀ i, results[i]? = root.calls[i]?.map (Call.alone (host data) limits scopes
      (hostAfter (host data) limits scopes (root.calls.take i) s))) ∧
    last = hostAfter (host data) limits scopes root.calls s ∧
    ((∀ slot ∈ s.slots, slot ≠ .unbound) →
      results = root.calls.map (Call.alone (host data) limits scopes s) ∧ last = s ∧
      ∀ indices, (root.pick indices).run (host data) limits scopes s =
        (indices.filterMap (results[·]?), s)) := by
  intro results last
  refine ⟨runCalls_getElem? (host data) limits scopes root.calls s, ?_, fun hbound => ?_⟩
  · exact congrArg Machine.host (runCalls_state (host data) limits scopes root.calls s)
  · have hrun : root.run (host data) limits scopes s =
        (root.calls.map (Call.alone (host data) limits scopes s), s) := run_of_bound root hbound
    have hresults : results = root.calls.map (Call.alone (host data) limits scopes s) :=
      congrArg Prod.fst hrun
    refine ⟨hresults, congrArg Prod.snd hrun, fun indices => ?_⟩
    rw [run_of_bound _ hbound, hresults, pick, List.map_filterMap]
    simp only [List.getElem?_map]

/-- Where the parameter is supplied, the last call is false in every place of a root.  Where it
    is not, that call solves the parameter if it is alone, and is false after the first. -/
theorem calls_independent_picked :
    let data : Data := ⟨[.uint 3], [], {}⟩
    let solve (n : UInt64) : Value := .node .equal [.param 0, .uint n]
    let root : Root := ⟨[⟨"first", solve 7⟩, ⟨"broken", .arg 1⟩, ⟨"last", solve 8⟩]⟩
    let supplied : State := .fresh [some (.uint 7)]
    let unbound : State := .fresh [none]
    let no : CallResult Memory.Error := ⟨"last", .ok (.bool false)⟩
    (root.pick [2, 0, 1, 2]).run (host data) {} [] supplied =
        ([no, ⟨"first", .ok (.bool true)⟩, ⟨"broken", .error (.lookup .arg 1)⟩, no], supplied) ∧
      Call.alone (host data) {} [] supplied ⟨"last", solve 8⟩ = no ∧
      (root.run (host data) {} [] unbound).1[2]? = some no ∧
      Call.alone (host data) {} [] unbound ⟨"last", solve 8⟩ = ⟨"last", .ok (.bool true)⟩ := by
  intro data solve root supplied unbound no
  have hbound : ∀ slot ∈ supplied.slots, slot ≠ .unbound := by
    intro slot hslot
    rw [List.mem_singleton.mp hslot]
    nofun
  obtain ⟨hall, _, hpicked⟩ :=
    (calls_independent root data {} [] supplied).2.2 hbound
  have hresults : root.calls.map (Call.alone (host data) {} [] supplied) =
      [⟨"first", .ok (.bool true)⟩, ⟨"broken", .error (.lookup .arg 1)⟩, no] := by
    cbv
  have hturn := (calls_independent root data {} [] unbound).1 2
  refine ⟨?_, by cbv, ?_, by cbv⟩
  · rw [hpicked, hall, hresults]
    rfl
  · rw [hturn]
    cbv

end Root

end CellQuery
