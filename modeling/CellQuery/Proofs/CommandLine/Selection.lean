import CellQuery.CommandLine
import CellQuery.Proofs.Json.Spacing
import CellQuery.Proofs.Root.Independence
import Mathlib.Logic.Basic

/-! # Selecting a call on the command line

    A run without a selection evaluates all calls of the fixture, one with a selection leaves
    some of them out.  The calls share a host, so what is left out could be missed;
    it is not where every parameter has a value.

    * `callResults` are the results of the calls that are evaluated.
    * `respond_of_select` and `respond_of_refusal` say what the program does, given whether there
      are calls to evaluate.
    * `callResults_of_select`: the results of a selection are selected from those of all calls. -/

namespace CellQuery.CommandLine

open Json

/-! ## Results -/

/-- The results of the calls of a root with the data of a fixture. -/
def callResults (limits : Limits) (fixture : Fixture) (root : Root) :
    List (CallResult Memory.Error) :=
  (root.run (Memory.host (fixture.data limits)) limits [] fixture.state).1

/-- The line that is printed for a call that has a value, or has failed. -/
inductive Printed : CallResult Memory.Error → String → Prop where
  | value (name : String) (v : Value) : Printed ⟨name, .ok v⟩ (name ++ " = " ++ v.text ++ "\n")
  | failure (name : String) (e : EvalError Memory.Error) :
      Printed ⟨name, .error e⟩ (name ++ " failed\n")

section results
variable {limits : Limits} {fixture : Fixture} {root : Root}

/-- Each result is that of a call, with a new evaluator, on some state of the host. -/
theorem callResults_getElem? (i : Nat) : (callResults limits fixture root)[i]? =
    root.calls[i]?.map (Call.alone (Memory.host (fixture.data limits)) limits []
      (Root.hostAfter (Memory.host (fixture.data limits)) limits [] (root.calls.take i)
        fixture.state)) :=
  Root.runCalls_getElem? _ _ _ _ _ i

theorem names_callResults :
    (callResults limits fixture root).map (·.name) = root.calls.map (·.name) := by
  apply List.ext_getElem?
  intro i
  rw [List.getElem?_map, callResults_getElem?, List.getElem?_map, Option.map_map]
  rfl

/-- Every call that is evaluated ends with a value or an error. -/
theorem ok_or_error_of_mem_callResults {result : CallResult Memory.Error}
    (h : result ∈ callResults limits fixture root) :
    (∃ v, result.result = .ok v) ∨ ∃ e, result.result = .error e := by
  obtain ⟨i, hi⟩ := List.mem_iff_getElem?.mp h
  rw [callResults_getElem?] at hi
  obtain ⟨call, _, rfl⟩ := Option.map_eq_some_iff.mp hi
  exact (Memory.eval_safe _ _ _ _ _).ok_or_error

theorem printed_of_mem_callResults {result : CallResult Memory.Error}
    (h : result ∈ callResults limits fixture root) : Printed result (resultLine result) := by
  obtain ⟨name, outcome⟩ := result
  rcases ok_or_error_of_mem_callResults h with ⟨v, rfl⟩ | ⟨e, rfl⟩
  · exact .value name v
  · exact .failure name e

end results

/-! ## Responses -/

/-- What is printed for the calls of a root that have the given results. -/
def shown (options : Options) (root : Root) (results : List (CallResult Memory.Error)) : String :=
  (if options.debugAst then String.join (root.calls.map debugText) else "")
    ++ String.join (results.map resultLine)

section responses
variable (options : Options) {text : String} {fixture : Fixture}

/-- There are calls to evaluate. -/
theorem respond_of_select (hfixture : Fixture.decodeJson text = .ok fixture) {root : Root}
    (hselect : selectCalls fixture.root options.call = .ok root) :
    let evaluated := callResults options.limits fixture root
    respond options text =
      ⟨shown options root evaluated, String.join (evaluated.map resultReport), none,
        if evaluated.all succeeded then 0 else 1⟩ := by
  have hevaluate : evaluate options text =
      .ok ⟨shown options root (callResults options.limits fixture root),
        String.join ((callResults options.limits fixture root).map resultReport),
        (callResults options.limits fixture root).all succeeded⟩ := by
    simp only [evaluate, hfixture, hselect]
    rfl
  simp only [respond, hevaluate]

/-- There are none. -/
theorem respond_of_refusal (hfixture : Fixture.decodeJson text = .ok fixture) {failure : Failure}
    (hselect : selectCalls fixture.root options.call = .error failure) :
    respond options text = ⟨"", "", some failure, 1⟩ := by
  have hevaluate : evaluate options text = .error failure := by
    simp only [evaluate, hfixture, hselect]
    rfl
  simp only [respond, hevaluate]

end responses

/-! ## Selections -/

theorem selectCalls_of_mem {root : Root} {name : String}
    (h : ∃ call ∈ root.calls, call.name = name) :
    selectCalls root (some name) = .ok (root.select name) := by
  obtain ⟨call, hcall, hname⟩ := h
  have hne : (root.select name).calls ≠ [] :=
    List.ne_nil_of_mem (List.mem_filter.mpr ⟨hcall, by simp [hname]⟩)
  simp [selectCalls, hne]

theorem selectCalls_of_not_mem {root : Root} {name : String}
    (h : ∀ call ∈ root.calls, call.name ≠ name) :
    selectCalls root (some name) = .error (.noSuchCall name) := by
  have hnone : (root.select name).calls = [] :=
    List.filter_eq_nil_iff.mpr fun call hcall => by simp [h call hcall]
  simp [selectCalls, hnone]

/-- Where all parameters have values, the calls that are left out are not missed. -/
theorem callResults_of_select {limits : Limits} {fixture : Fixture} {name : String}
    (hparams : ∀ param ∈ fixture.params, param ≠ none) :
    callResults limits fixture (fixture.root.select name) =
      (callResults limits fixture fixture.root).filter (·.name = name) := by
  have hbound : ∀ slot ∈ fixture.state.slots, slot ≠ .unbound := by
    intro slot hslot
    obtain ⟨param, hparam, rfl⟩ := List.mem_map.mp hslot
    cases param with
    | none => exact absurd rfl (hparams none hparam)
    | some v => nofun
  simp only [callResults, Root.run_of_bound _ hbound, Root.select, List.filter_map]
  rfl

/-- The status tells whether all calls have values, given that each has a value or an error. -/
theorem status_eq {evaluated : List (CallResult Memory.Error)}
    (h : ∀ result ∈ evaluated, (∃ v, result.result = .ok v) ∨ ∃ e, result.result = .error e) :
    let status : UInt32 := if evaluated.all succeeded then 0 else 1
    (status = 0 ↔ ∀ result ∈ evaluated, ∃ v, result.result = .ok v) ∧
      (status = 1 ↔ ∃ result ∈ evaluated, ∃ e, result.result = .error e) := by
  have hsucceeded : ∀ result : CallResult Memory.Error,
      succeeded result = true ↔ ∃ v, result.result = .ok v := by
    rintro ⟨name, outcome⟩
    cases outcome <;> simp [succeeded]
  by_cases hall : ∀ result ∈ evaluated, ∃ v, result.result = .ok v
  · have hstatus : evaluated.all succeeded = true :=
      List.all_eq_true.mpr fun result hresult => (hsucceeded result).mpr (hall result hresult)
    have hnone : ¬∃ result ∈ evaluated, ∃ e, result.result = .error e := by
      rintro ⟨result, hresult, e, he⟩
      obtain ⟨v, hv⟩ := hall result hresult
      rw [hv] at he
      cases he
    simpa [hstatus, hnone] using hall
  · have hstatus : ¬evaluated.all succeeded = true := fun hsome =>
      hall fun result hresult => (hsucceeded result).mp (List.all_eq_true.mp hsome result hresult)
    obtain ⟨result, hresult, hvalue⟩ := by simpa only [not_forall] using hall
    have herror := (h result hresult).resolve_left hvalue
    have hsome : ∃ result ∈ evaluated, ∃ e, result.result = .error e := ⟨result, hresult, herror⟩
    simp [hstatus, hall, hsome]

/-- A selection on the command line changes nothing but the selection.

    * Without the option that shows expressions, a line is printed for each call that is
      evaluated, in order: `NAME = VALUE` or `NAME failed`.  The status is 0 if none of them
      failed, else 1.
    * If every parameter of the fixture has a value, a run with the name of a call prints for
      the calls with that name what the run without it prints for them, and reports the same
      errors.
    * With a name that no call has, nothing is printed for any call, and the run fails. -/
theorem selection_only_selects (text : String) (fixture : Fixture)
    (hfixture : Fixture.decodeJson text = .ok fixture) (options : Options) :
    (∀ root, selectCalls fixture.root options.call = .ok root → options.debugAst = false →
      let evaluated := callResults options.limits fixture root
      let response := respond options text
      evaluated.map (·.name) = root.calls.map (·.name) ∧
      (∀ result ∈ evaluated, Printed result (resultLine result)) ∧
      response.stdout = String.join (evaluated.map resultLine) ∧
      (response.status = 0 ↔ ∀ result ∈ evaluated, ∃ v, result.result = .ok v) ∧
      (response.status = 1 ↔ ∃ result ∈ evaluated, ∃ e, result.result = .error e)) ∧
    ((∀ param ∈ fixture.params, param ≠ none) →
      ∀ name, (∃ call ∈ fixture.root.calls, call.name = name) →
      let evaluated := callResults options.limits fixture fixture.root
      let selected := evaluated.filter (·.name = name)
      let all := respond { options with call := none } text
      let only := respond { options with call := some name } text
      all.stdout = shown options fixture.root evaluated ∧
      only.stdout = shown options (fixture.root.select name) selected ∧
      all.reports = String.join (evaluated.map resultReport) ∧
      only.reports = String.join (selected.map resultReport)) ∧
    ∀ name, (∀ call ∈ fixture.root.calls, call.name ≠ name) →
      respond { options with call := some name } text =
        ⟨"", "", some (.noSuchCall name), 1⟩ := by
  refine ⟨fun root hselect hdebug => ?_, fun hparams name hname => ?_, fun name hname => ?_⟩
  · have hrespond := respond_of_select options hfixture hselect
    have hends : ∀ result ∈ callResults options.limits fixture root,
        (∃ v, result.result = .ok v) ∨ ∃ e, result.result = .error e :=
      fun _ => ok_or_error_of_mem_callResults
    have hstatus := status_eq hends
    simp only [hrespond]
    refine ⟨names_callResults, fun _ => printed_of_mem_callResults, ?_, hstatus⟩
    simp [shown, hdebug]
  · have hall := respond_of_select { options with call := none } hfixture rfl
    have honly := respond_of_select { options with call := some name } hfixture
      (selectCalls_of_mem hname)
    simp only [callResults_of_select hparams] at honly
    simp only [hall, honly]
    exact ⟨rfl, rfl, trivial, trivial⟩
  · exact respond_of_refusal { options with call := some name } hfixture
      (selectCalls_of_not_mem hname)

/-- A name that two calls have, one of which fails. -/
theorem selection_only_selects_repeated :
    let text := "[[],[[\"NIL\"]],[],[[[\"a\",[\"AND\"]],[\"b\",[\"NIL\"]],[\"a\",[\"NIL\"]]]]]"
    let fixture : Fixture :=
      ⟨[], [some .nil], [], ⟨[⟨"a", .node .and []⟩, ⟨"b", .nil⟩, ⟨"a", .nil⟩]⟩⟩
    let run (call : Option String) := respond ⟨"-", call, {}, false⟩ text
    Fixture.decodeJson text = .ok fixture ∧
      (run none).stdout = "a failed\nb = NIL\na = NIL\n" ∧ (run none).status = 1 ∧
      (run (some "a")).stdout = "a failed\na = NIL\n" ∧ (run (some "c")).stdout = "" := by
  intro text fixture run
  have hfixture : Fixture.decodeJson text = .ok fixture := by
    let call (name tag : String) : Doc := .array [.atom (.text name), .array [.atom (.text tag)]]
    let d : Doc := .array [.array [], .array [.array [.atom (.text "NIL")]], .array [],
      .array [.array [call "a" "AND", call "b" "NIL", call "a" "NIL"]]]
    have hchars : text.toList = d.compact := by decide +kernel
    rw [Fixture.decodeJson, Json.decode, hchars, d.ofText_compact]
    rfl
  have hresults : callResults {} fixture fixture.root =
      [⟨"a", .error (.arity .and (.atLeast 1) 0)⟩, ⟨"b", .ok .nil⟩, ⟨"a", .ok .nil⟩] := by
    rfl
  have hparams : ∀ param ∈ fixture.params, param ≠ none := by simp [fixture]
  have hcall : ∃ call ∈ fixture.root.calls, call.name = "a" :=
    ⟨⟨"a", .nil⟩, by simp [fixture], rfl⟩
  have hnone : ∀ call ∈ fixture.root.calls, call.name ≠ "c" := by simp [fixture]
  obtain ⟨hlines, hselect, hmissing⟩ :=
    selection_only_selects text fixture hfixture ⟨"-", none, {}, false⟩
  obtain ⟨hall, honly, _, _⟩ := hselect hparams "a" hcall
  obtain ⟨_, _, _, _, hstatus⟩ := hlines fixture.root rfl rfl
  rw [hresults] at hall honly hstatus
  refine ⟨hfixture, hall.trans (by decide), ?_, honly.trans (by decide), ?_⟩
  · exact hstatus.mpr ⟨_, List.mem_cons_self, _, rfl⟩
  · exact congrArg Response.stdout (hmissing "c" hnone)

end CellQuery.CommandLine
