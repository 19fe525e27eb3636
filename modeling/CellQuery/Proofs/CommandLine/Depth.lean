import CellQuery.Proofs.CommandLine.Selection
import CellQuery.Proofs.Host.Pushdown
import CellQuery.Proofs.Session.Reset
import CellQuery.Proofs.Wire.Height

/-! # Depths that a fixture can ask for

    Two limits do not know each other: that on the nested containers of a text and that on the
    live activations of an evaluation.  What the first lets through is no higher than 62, so
    with room for 62 activations the second is never reached, neither by a call nor by a
    predicate that is evaluated for one. -/

namespace CellQuery

open Evaluator Json

/-- What every request keeps, calls that are evaluated one after another keep. -/
theorem Root.hostAfter_keeps {τ : Type} {data : Memory.Data} {f : Memory.State → τ}
    (h : (Memory.host data).Keeps f) (limits : Limits) (scopes : Scopes) (calls : List Call)
    (s : Memory.State) : f (hostAfter (Memory.host data) limits scopes calls s) = f s := by
  have hcalls := runCalls_steady h limits scopes calls ⟨0, s⟩
  rw [runCalls_state] at hcalls
  exact hcalls.2

/-- Under the limits of the host, an expression that is no higher than these overflows neither in the
    evaluator nor in a predicate. -/
theorem Memory.avoids_overflow_of_height {data : Data} {e : Value} {s : State}
    (hcharge : s.charge = 0) (hheight : e.height ≤ data.limits.maxDepth) (scopes : Scopes) :
    (Evaluator.eval (host data) data.limits e scopes ⟨0, s⟩).outcome.Avoids
      EvalError.IsOverflow := by
  have hstart : s.charge ≤ data.limits.maxDepth := hcharge ▸ Nat.zero_le _
  have hroom : 0 + e.height ≤ data.limits.maxDepth := by rwa [Nat.zero_add]
  have hfits := (budgetRules data data.limits).eval (fitsQuery_of_height_le hheight) scopes
  exact hfits.2 ⟨0, s⟩ hroom hstart

namespace CommandLine

theorem calls_subset_of_selectCalls {root selected : Root} {call : Option String}
    (h : selectCalls root call = .ok selected) : ∀ c ∈ selected.calls, c ∈ root.calls := by
  unfold selectCalls at h
  split at h
  · cases h
    exact fun _ hc => hc
  · dsimp only at h
    split at h
    · cases h
    · cases h
      exact fun _ hc => List.mem_of_mem_filter hc

/-- Whatever fixture a text holds, however it is spelled: with room for 62 activations, as there is
    by default, none of the calls that are selected fails because of too many. -/
theorem fixtures_never_overflow (text : String) (fixture : Fixture)
    (hfixture : Fixture.decodeJson text = .ok fixture) (options : Options)
    (hdepth : 62 ≤ options.limits.maxDepth) (root : Root)
    (hselect : selectCalls fixture.root options.call = .ok root) :
    ∀ result ∈ callResults options.limits fixture root,
      result.result.Avoids EvalError.IsOverflow := by
  intro result hresult
  obtain ⟨i, hi⟩ := List.mem_iff_getElem?.mp hresult
  rw [callResults_getElem?] at hi
  obtain ⟨call, hcall, rfl⟩ := Option.map_eq_some_iff.mp hi
  have hmem := calls_subset_of_selectCalls hselect call (List.mem_of_getElem? hcall)
  have hheight := Fixture.height_le_of_decodeJson hfixture hmem
  -- The calls before it have given back what they were charged.
  have hcharge := Root.hostAfter_keeps (Memory.keeps_charge (fixture.data options.limits))
    options.limits [] (root.calls.take i) fixture.state
  exact Memory.avoids_overflow_of_height hcharge (Nat.le_trans hheight hdepth) []

set_option maxRecDepth 20000 in
/-- The highest expression that fits into a text does not overflow with room for 62 activations, and
    does with room for 61. -/
theorem fixtures_never_overflow_highest :
    let level (d : Doc) : Doc := .array [.atom (.text "AND"), .atom .null, .array [d]]
    let d : Doc := .array [.array [], .array [], .array [], .array [.array [.array
      [.atom (.text "a"), Nat.repeat level 61 (.array [.atom (.text "NIL")])]]]]
    let text := String.ofList d.compact
    let e : Value := Nat.repeat (fun e => .node .and [e]) 61 .nil
    let fixture : Fixture := ⟨[], [], [], ⟨[⟨"a", e⟩]⟩⟩
    let results (maxDepth : Nat) := callResults ⟨maxDepth, none⟩ fixture fixture.root
    d.depth = 127 ∧ e.height = 62 ∧ Fixture.decodeJson text = .ok fixture ∧
      (∀ result ∈ results 62, result.result.Avoids EvalError.IsOverflow) ∧
      results 61 = [⟨"a", .error (.limit (.stackOverflow 61 61))⟩] := by
  intro level d text e fixture results
  have hread : Json.ofText text.toList = (d.tree, []) := by
    rw [String.toList_ofList]
    exact d.ofText_compact
  have htree : Fixture.ofJson maxNesting d.tree = .ok fixture := by cbv
  have hfixture : Fixture.decodeJson text = .ok fixture := by
    rw [Fixture.decodeJson, Json.decode, hread]
    simp only [htree]
    rfl
  have hdepth : d.depth = 127 := by cbv
  have hheight : e.height = 62 := by cbv
  have hroom := fixtures_never_overflow text fixture hfixture ⟨"-", none, ⟨62, none⟩, false⟩
    (Nat.le_refl 62) fixture.root rfl
  have hless : callResults ⟨61, none⟩ fixture fixture.root =
      [⟨"a", .error (.limit (.stackOverflow 61 61))⟩] := by
    cbv
  exact ⟨hdepth, hheight, hfixture, hroom, hless⟩

end CommandLine

end CellQuery
