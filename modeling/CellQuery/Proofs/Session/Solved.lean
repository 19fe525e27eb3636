import CellQuery.Proofs.Host.Solved

/-! # Sessions with a solved parameter

    Two sessions whose hosts differ in one parameter, supplied on the one and solved
    with the same value on the other, answer every request alike as long as none
    asks to forget what has been solved.  All that differs is the list of what has
    been solved: it has one entry more on the second host. -/

namespace CellQuery

open Run Evaluator Memory

variable {i : Nat} {v : Value}

/-! ## What has been solved -/

/-- The second list has one entry more than the first; both are in the order of the indices. -/
def HasEntryMore (entry : Nat × Value) (bindings more : List (Nat × Value)) : Prop :=
  ∃ before after, bindings = before ++ after ∧ more = before ++ entry :: after ∧
    (∀ b ∈ before, b.1 < entry.1) ∧ ∀ b ∈ after, entry.1 < b.1

namespace Memory

/-- The solved ones among parameters of which the first has the given index. -/
def bindingsFrom (first : Nat) (slots : List Slot) : List (Nat × Value) :=
  (slots.zipIdx first).filterMap fun (slot, index) => slot.solution?.map fun v => (index, v)

theorem bindingsFrom_append (first : Nat) (slots slots' : List Slot) :
    bindingsFrom first (slots ++ slots') =
      bindingsFrom first slots ++ bindingsFrom (first + slots.length) slots' := by
  unfold bindingsFrom
  rw [List.zipIdx_append, List.filterMap_append]

theorem index_of_mem_bindingsFrom {first : Nat} {slots : List Slot} {b : Nat × Value}
    (h : b ∈ bindingsFrom first slots) : first ≤ b.1 ∧ b.1 < first + slots.length := by
  obtain ⟨⟨slot, index⟩, hmem, hsolved⟩ := List.mem_filterMap.mp h
  obtain ⟨w, _, rfl⟩ := Option.map_eq_some_iff.mp hsolved
  obtain ⟨hfirst, hlast, _⟩ := List.mem_zipIdx hmem
  exact ⟨hfirst, by omega⟩

/-- The solved parameter is the one entry that the other host does not have. -/
theorem bindings_withSolved {s : State} (h : Supplied i v s) :
    HasEntryMore (i, v) s.bindings (s.withSolved i v).bindings := by
  obtain ⟨hlt, hget⟩ := List.getElem?_eq_some_iff.mp h
  have hslots : s.slots = s.slots.take i ++ .supplied v :: s.slots.drop (i + 1) := by
    rw [← hget, List.getElem_cons_drop, List.take_append_drop]
  have hsolved : (s.withSolved i v).slots =
      s.slots.take i ++ .solved v :: s.slots.drop (i + 1) := by
    simp only [State.withSolved, List.set_eq_take_append_cons_drop, hlt, if_true]
  have hlength : (s.slots.take i).length = i := by
    rw [List.length_take]
    omega
  refine ⟨bindingsFrom 0 (s.slots.take i), bindingsFrom (i + 1) (s.slots.drop (i + 1)),
    ?_, ?_, fun b hb => ?_, fun b hb => ?_⟩
  · show bindingsFrom 0 s.slots = _
    conv => lhs; rw [hslots, bindingsFrom_append, hlength, Nat.zero_add]
    rfl
  · show bindingsFrom 0 (s.withSolved i v).slots = _
    rw [hsolved, bindingsFrom_append, hlength, Nat.zero_add]
    rfl
  · have := (index_of_mem_bindingsFrom hb).2
    rw [hlength] at this
    omega
  · exact (index_of_mem_bindingsFrom hb).1

end Memory

/-! ## Roots -/

/-- The calls of a root end alike, and leave hosts that differ as before. -/
theorem Root.runCalls_withSolved (data : Data) (limits : Limits) (scopes : Scopes)
    (calls : List Call) (m : Machine State) (hm : Supplied i v m.host) :
    let r := runCalls (host data) limits scopes calls m
    Supplied i v r.2.host ∧
      runCalls (host data) limits scopes calls (onHost (State.withSolved i v) m) =
        (r.1, onHost (State.withSolved i v) r.2) := by
  induction calls generalizing m with
  | nil => exact ⟨hm, rfl⟩
  | cons call calls ih =>
    have hcovers : (solvedCoupling data limits i v).covers call.result :=
      fun q _ _ => follows_answer data q
    obtain ⟨hinv, hsame⟩ := (solvedCoupling data limits i v).eval hcovers (Eq.refl scopes) m hm
    obtain ⟨hinv', hrest⟩ := ih _ hinv
    refine ⟨hinv', ?_⟩
    simp only [runCalls, hsame, hrest]

/-! ## Sessions -/

namespace Session

/-- The session with the parameter solved instead of supplied. -/
abbrev withSolved (i : Nat) (v : Value) (s : Session) : Session :=
  onHost (State.withSolved i v) s

/-- One step: the answers are the same, and the sessions differ as before. -/
theorem step_withSolved (data : Data) (s : Session) (hs : Supplied i v s.host) (first : Step)
    (hreset : first.request ≠ .reset) :
    Supplied i v (step data s first).2.host ∧
      step data (s.withSolved i v) first =
        ((step data s first).1, (step data s first).2.withSolved i v) := by
  obtain ⟨request, scopes, limits⟩ := first
  have hcovers : ∀ e, (solvedCoupling data limits i v).covers e :=
    fun _ q _ _ => follows_answer data q
  cases request with
  | eval e =>
    obtain ⟨hinv, hsame⟩ :=
      (solvedCoupling data limits i v).eval (hcovers e) (Eq.refl scopes) s hs
    exact ⟨hinv, by simp only [step, hsame]⟩
  | evalList e =>
    obtain ⟨hinv, hsame⟩ :=
      (solvedCoupling data limits i v).evalList (hcovers e) (Eq.refl scopes) s hs
    exact ⟨hinv, by simp only [step, hsame]⟩
  | runRoot root =>
    -- The calls are run by an evaluator of their own, which starts at depth zero.
    obtain ⟨hinv, hsame⟩ :=
      Root.runCalls_withSolved data limits scopes root.calls ⟨0, s.host⟩ hs
    have hrun : Root.runCalls (host data) limits scopes root.calls
        ⟨0, s.host.withSolved i v⟩ = _ := hsame
    exact ⟨hinv, by simp only [step, Root.run, onHost, hrun]⟩
  | arg index => exact ⟨hs, rfl⟩
  | param index =>
    refine ⟨hs, ?_⟩
    simp only [step, onHost, param_withSolved hs]
  | bind index w =>
    obtain ⟨hinv, hsame⟩ := bind_withSolved hs index w
    exact ⟨hinv, by simp only [step, onHost, hsame]⟩
  | query q =>
    obtain ⟨hinv, hsame⟩ := follows_answer data q s.host hs
    have hquery : (host data).query = answer data := rfl
    simp only [step, onHost, hquery, hsame]
    exact ⟨hinv, trivial⟩
  | bindings => exact ⟨hs, rfl⟩
  | reset => exact absurd rfl hreset
  | cells => exact ⟨hs, rfl⟩

/-- Whatever a session is asked, short of forgetting what has been solved, it does not matter
    whether a parameter was supplied or has been solved with the same value: every answer
    is the same, and after each step the bindings are the same but for the parameter itself. -/
theorem solved_like_supplied (data : Data) (i : Nat) (v : Value) (s : Session)
    (hs : s.host.slots[i]? = some (.supplied v)) (steps : List Step)
    (hsteps : ∀ step ∈ steps, step.request ≠ .reset) :
    let solved : Session :=
      { s with host := { s.host with slots := s.host.slots.set i (.solved v) } }
    List.Forall₂ (fun supplied solved => solved.1 = supplied.1 ∧
      HasEntryMore (i, v) supplied.2 solved.2) (run data s steps) (run data solved steps) := by
  induction steps generalizing s with
  | nil => exact .nil
  | cons first steps ih =>
    obtain ⟨hfirst, hrest⟩ := List.forall_mem_cons.mp hsteps
    obtain ⟨hinv, hsame⟩ := step_withSolved data s hs first hfirst
    have hsolved : run data (s.withSolved i v) (first :: steps) =
        ((step data s first).1, ((step data s first).2.withSolved i v).host.bindings) ::
          run data ((step data s first).2.withSolved i v) steps := by
      simp only [run, hsame]
    show List.Forall₂ _ (run data s (first :: steps)) (run data (s.withSolved i v) (first :: steps))
    rw [hsolved]
    exact .cons ⟨rfl, bindings_withSolved hinv⟩ (ih _ hinv hrest)

/-- Another parameter is solved in between, and then a conflict with the one in question is
    reported with the value that was solved for it. -/
theorem solved_like_supplied_conflict :
    let data : Data := ⟨[], [], {}⟩
    let s : Session := ⟨0, ⟨[.unbound, .solved (.uint 5)], 0⟩⟩
    let steps : List Step :=
      [⟨.eval (.node .equal [.param 0, .arg 0]), [[.uint 9]], {}⟩,
       ⟨.eval (.node .equal [.arg 0, .uint 6]), [[.param 1]], {}⟩]
    ∃ more more', run data s steps =
        [(.value (.ok (.bool true)), more),
         (.value (.error (.host (.conflict 1 (.uint 5) (.uint 6)))), more')] ∧
      HasEntryMore (1, .uint 5) [(0, .uint 9)] more' := by
  intro data s steps
  let supplied : Session := ⟨0, ⟨[.unbound, .supplied (.uint 5)], 0⟩⟩
  have hrun : run data supplied steps =
      [(.value (.ok (.bool true)), [(0, .uint 9)]),
       (.value (.error (.host (.conflict 1 (.uint 5) (.uint 6)))), [(0, .uint 9)])] := by cbv
  have hreset : ∀ step ∈ steps, step.request ≠ .reset := by
    intro step hstep
    rcases List.mem_cons.mp hstep with rfl | hstep
    · simp
    · rw [List.mem_singleton.mp hstep]
      simp
  have hsame := solved_like_supplied data 1 (.uint 5) supplied rfl steps hreset
  rw [hrun] at hsame
  obtain ⟨⟨_, more⟩, _, ⟨rfl, _⟩, hrest, hall⟩ := List.forall₂_cons_left_iff.mp hsame
  obtain ⟨⟨_, more'⟩, _, ⟨rfl, hmore⟩, hnil, rfl⟩ := List.forall₂_cons_left_iff.mp hrest
  rw [List.forall₂_nil_left_iff.mp hnil] at hall
  exact ⟨more, more', hall, hmore⟩

end Session

end CellQuery
