import CellQuery.Proofs.Host.Answer

/-! # Live frames

    A frame is an activation that has been entered and not been left.  Predicates run in
    evaluators of their own, each of which counts its frames from zero; what bounds them
    all together is the charge that the host keeps.

    * `Event.stacksOf` lists the frames that are live at each moment of a run.
    * `Memory.answer_shallow`: with some frames of predicates live already, a query adds
      no more than the limit of the host leaves.
    * `Memory.frames_le` is the bound for a whole evaluation.

    The invariant of an evaluator for a predicate, with `below` frames of predicates
    under its own: frames below, own depth and height of the expression at hand together
    stay within the charge. -/

namespace CellQuery

variable {ε : Type}

/-! ## Moments of a run -/

namespace Event

mutual

/-- The frames that are live at the moments within an event, outermost frame first.  A
    frame is given by the number of queries that its evaluator is nested in. -/
def stacksWithin (level : Nat) : Event ε → List (List Nat)
  | activation during => [level] :: (stacksOf level during).map (level :: ·)
  | query _ during _ => stacksOf (level + 1) during
  | _ => []

/-- The frames that are live at the moments within the events of a list. -/
def stacksOf (level : Nat) : List (Event ε) → List (List Nat)
  | [] => []
  | event :: events => stacksWithin level event ++ stacksOf level events

end

@[simp]
theorem stacksOf_append (level : Nat) (as bs : List (Event ε)) :
    stacksOf level (as ++ bs) = stacksOf level as ++ stacksOf level bs := by
  induction as with
  | nil => rfl
  | cons a as ih => simp only [List.cons_append, stacksOf, ih, List.append_assoc]

@[simp]
theorem mem_stacksOf_activation {level : Nat} {during : List (Event ε)} {stack : List Nat} :
    stack ∈ stacksOf level [activation during] ↔
      stack = [level] ∨ ∃ rest ∈ stacksOf level during, level :: rest = stack := by
  simp [stacksOf, stacksWithin]

@[simp]
theorem mem_stacksOf_query {level : Nat} {q : Value} {during : List (Event ε)}
    {refusal : Option (Refusal ε)} {stack : List Nat} :
    stack ∈ stacksOf level [query q during refusal] ↔ stack ∈ stacksOf (level + 1) during := by
  simp [stacksOf, stacksWithin]

mutual

/-- No frame is of an evaluator further out than the events. -/
theorem le_of_mem_stacksWithin : ∀ (event : Event ε) {level : Nat} {stack : List Nat},
    stack ∈ stacksWithin level event → ∀ frame ∈ stack, level ≤ frame
  | activation during, level, stack, h, frame, hframe => by
    rcases List.mem_cons.mp h with rfl | h
    · exact Nat.le_of_eq (List.mem_singleton.mp hframe).symm
    · obtain ⟨rest, hrest, rfl⟩ := List.mem_map.mp h
      rcases List.mem_cons.mp hframe with rfl | hframe
      · exact Nat.le_refl _
      · exact le_of_mem_stacksOf during hrest frame hframe
  | query _ during _, level, stack, h, frame, hframe =>
    Nat.le_of_succ_le (le_of_mem_stacksOf during h frame hframe)
  | arg _, _, _, h, _, _ => by simp [stacksWithin] at h
  | param _, _, _, h, _, _ => by simp [stacksWithin] at h
  | bind .., _, _, h, _, _ => by simp [stacksWithin] at h

theorem le_of_mem_stacksOf : ∀ (events : List (Event ε)) {level : Nat} {stack : List Nat},
    stack ∈ stacksOf level events → ∀ frame ∈ stack, level ≤ frame
  | [], _, _, h, _, _ => by simp [stacksOf] at h
  | event :: events, _, _, h, frame, hframe => by
    rcases List.mem_append.mp h with h | h
    · exact le_of_mem_stacksWithin event h frame hframe
    · exact le_of_mem_stacksOf events h frame hframe

end

/-! ## Frames of predicates -/

/-- At no moment within the events are more frames live than the bound. -/
def Shallow (bound : Nat) (events : List (Event ε)) : Prop :=
  ∀ level, ∀ stack ∈ stacksOf level events, stack.length ≤ bound

theorem shallow_nil (bound : Nat) : Shallow bound ([] : List (Event ε)) := by
  intro level stack h
  simp [stacksOf] at h

theorem shallow_append {bound : Nat} (as bs : List (Event ε)) (ha : Shallow bound as)
    (hb : Shallow bound bs) : Shallow bound (as ++ bs) := by
  intro level stack h
  rw [stacksOf_append] at h
  rcases List.mem_append.mp h with h | h
  · exact ha level stack h
  · exact hb level stack h

theorem shallow_activation {bound : Nat} {during : List (Event ε)} (h : Shallow bound during) :
    Shallow (bound + 1) [activation during] := by
  intro level stack hstack
  rcases mem_stacksOf_activation.mp hstack with rfl | ⟨rest, hrest, rfl⟩
  · exact Nat.le_add_left 1 bound
  · exact Nat.succ_le_succ (h level rest hrest)

theorem shallow_query {bound : Nat} {q : Value} {during : List (Event ε)}
    {refusal : Option (Refusal ε)} (h : Shallow bound during) :
    Shallow bound [query q during refusal] :=
  fun level stack hstack => h (level + 1) stack (mem_stacksOf_query.mp hstack)

/-- An event without an evaluation has no frames. -/
theorem shallow_of_stacksWithin_eq_nil {bound : Nat} {event : Event ε}
    (h : ∀ level, stacksWithin level event = []) : Shallow bound [event] := by
  intro level stack hstack
  simp [stacksOf, h level] at hstack

end Event

namespace Memory

open Event Evaluator

/-- Whatever frames of predicates are live when the query starts, as long as they are in
    use according to the charge, the query adds no more than the limit leaves. -/
def ShallowQuery (data : Data) (q : Value) : Prop :=
  ∀ (s : State) (below : Nat), below ≤ levelsUsed s.charge (Value.heightAll q.children) →
    Shallow (data.limits.maxDepth - below) (answer data q s).events

/-- The frames of an evaluator for a predicate, and of the queries that it makes. -/
def predicateRules (data : Data) (below : Nat) (limits : Limits)
    (hlimits : limits.maxDepth ≤ data.limits.maxDepth - below) : Rules (host data) limits where
  covers e := ∀ q ∈ e.subtrees, q.tag = .queryCells → ShallowQuery data q
  inside e _ x := Steady State.charge x ∧
    ∀ m, below + m.depth + Value.heightAll e.children ≤ m.host.charge →
      Shallow (data.limits.maxDepth - below - m.depth) (x m).events
  whole e _ x := Steady State.charge x ∧
    ∀ m, below + m.depth + e.height ≤ m.host.charge →
      Shallow (data.limits.maxDepth - below - m.depth) (x m).events
  covers_child he hc q hq := he q (Value.mem_subtrees_of_child hc hq)
  lift _ _ := ⟨fun _ => rfl, fun _ _ => shallow_nil _⟩
  bind hx hf := by
    refine ⟨Run.keeps_bind hx.1 fun a => (hf a).1, fun m hm => ?_⟩
    apply Run.events_bind shallow_append (hx.2 m hm)
    intro a
    -- The second step begins at the same depth and under the same charge.
    have hdepth := hx.1.depth m
    have hcharge := hx.1.host m
    rw [← hdepth]
    exact (hf a).2 _ (by rw [hdepth, hcharge]; exact hm)
  child _ hc hx := by
    refine ⟨hx.1, fun m hm => hx.2 m ?_⟩
    have := Value.height_le_heightAll hc
    omega
  arg n _ := ⟨fun _ => rfl, fun _ _ => shallow_of_stacksWithin_eq_nil fun _ => rfl⟩
  param _ := ⟨fun _ => rfl, fun _ _ => shallow_of_stacksWithin_eq_nil fun _ => rfl⟩
  binding i v _ _ := by
    refine ⟨steady_askBind (keeps_charge data) i v, fun m _ => ?_⟩
    obtain ⟨refusal, hevents⟩ := askBind_events (host data) i v m
    rw [hevents]
    exact shallow_of_stacksWithin_eq_nil fun _ => rfl
  query {e} he ht := by
    refine ⟨steady_askQuery (keeps_charge data) e, fun m hm => ?_⟩
    obtain ⟨refusal, hevents⟩ := askQuery_events (host data) e m
    -- The frames of this evaluator count as frames below for the query.
    rw [hevents, Nat.sub_sub]
    apply shallow_query
    apply he e (Value.self_mem_subtrees e) ht
    unfold levelsUsed
    omega
  activation {e _ x} _ hx := by
    refine ⟨steady_activation limits hx.1, fun m hm => ?_⟩
    rcases Nat.lt_or_ge m.depth limits.maxDepth with hlt | hle
    · rw [activation_of_lt hlt (hx.1.depth _)]
      -- One frame more is live, and what is evaluated within it is one level lower.
      have hinside := hx.2 { m with depth := m.depth + 1 } (by
        have := Value.height_eq e
        simp only
        omega)
      have hroom : data.limits.maxDepth - below - m.depth =
          data.limits.maxDepth - below - (m.depth + 1) + 1 := by omega
      rw [hroom]
      exact shallow_activation hinside
    · rw [activation_of_le hle]
      exact shallow_nil _

/-- All the evaluators that a query sets to work, at any nesting, share one limit. -/
theorem answer_shallow (data : Data) (q : Value) : ShallowQuery data q := by
  induction q using query_induction with
  | step q ih =>
    intro s below hbelow
    apply answer_events (shallow_nil _) shallow_append
    intro predicate hq cell
    rw [hq, Value.heightAll_singleton] at hbelow
    have hlimits : (limitsFor data s predicate).maxDepth ≤ data.limits.maxDepth - below :=
      Nat.sub_le_sub_left hbelow _
    have hrules := (predicateRules data below _ hlimits).eval (e := predicate) (ih predicate hq)
      [[cell]]
    apply hrules.2 ⟨0, stateFor s predicate⟩
    simp only [stateFor]
    omega

/-! ## All frames -/

/-- The frames of the outermost evaluator, and of all the others, keep to their limits. -/
def FramesWithin (own others : Nat) (events : List (Event ε)) : Prop :=
  ∀ stack ∈ stacksOf 0 events, stack.count 0 ≤ own ∧ stack.countP (0 < ·) ≤ others

theorem framesWithin_append {own others : Nat} (as bs : List (Event ε))
    (ha : FramesWithin own others as) (hb : FramesWithin own others bs) :
    FramesWithin own others (as ++ bs) := by
  intro stack h
  rw [stacksOf_append] at h
  rcases List.mem_append.mp h with h | h
  · exact ha stack h
  · exact hb stack h

theorem framesWithin_of_stacksWithin_eq_nil {own others : Nat} {event : Event ε}
    (h : stacksWithin 0 event = []) : FramesWithin own others [event] := by
  intro stack hstack
  simp [stacksOf, h] at hstack

theorem framesWithin_activation {own others : Nat} {during : List (Event ε)}
    (h : FramesWithin own others during) : FramesWithin (own + 1) others [.activation during] := by
  intro stack hstack
  rcases mem_stacksOf_activation.mp hstack with rfl | ⟨rest, hrest, rfl⟩
  · simp
  · obtain ⟨hown, hothers⟩ := h rest hrest
    simp only [List.count_cons_self, List.countP_cons]
    exact ⟨Nat.succ_le_succ hown, hothers⟩

/-- Within a query only the frames of other evaluators come and go. -/
theorem framesWithin_query {own others : Nat} {q : Value} {during : List (Event ε)}
    {refusal : Option (Refusal ε)} (h : Shallow others during) :
    FramesWithin own others [.query q during refusal] := by
  intro stack hstack
  have hmem := mem_stacksOf_query.mp hstack
  -- Every frame within the query is of an evaluator at level one or deeper.
  have hlevel := le_of_mem_stacksOf during hmem
  have hcount : stack.count 0 = 0 :=
    List.count_eq_zero.mpr fun hzero => absurd (hlevel 0 hzero) (by omega)
  rw [hcount]
  exact ⟨Nat.zero_le _, Nat.le_trans List.countP_le_length (h 1 stack hmem)⟩

/-- The frames of the outermost evaluator, from the depth on that it has reached. -/
def outermostRules (data : Data) (limits : Limits) : Rules (host data) limits where
  covers _ := True
  inside _ _ x := Steady State.charge x ∧
    ∀ m, FramesWithin (limits.maxDepth - m.depth) data.limits.maxDepth (x m).events
  whole _ _ x := Steady State.charge x ∧
    ∀ m, FramesWithin (limits.maxDepth - m.depth) data.limits.maxDepth (x m).events
  covers_child _ _ := trivial
  lift _ _ := ⟨fun _ => rfl, fun _ _ h => by simp [stacksOf, Run.lift] at h⟩
  bind hx hf := by
    refine ⟨Run.keeps_bind hx.1 fun a => (hf a).1, fun m => ?_⟩
    apply Run.events_bind framesWithin_append (hx.2 m)
    intro a
    rw [← hx.1.depth m]
    exact (hf a).2 _
  child _ _ hx := hx
  arg _ _ := ⟨fun _ => rfl, fun _ => framesWithin_of_stacksWithin_eq_nil rfl⟩
  param _ := ⟨fun _ => rfl, fun _ => framesWithin_of_stacksWithin_eq_nil rfl⟩
  binding i v _ _ := by
    refine ⟨steady_askBind (keeps_charge data) i v, fun m => ?_⟩
    obtain ⟨refusal, hevents⟩ := askBind_events (host data) i v m
    rw [hevents]
    exact framesWithin_of_stacksWithin_eq_nil rfl
  query {e} _ _ := by
    refine ⟨steady_askQuery (keeps_charge data) e, fun m => ?_⟩
    obtain ⟨refusal, hevents⟩ := askQuery_events (host data) e m
    rw [hevents]
    exact framesWithin_query (answer_shallow data e m.host 0 (Nat.zero_le _))
  activation {e _ x} _ hx := by
    refine ⟨steady_activation limits hx.1, fun m => ?_⟩
    rcases Nat.lt_or_ge m.depth limits.maxDepth with hlt | hle
    · rw [activation_of_lt hlt (hx.1.depth _)]
      have hinside := hx.2 { m with depth := m.depth + 1 }
      have hroom : limits.maxDepth - m.depth = limits.maxDepth - (m.depth + 1) + 1 := by omega
      rw [hroom]
      exact framesWithin_activation hinside
    · rw [activation_of_le hle]
      intro stack h
      simp [stacksOf] at h

/-- At every moment of an evaluation the outermost evaluator has no more live frames than its
    own limit, all evaluators for predicates together have no more than the limit of the
    host, and so there are never more than both limits allow. -/
theorem frames_le (data : Data) (limits : Limits) (e : Value) (scopes : Scopes) (s : State) :
    let value := Evaluator.eval (host data) limits e scopes ⟨0, s⟩
    let list := Evaluator.evalList (host data) limits e scopes ⟨0, s⟩
    ∀ stack, stack ∈ stacksOf 0 value.events ∨ stack ∈ stacksOf 0 list.events →
      stack.count 0 ≤ limits.maxDepth ∧
      stack.countP (0 < ·) ≤ data.limits.maxDepth ∧
      stack.length ≤ limits.maxDepth + data.limits.maxDepth := by
  intro value list stack hstack
  have hframes : stack.count 0 ≤ limits.maxDepth ∧
      stack.countP (0 < ·) ≤ data.limits.maxDepth := by
    rcases hstack with h | h
    · exact ((outermostRules data limits).eval trivial scopes).2 ⟨0, s⟩ stack h
    · exact ((outermostRules data limits).evalList trivial scopes).2 ⟨0, s⟩ stack h
  obtain ⟨hown, hothers⟩ := hframes
  refine ⟨hown, hothers, ?_⟩
  -- Every frame is of the outermost evaluator or of another one.
  have hsplit : stack.length = stack.count 0 + stack.countP (0 < ·) := by
    rw [List.length_eq_countP_add_countP (· == 0)]
    congr 1
    apply List.countP_congr
    intro frame _
    simp [Nat.pos_iff_ne_zero]
  omega

/-- A predicate with a query of its own: one frame of the innermost evaluator lives above two
    of the predicate and two of the evaluation.  Both limits are reached. -/
theorem frames_le_nested :
    let data : Data := ⟨[], [.bool true], ⟨3, none⟩⟩
    let inner : Value := .reduce (.bool true) .nil (.queryCells (.bool true))
    let list := Evaluator.evalList (host data) ⟨2, none⟩ (.map (.arg 0) (.queryCells inner)) []
      ⟨0, .fresh []⟩
    stacksOf 0 list.events =
      [[0], [0, 0], [0, 0, 1], [0, 0, 1, 1], [0, 0, 1, 1], [0, 0, 1, 1, 2], [0, 0, 1, 1], [0, 0]] ∧
    ∀ stack ∈ stacksOf 0 list.events,
      stack.count 0 ≤ 2 ∧ stack.countP (0 < ·) ≤ 3 ∧ stack.length ≤ 5 := by
  intro data inner list
  refine ⟨by dsimp only [list, inner, data]; cbv, fun stack hstack => ?_⟩
  exact frames_le data ⟨2, none⟩ _ [] (.fresh []) stack (.inr hstack)

end Memory

end CellQuery
