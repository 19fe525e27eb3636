import Mathlib.Data.List.Chain
import CellQuery.Proofs.Eval.Refusal
import CellQuery.Proofs.Host.Answer

/-! # Where queries come from

    Expressions and data are of one type, so the values that an evaluation handles may hold
    queries themselves.  None of these is ever asked: a query is a part of the expression, as it
    was written, and the queries of a predicate are parts of the predicate.

    * `Evaluator.AskedFrom` says this of the requests on record, whatever the host.
    * `Event.pathsOf` lists the queries that are at work at the moments of a run, each within the
      one before it; `Memory.Encloses` is how two neighbours are related.  The
      induction is over a path, from the outside in. -/

namespace CellQuery

variable {ε : Type}

/-! ## Queries within one another -/

namespace Event

mutual

/-- The queries that are at work at the moments within an event, outermost query first. -/
def pathsWithin : Event ε → List (List Value)
  | activation during => pathsOf during
  | query q during _ => [q] :: (pathsOf during).map (q :: ·)
  | _ => []

/-- The queries that are at work at the moments within the events of a list. -/
def pathsOf : List (Event ε) → List (List Value)
  | [] => []
  | event :: events => pathsWithin event ++ pathsOf events

end

/-- The path leads through a query that is among the given requests. -/
def StartsIn (requests : List (Event ε)) (path : List Value) : Prop :=
  ∃ q during refusal, query q during refusal ∈ requests ∧
    (path = [q] ∨ ∃ rest ∈ pathsOf during, path = q :: rest)

theorem StartsIn.mono {xs ys : List (Event ε)} {path : List Value} (h : StartsIn xs path)
    (hsub : xs ⊆ ys) : StartsIn ys path := by
  obtain ⟨q, during, refusal, hmem, hpath⟩ := h
  exact ⟨q, during, refusal, hsub hmem, hpath⟩

mutual

theorem startsIn_of_mem_pathsWithin : ∀ (event : Event ε) {path : List Value},
    path ∈ pathsWithin event → StartsIn (requests event) path
  | activation during, _, h => startsIn_of_mem_pathsOf during h
  | query q during refusal, path, h => by
    refine ⟨q, during, refusal, List.mem_singleton_self _, ?_⟩
    rcases List.mem_cons.mp h with rfl | h
    · exact .inl rfl
    · obtain ⟨rest, hrest, rfl⟩ := List.mem_map.mp h
      exact .inr ⟨rest, hrest, rfl⟩
  | arg _, _, h => by simp [pathsWithin] at h
  | param _, _, h => by simp [pathsWithin] at h
  | bind .., _, h => by simp [pathsWithin] at h

/-- A path begins with a request, and goes on with what happened while that was answered. -/
theorem startsIn_of_mem_pathsOf : ∀ (events : List (Event ε)) {path : List Value},
    path ∈ pathsOf events → StartsIn (requestsOf events) path
  | [], _, h => by simp [pathsOf] at h
  | event :: events, _, h => by
    rcases List.mem_append.mp h with h | h
    · exact (startsIn_of_mem_pathsWithin event h).mono (List.subset_append_left _ _)
    · exact (startsIn_of_mem_pathsOf events h).mono (List.subset_append_right _ _)

end

end Event

open Event

/-! ## Evaluations -/

namespace Evaluator

variable {σ α : Type} {host : Host σ ε} {allowed : Value → Prop}

/-- All queries on record are allowed ones, and on record with what happened while the host
    answered them. -/
def AskedFrom (host : Host σ ε) (allowed : Value → Prop) (events : List (Event ε)) : Prop :=
  ∀ q during refusal, .query q during refusal ∈ requestsOf events →
    allowed q ∧ ∃ s, during = (host.query q s).events

theorem askedFrom_nil : AskedFrom host allowed [] := by
  intro q during refusal h
  simp [requestsOf] at h

theorem askedFrom_append (as bs : List (Event ε)) (has : AskedFrom host allowed as)
    (hbs : AskedFrom host allowed bs) : AskedFrom host allowed (as ++ bs) := by
  intro q during refusal h
  rw [requestsOf_append] at h
  exact (List.mem_append.mp h).elim (has q during refusal) (hbs q during refusal)

theorem AskedFrom.mono {allowed' : Value → Prop} {events : List (Event ε)}
    (h : AskedFrom host allowed events) (himp : ∀ q, allowed q → allowed' q) :
    AskedFrom host allowed' events := by
  intro q during refusal hmem
  obtain ⟨hq, hduring⟩ := h q during refusal hmem
  exact ⟨himp q hq, hduring⟩

/-- Other requests are no queries. -/
theorem askedFrom_of_query?_eq_none {event : Event ε} (h : event.query? = none)
    (hrequests : requests event = [event]) : AskedFrom host allowed [event] := by
  intro q during refusal hmem
  simp only [requestsOf, hrequests, List.append_nil, List.mem_singleton] at hmem
  subst hmem
  cases h

theorem askedFrom_query {q : Value} {s : σ} {refusal : Option (Refusal ε)} (hq : allowed q) :
    AskedFrom host allowed [.query q (host.query q s).events refusal] := by
  intro q' during refusal' hmem
  simp only [requestsOf, requests, List.append_nil, List.mem_singleton] at hmem
  cases hmem
  exact ⟨hq, s, rfl⟩

theorem askedFrom_activation {limits : Limits} {x : Step σ ε α}
    (hx : ∀ m, AskedFrom host allowed (x m).events) (m : Machine σ) :
    AskedFrom host allowed (activation limits x m).events := by
  unfold activation AskedFrom
  split
  · exact askedFrom_nil
  · -- The requests of an activation are those that were made during it.
    simp only
    split
    · rw [requestsOf_activation]
      exact hx _
    · rw [requestsOf_activation]
      exact hx _

/-- The queries within an expression. -/
def QueryOf (e q : Value) : Prop :=
  q ∈ e.subtrees ∧ q.tag = .queryCells

theorem QueryOf.of_child {e c q : Value} (hc : c ∈ e.children) (h : QueryOf c q) : QueryOf e q :=
  ⟨Value.mem_subtrees_of_child hc h.1, h.2⟩

theorem QueryOf.trans {e q q' : Value} (hq : QueryOf e q) (h : QueryOf q q') : QueryOf e q' :=
  ⟨Value.mem_subtrees_trans h.1 hq.1, h.2⟩

/-- Every query that is asked is a part of the expression. -/
def askedRules (host : Host σ ε) (limits : Limits) : Rules host limits where
  covers _ := True
  inside e _ x := ∀ m, AskedFrom host (QueryOf e) (x m).events
  whole e _ x := ∀ m, AskedFrom host (QueryOf e) (x m).events
  covers_child _ _ := trivial
  lift _ _ _ := askedFrom_nil
  bind hx hf m := Run.events_bind askedFrom_append (hx m) fun a => hf a _
  child _ hc hx m := (hx m).mono fun _ => QueryOf.of_child hc
  arg _ _ _ := askedFrom_of_query?_eq_none rfl rfl
  param _ _ := askedFrom_of_query?_eq_none rfl rfl
  binding n v _ _ m := by
    obtain ⟨refusal, hevents⟩ := askBind_events host n v m
    rw [hevents]
    exact askedFrom_of_query?_eq_none rfl rfl
  query {e} _ ht m := by
    obtain ⟨refusal, hevents⟩ := askQuery_events host e m
    rw [hevents]
    exact askedFrom_query ⟨Value.self_mem_subtrees e, ht⟩
  activation _ hx := askedFrom_activation hx

theorem eval_asked (host : Host σ ε) (limits : Limits) (e : Value) (scopes : Scopes)
    (m : Machine σ) : AskedFrom host (QueryOf e) (eval host limits e scopes m).events :=
  (askedRules host limits).eval trivial scopes m

theorem evalList_asked (host : Host σ ε) (limits : Limits) (e : Value) (scopes : Scopes)
    (m : Machine σ) : AskedFrom host (QueryOf e) (evalList host limits e scopes m).events :=
  (askedRules host limits).evalList trivial scopes m

/-- A query has no value, so nothing is asked where one is expected. -/
theorem eval_query_asked {q : Value} (ht : q.tag = .queryCells) (limits : Limits)
    (scopes : Scopes) (m : Machine σ) :
    AskedFrom host allowed (eval host limits q scopes m).events := by
  cases q with
  | node tag children =>
    obtain rfl : tag = .queryCells := ht
    exact askedFrom_activation (x := Run.fail (.unsupported .queryCells .value))
      (fun _ => askedFrom_nil) m
  | _ => cases ht

/-- An expression whose value is wanted is not asked itself. -/
theorem eval_asked_below (host : Host σ ε) (limits : Limits) (e : Value) (scopes : Scopes)
    (m : Machine σ) :
    AskedFrom host (fun q => QueryOf e q ∧ q ≠ e) (eval host limits e scopes m).events := by
  by_cases ht : e.tag = .queryCells
  · exact eval_query_asked ht limits scopes m
  · refine (eval_asked host limits e scopes m).mono fun q hq => ⟨hq, ?_⟩
    rintro rfl
    exact ht hq.2

end Evaluator

/-! ## Queries of predicates -/

namespace Memory

open Evaluator

/-- The first query has one predicate, and the second one is a query within that, but not the
    predicate itself. -/
def Encloses (outer inner : Value) : Prop :=
  ∃ predicate, outer.children = [predicate] ∧ QueryOf predicate inner ∧ inner ≠ predicate

theorem Encloses.queryOf {outer inner : Value} (h : Encloses outer inner) :
    QueryOf outer inner := by
  obtain ⟨predicate, hchildren, hinner, _⟩ := h
  exact hinner.of_child (hchildren ▸ List.mem_singleton_self predicate)

/-- While the host answers a query, only queries of its predicate are asked. -/
theorem answer_asked (data : Data) (q : Value) (s : State) :
    AskedFrom (host data) (Encloses q) (answer data q s).events := by
  apply answer_events askedFrom_nil askedFrom_append
  intro predicate hq cell
  exact (eval_asked_below (host data) _ predicate [[cell]] _).mono
    fun q' hq' => ⟨predicate, hq, hq'⟩

/-- Each query of a path encloses the next one, and the first of them was asked. -/
theorem isChain_of_mem_pathsOf {data : Data} {allowed : Value → Prop}
    {events : List (Event Error)} (hasked : AskedFrom (host data) allowed events)
    {path : List Value} (hpath : path ∈ pathsOf events) :
    path.IsChain Encloses ∧ ∀ q ∈ path.head?, allowed q := by
  induction path generalizing allowed events with
  | nil => exact ⟨.nil, by simp⟩
  | cons q rest ih =>
    obtain ⟨q', during, refusal, hmem, hrest⟩ := startsIn_of_mem_pathsOf events hpath
    obtain ⟨hq, s, rfl⟩ := hasked q' during refusal hmem
    rcases hrest with heq | ⟨rest', hrest, heq⟩
    · cases heq
      exact ⟨.singleton q, by simpa using hq⟩
    · cases heq
      -- The path goes on with what happened while the host answered its first query.
      obtain ⟨hchain, hhead⟩ := ih (answer_asked data q s) hrest
      exact ⟨hchain.cons hhead, by simpa using hq⟩

/-- All queries of a path are parts of what its first query is a part of. -/
theorem queryOf_of_isChain {e : Value} {path : List Value} (hchain : path.IsChain Encloses)
    (hhead : ∀ q ∈ path.head?, QueryOf e q) : ∀ q ∈ path, QueryOf e q := by
  induction path with
  | nil => simp
  | cons q rest ih =>
    have hq : QueryOf e q := hhead q rfl
    have hnext : ∀ q' ∈ rest.head?, QueryOf e q' := fun q' hq' =>
      hq.trans (hchain.rel_head? hq').queryOf
    exact List.forall_mem_cons.mpr ⟨hq, ih hchain.tail hnext⟩

end Memory

/-! ## Data is never run -/

/-- Whatever the host, every query that an evaluation asks is a query node of the expression,
    as it stands there.  On the host in memory the same is true of the queries that are asked
    while predicates are evaluated, at any nesting: each is a query node of the expression, and
    one within the predicate of the query around it, though not the predicate itself. -/
theorem queries_are_subtrees {σ : Type} (host : Host σ ε) (data : Memory.Data) (limits : Limits)
    (e : Value) (scopes : Scopes) (m : Machine σ) (m' : Machine Memory.State) :
    (∀ q during refusal,
      .query q during refusal ∈ requestsOf (Evaluator.eval host limits e scopes m).events ∨
        .query q during refusal ∈ requestsOf (Evaluator.evalList host limits e scopes m).events →
      q ∈ e.subtrees ∧ q.tag = .queryCells) ∧
    ∀ path,
      path ∈ pathsOf (Evaluator.eval (Memory.host data) limits e scopes m').events ∨
        path ∈ pathsOf (Evaluator.evalList (Memory.host data) limits e scopes m').events →
      (∀ q ∈ path, q ∈ e.subtrees ∧ q.tag = .queryCells) ∧
      path.IsChain fun outer inner => ∃ predicate, outer.children = [predicate] ∧
        inner ∈ predicate.subtrees ∧ inner ≠ predicate := by
  constructor
  · rintro q during refusal (h | h)
    · exact (Evaluator.eval_asked host limits e scopes m q during refusal h).1
    · exact (Evaluator.evalList_asked host limits e scopes m q during refusal h).1
  · intro path hpath
    obtain ⟨hchain, hhead⟩ : path.IsChain Memory.Encloses ∧
        ∀ q ∈ path.head?, Evaluator.QueryOf e q := by
      rcases hpath with h | h
      · exact Memory.isChain_of_mem_pathsOf (Evaluator.eval_asked _ limits e scopes m') h
      · exact Memory.isChain_of_mem_pathsOf (Evaluator.evalList_asked _ limits e scopes m') h
    refine ⟨Memory.queryOf_of_isChain hchain hhead, hchain.imp fun outer inner h => ?_⟩
    obtain ⟨predicate, hchildren, hinner, hne⟩ := h
    exact ⟨predicate, hchildren, hinner.1, hne⟩

/-- The one cell is a query itself.  It is handed on as a value, and the queries that are at
    work are two of the expression, one of them within the predicate of the other. -/
theorem queries_are_subtrees_query_as_cell :
    let cell : Value := .queryCells (.arg 7)
    let inner : Value := .queryCells (.bool true)
    let outer : Value := .queryCells (.reduce (.bool true) .nil inner)
    let e : Value := .reduce (.arg 1) .nil outer
    let host := Memory.host ⟨[], [cell], {}⟩
    let scripted := Scripted.host ⟨[], [], [cell], .grant, .grant⟩
    let m : Machine Memory.State := ⟨0, .fresh []⟩
    (Evaluator.eval host {} e [] m).outcome = .ok cell ∧
      pathsOf (Evaluator.eval host {} e [] m).events = [[outer], [outer, inner]] ∧
      requestsOf (Evaluator.eval scripted {} e [] ⟨0, ()⟩).events = [.query outer [] none] ∧
      ∀ q ∈ [outer, inner], q ∈ e.subtrees ∧ q.tag = .queryCells := by
  intro cell inner outer e host scripted m
  have houtcome : (Evaluator.eval host {} e [] m).outcome = .ok cell := by cbv
  have hpaths : pathsOf (Evaluator.eval host {} e [] m).events =
    [[outer], [outer, inner]] := by cbv
  have hrequests : requestsOf (Evaluator.eval scripted {} e [] ⟨0, ()⟩).events =
    [.query outer [] none] := by cbv
  obtain ⟨hasked, hpath⟩ := queries_are_subtrees scripted ⟨[], [cell], {}⟩ {} e [] ⟨0, ()⟩ m
  have houter := hasked outer [] none (.inl (by rw [hrequests]; exact List.mem_cons_self))
  have hinner := (hpath [outer, inner] (.inl (by rw [hpaths]; simp))).1 inner (by simp)
  exact ⟨houtcome, hpaths, hrequests, by simpa using ⟨houter, hinner⟩⟩

end CellQuery
