import CellQuery.Host.Scripted
import CellQuery.Proofs.Eval.Rules

/-! # Refusals

    A host may refuse to bind a parameter, or to answer a query.  An evaluation then makes no
    other request, and ends with the refusal as its error; and only then does it end with
    an error of the host.

    * `Host.replay` makes recorded requests once more.  It says that the record of an
      evaluation is true: the host answers as the record has it.
    * `Heeds` relates requests to the error that may follow them.  It is kept when one step
      follows another, since the first one goes on only if all was granted. -/

namespace CellQuery

open Event

variable {σ ε α β : Type}

/-! ## Requests -/

/-- The refusal that a request was met with. -/
def Event.refusal? : Event ε → Option (Refusal ε)
  | bind _ _ refusal => refusal
  | query _ _ refusal => refusal
  | _ => none

/-- The query that a request is. -/
def Event.query? : Event ε → Option Value
  | query q _ _ => some q
  | _ => none

@[simp]
theorem Event.requestsOf_append (xs ys : List (Event ε)) :
    requestsOf (xs ++ ys) = requestsOf xs ++ requestsOf ys := by
  induction xs with
  | nil => rfl
  | cons x xs ih => rw [List.cons_append, requestsOf, requestsOf, ih, List.append_assoc]

@[simp]
theorem Event.requestsOf_activation (during : List (Event ε)) :
    requestsOf [activation during] = requestsOf during := by
  simp [requestsOf, requests]

namespace Host

/-- Makes a request once more: the request with the answer that it gets now, and the state
    after it. -/
def again (host : Host σ ε) (s : σ) : Event ε → Event ε × σ
  | .activation during => (.activation during, s)
  | .arg index => (.arg index, (host.arg index s).2)
  | .param index => (.param index, (host.param index s).2)
  | .bind index value _ =>
    match host.bind index value s with
    | (.ok (), s) => (.bind index value none, s)
    | (.error refusal, s) => (.bind index value (some refusal), s)
  | .query query _ _ =>
    let r := host.query query s
    (.query query r.events r.outcome.error?, r.state)

/-- Makes requests once more, in order. -/
def replay (host : Host σ ε) (s : σ) : List (Event ε) → List (Event ε) × σ
  | [] => ([], s)
  | event :: events =>
    let (event, s) := host.again s event
    let (events, s) := host.replay s events
    (event :: events, s)

theorem replay_append (host : Host σ ε) (s : σ) (xs ys : List (Event ε)) :
    host.replay s (xs ++ ys) =
      ((host.replay s xs).1 ++ (host.replay (host.replay s xs).2 ys).1,
        (host.replay (host.replay s xs).2 ys).2) := by
  induction xs generalizing s with
  | nil => rfl
  | cons x xs ih => simp only [List.cons_append, replay, ih]

theorem length_replay (host : Host σ ε) (s : σ) (xs : List (Event ε)) :
    (host.replay s xs).1.length = xs.length := by
  induction xs generalizing s with
  | nil => rfl
  | cons x xs ih => simp only [replay, List.length_cons, ih]

/-- If a replay gives the record back, it gives back each request. -/
theorem again_of_replay {host : Host σ ε} {s t : σ} {before after : List (Event ε)}
    {event : Event ε}
    (h : host.replay s (before ++ event :: after) = (before ++ event :: after, t)) :
    (host.again (host.replay s before).2 event).1 = event := by
  have hevents := congrArg Prod.fst h
  rw [replay_append] at hevents
  have hrest := List.append_inj_right hevents (host.length_replay s before)
  exact (List.cons.inj hrest).1

end Host

/-! ## Heeding a refusal -/

/-- No request was refused. -/
def Granted (requests : List (Event ε)) : Prop :=
  ∀ event ∈ requests, event.refusal? = none

/-- All requests were granted, and the ending is no error of the host; or all but the last,
    and the ending is the refusal of that. -/
def Heeds (requests : List (Event ε)) (ending : Outcome (EvalError ε) Unit) : Prop :=
  (Granted requests ∧ ∀ e, ending ≠ .error (.host e)) ∨
    ∃ granted last refusal, requests = granted ++ [last] ∧ Granted granted ∧
      last.refusal? = some refusal ∧ ending = .error refusal.toEvalError

@[simp]
theorem granted_nil : Granted ([] : List (Event ε)) := by
  simp [Granted]

theorem Granted.append {xs ys : List (Event ε)} (hxs : Granted xs) (hys : Granted ys) :
    Granted (xs ++ ys) :=
  fun event hevent => (List.mem_append.mp hevent).elim (hxs event) (hys event)

theorem Granted.not_refused {requests : List (Event ε)} (h : Granted requests) {event : Event ε}
    (hmem : event ∈ requests) {refusal : Refusal ε} : event.refusal? ≠ some refusal := by
  rw [h event hmem]
  exact nofun

theorem heeds_granted {event : Event ε} {ending : Outcome (EvalError ε) Unit}
    (h : event.refusal? = none) (hending : ∀ e, ending ≠ .error (.host e)) :
    Heeds [event] ending :=
  .inl ⟨List.forall_mem_singleton.mpr h, hending⟩

theorem heeds_refusal {event : Event ε} {refusal : Refusal ε}
    (h : event.refusal? = some refusal) : Heeds [event] (.error refusal.toEvalError) :=
  .inr ⟨[], event, refusal, rfl, granted_nil, h, rfl⟩

/-- What ends with a value has been granted all. -/
theorem Heeds.granted {requests : List (Event ε)} (h : Heeds requests (.ok ())) :
    Granted requests := by
  rcases h with ⟨hgranted, _⟩ | ⟨_, _, _, _, _, _, hending⟩
  · exact hgranted
  · cases hending

theorem Heeds.append {xs ys : List (Event ε)} {ending : Outcome (EvalError ε) Unit}
    (hxs : Heeds xs (.ok ())) (hys : Heeds ys ending) : Heeds (xs ++ ys) ending := by
  rcases hys with ⟨hgranted, hhost⟩ | ⟨before, last, refusal, rfl, hgranted, hlast, hending⟩
  · exact .inl ⟨hxs.granted.append hgranted, hhost⟩
  · exact .inr ⟨xs ++ before, last, refusal, (List.append_assoc xs before [last]).symm,
      hxs.granted.append hgranted, hlast, hending⟩

/-- A request that is refused has none after it. -/
theorem Heeds.refused {requests before after : List (Event ε)} {event : Event ε}
    {refusal : Refusal ε} {ending : Outcome (EvalError ε) Unit} (h : Heeds requests ending)
    (hsplit : requests = before ++ event :: after) (hevent : event.refusal? = some refusal) :
    after = [] ∧ ending = .error refusal.toEvalError := by
  rcases h with ⟨hgranted, _⟩ | ⟨granted, last, refusal', hrequests, hgranted, hlast, hending⟩
  · exact absurd hevent (hgranted.not_refused (by simp [hsplit]))
  · rcases List.eq_nil_or_concat after with rfl | ⟨rest, end', rfl⟩
    · -- The request is the last one, so both refusals are one.
      rw [hsplit] at hrequests
      obtain rfl := List.singleton_inj.mp (List.append_inj_right' hrequests rfl)
      rw [hevent] at hlast
      cases hlast
      exact ⟨rfl, hending⟩
    · -- Otherwise it is among those that were granted.
      have hprefix : before ++ event :: rest ++ [end'] = granted ++ [last] := by
        rw [← hrequests, hsplit]
        simp
      have hmem : event ∈ granted := by
        rw [← List.append_inj_left' hprefix rfl]
        simp
      exact absurd hevent (hgranted.not_refused hmem)

/-! ## Evaluations -/

namespace Evaluator

/-- The host answers the requests on record as the record has it, and is then in the
    state that is left behind. -/
def Recorded (host : Host σ ε) (m : Machine σ)
    (r : Ran (Event ε) (Machine σ) (EvalError ε) α) : Prop :=
  host.replay m.host (requestsOf r.events) = (requestsOf r.events, r.state.host)

variable {host : Host σ ε} {m : Machine σ}

theorem recorded_bind {x : Step σ ε α} {f : α → Step σ ε β} (hx : Recorded host m (x m))
    (hf : ∀ a, Recorded host (x m).state (f a (x m).state)) : Recorded host m ((x >>= f) m) := by
  unfold Recorded at *
  cases h : (x m).outcome with
  | ok a =>
    rw [Run.bind_of_ok h]
    simp only [requestsOf_append, Host.replay_append, hx, hf a]
  | error e => rw [Run.bind_of_error h]; exact hx
  | fault f => rw [Run.bind_of_fault h]; exact hx

theorem recorded_askBind (n : Nat) (v : Value) : Recorded host m (askBind host n v m) := by
  unfold askBind
  split
  · next s h => simp [Recorded, requestsOf, requests, Host.replay, Host.again, h]
  · next refusal s h => simp [Recorded, requestsOf, requests, Host.replay, Host.again, h]

theorem recorded_askQuery (q : Value) : Recorded host m (askQuery host q m) := by
  unfold askQuery
  simp only
  split
  all_goals
    next h =>
      simp [Recorded, requestsOf, requests, Host.replay, Host.again, h, Outcome.error?]

/-- The record of every evaluation is right. -/
def recordRules (host : Host σ ε) (limits : Limits) : Rules host limits where
  covers _ := True
  inside _ _ x := ∀ m, Recorded host m (x m)
  whole _ _ x := ∀ m, Recorded host m (x m)
  covers_child _ _ := trivial
  lift _ _ _ := rfl
  bind hx hf m := recorded_bind (hx m) fun a => hf a _
  child _ _ hx := hx
  arg _ _ _ := rfl
  param _ _ := rfl
  binding n v _ _ _ := recorded_askBind n v
  query {e} _ _ _ := recorded_askQuery e
  activation {_ _ x} _ hx m := by
    -- The requests of an activation are those that were made during it.
    have hduring := hx { m with depth := m.depth + 1 }
    unfold activation
    split
    · rfl
    · simp only
      split
      · simpa [Recorded] using hduring
      · simpa [Recorded] using hduring

/-- However the step ends, it heeds the refusals that it meets with. -/
def Heedful (x : Step σ ε α) : Prop :=
  Ends (fun es => Heeds (requestsOf es)) x

theorem heedful_lift {x : Outcome (EvalError ε) α} (hx : x.Local) :
    Heedful (Run.lift x : Step σ ε α) := by
  refine ends_lift (.inl ⟨granted_nil, ?_⟩)
  -- No error of the host comes up between two requests.
  rintro e he
  obtain rfl := Outcome.ending_eq_error.mp he
  exact hx.elim

theorem heedful_bind {x : Step σ ε α} {f : α → Step σ ε β} (hx : Heedful x)
    (hf : ∀ a, Heedful (f a)) : Heedful (x >>= f) := by
  refine ends_bind (fun as bs _ has hbs => ?_) hx hf
  rw [requestsOf_append]
  exact has.append hbs

theorem heedful_askArg (n : Nat) : Heedful (askArg host n) :=
  ⟨fun _ => rfl, fun _ => heeds_granted rfl nofun⟩

theorem heedful_askParam (n : Nat) : Heedful (askParam host n) :=
  ⟨fun _ => rfl, fun _ => heeds_granted rfl nofun⟩

theorem heedful_askBind (n : Nat) (v : Value) : Heedful (askBind host n v) :=
  ends_askBind (heeds_granted rfl nofun) fun _ _ _ => heeds_refusal rfl

theorem heedful_askQuery (q : Value) : Heedful (askQuery host q) := by
  refine ends_askQuery fun s => ?_
  cases (host.query q s).outcome with
  | ok cells => exact heeds_granted rfl nofun
  | error refusal => exact heeds_refusal rfl
  | fault f => exact heeds_granted rfl nofun

theorem heedful_activation {limits : Limits} {x : Step σ ε α} (hx : Heedful x) :
    Heedful (activation limits x) := by
  refine ends_activation (fun _ _ => .inl ⟨granted_nil, nofun⟩) (fun es o h => ?_) hx
  simpa using h

/-- Every evaluation heeds the refusals that it meets with. -/
def heedRules (host : Host σ ε) (limits : Limits) : Rules host limits where
  covers _ := True
  inside _ _ x := Heedful x
  whole _ _ x := Heedful x
  covers_child _ _ := trivial
  lift _ := heedful_lift
  bind := heedful_bind
  child _ _ hx := hx
  arg n _ := heedful_askArg n
  param _ := heedful_askParam _
  binding n v _ _ := heedful_askBind n v
  query {e} _ _ := heedful_askQuery e
  activation _ := heedful_activation

/-- What becomes of refusals in an evaluation that began with the given machine. -/
structure Surfaces (host : Host σ ε) (m : Machine σ)
    (r : Ran (Event ε) (Machine σ) (EvalError ε) α) : Prop where
  /-- The requests on record are those that were made, with the answers that they got. -/
  recorded : host.replay m.host (requestsOf r.events) = (requestsOf r.events, r.state.host)
  /-- A refused request is the last one, and its refusal is the error. -/
  refused : ∀ before event after refusal, requestsOf r.events = before ++ event :: after →
    event.refusal? = some refusal → after = [] ∧
      match refusal with
      | .own e => r.outcome = .error (.host e)
      | .limit l => r.outcome = .error (.limit l)
  /-- If no request is refused then there is no error of the host. -/
  granted : (∀ event ∈ requestsOf r.events, event.refusal? = none) →
    ∀ e, r.outcome = .error e → e.kind ≠ .delegated

theorem surfaces_of_heeds {r : Ran (Event ε) (Machine σ) (EvalError ε) α}
    (hrecorded : Recorded host m r) (hheeds : Heeds (requestsOf r.events) r.outcome.ending) :
    Surfaces host m r where
  recorded := hrecorded
  refused before event after refusal hsplit hevent := by
    obtain ⟨hlast, hending⟩ := hheeds.refused hsplit hevent
    have houtcome := Outcome.ending_eq_error.mp hending
    cases refusal with
    | own e => exact ⟨hlast, houtcome⟩
    | limit l => exact ⟨hlast, houtcome⟩
  granted hgranted e he hkind := by
    rcases hheeds with ⟨_, hhost⟩ | ⟨before, last, refusal, hsplit, _, hlast, _⟩
    · cases e with
      | host e => exact hhost e (Outcome.ending_eq_error.mpr he)
      | _ => cases hkind
    · exact absurd hlast (Granted.not_refused hgranted (by simp [hsplit]))

/-- A query that the host refuses, in the state that the requests before have left it in, is
    recorded with the refusal, which is therefore the error. -/
theorem Surfaces.of_refused_query {r : Ran (Event ε) (Machine σ) (EvalError ε) α}
    (hr : Surfaces host m r) {position : Nat} {q : Value} {refusal : Refusal ε}
    (hasked : (requestsOf r.events)[position]?.bind Event.query? = some q)
    (hrefused :
      (host.query q (host.replay m.host ((requestsOf r.events).take position)).2).outcome =
        .error refusal) :
    r.outcome = .error refusal.toEvalError := by
  obtain ⟨event, hget, hquery⟩ := Option.bind_eq_some_iff.mp hasked
  have hsplit : requestsOf r.events = (requestsOf r.events).take position ++
      event :: (requestsOf r.events).drop (position + 1) := by
    obtain ⟨hlt, rfl⟩ := List.getElem?_eq_some_iff.mp hget
    rw [List.getElem_cons_drop, List.take_append_drop]
  have hrecorded := hr.recorded
  rw [hsplit] at hrecorded
  have hagain := Host.again_of_replay hrecorded
  have hrefusal : event.refusal? = some refusal := by
    cases event with
    | query q' during recorded =>
      obtain rfl := Option.some.inj hquery
      rw [← hagain]
      show (host.query q' _).outcome.error? = _
      rw [hrefused]
      rfl
    | _ => cases hquery
  have hlast := (hr.refused _ event _ refusal hsplit hrefusal).2
  cases refusal with
  | own e => exact hlast
  | limit l => exact hlast

theorem eval_surfaces (host : Host σ ε) (limits : Limits) (e : Value) (scopes : Scopes)
    (m : Machine σ) : Surfaces host m (eval host limits e scopes m) :=
  surfaces_of_heeds ((recordRules host limits).eval trivial scopes m)
    (((heedRules host limits).eval trivial scopes).2 m)

theorem evalList_surfaces (host : Host σ ε) (limits : Limits) (e : Value) (scopes : Scopes)
    (m : Machine σ) : Surfaces host m (evalList host limits e scopes m) :=
  surfaces_of_heeds ((recordRules host limits).evalList trivial scopes m)
    (((heedRules host limits).evalList trivial scopes).2 m)

/-- Whatever the host: when it refuses a request, that is the last request of an evaluation,
    and the evaluation ends with that refusal, a limit as the same limit and any other
    as the host's error.  When it refuses none the evaluation does not end with an error of
    the host. -/
theorem refusals_surface (host : Host σ ε) (limits : Limits) (e : Value) (scopes : Scopes)
    (m : Machine σ) :
    Surfaces host m (eval host limits e scopes m) ∧
      Surfaces host m (evalList host limits e scopes m) :=
  ⟨eval_surfaces host limits e scopes m, evalList_surfaces host limits e scopes m⟩

/-- The host refuses to bind a parameter for the first element of a list: the limit that it
    reports comes through, and the second element is not looked at.  A predicate that
    asks for nothing fails by itself, as the elements are no truth values. -/
theorem refusals_surface_filter :
    let script (reply : Scripted.Reply) : Scripted.Script := ⟨[], [.param 0], [], reply, .grant⟩
    let keep (test : Value) : Value := .filter test (.list [.uint 1, .uint 2])
    let solve : Value := .node .equal [.arg 0, .param 0]
    let refused := evalList (Scripted.host (script .stack)) {} (keep solve) [] ⟨0, ()⟩
    let granted := evalList (Scripted.host (script .grant)) {} (keep (.arg 0)) [] ⟨0, ()⟩
    let l : LimitExceeded := .stackOverflow 7 7
    let own : EvalError Scripted.Error := .typeMismatch .filter .bool .uint64
    requestsOf refused.events = [.param 0] ++ [.bind 0 (.uint 1) (some (.limit l))] ∧
      refused.outcome = .error (.limit l) ∧
      granted.outcome = .error own ∧ own.kind ≠ .delegated := by
  intro script keep solve refused granted l own
  have hrequests : requestsOf refused.events =
      [.param 0] ++ [.bind 0 (.uint 1) (some (.limit l))] := by cbv
  have hgranted : requestsOf granted.events = [] := by cbv
  have herror : granted.outcome = .error own := by cbv
  have hrefused := (refusals_surface (Scripted.host (script .stack)) {} _ [] ⟨0, ()⟩).2.refused
    [.param 0] (.bind 0 (.uint 1) (some (.limit l))) [] (.limit l) hrequests rfl
  have hkind := (refusals_surface (Scripted.host (script .grant)) {} _ [] ⟨0, ()⟩).2.granted
    (by rw [hgranted]; exact granted_nil) own herror
  exact ⟨hrequests, hrefused.2, herror, hkind⟩

end Evaluator

end CellQuery
