import CellQuery.Proofs.Host.Binding
import CellQuery.Proofs.Host.Follows

/-! # The host with its guards

    Two things that the host in memory relies on leave no trace in its state.  The store
    of solved parameters is lent out to readers or to one writer, and may not be lent to
    a writer while anyone else has it, nor to anyone while a writer has it.  And the
    charge of a predicate is never more than the larger of the charge around it and the
    height of the predicate.

    A *guarded* state tells how the store is lent out.  Where a partial operation would be
    applied outside its domain the guard is lost, and it stays lost.  The guarded host
    does what the host does, and in addition:

    * looks into the store (`Guarded.param`, the snapshot before a cell) as a reader;
    * writes to it (`Guarded.bind`, what is put back after a cell) as a writer;
    * compares the charge with its bound.

    `Memory.follows_answer_under` and `Memory.follows_eval_under`: from a state in which nothing is
    lent out the guarded host does the same as the host, and nothing is lent out
    afterwards. -/

namespace CellQuery

namespace Memory

/-! ## Borrows -/

/-- How a store is lent out. -/
inductive Borrow where
  /-- Nobody has it. -/
  | free
  /-- Readers have it: one, and the given number of others. -/
  | shared (others : Nat)
  /-- A writer has it. -/
  | exclusive
  deriving DecidableEq

namespace Borrow

/-- Lends the store to a reader, unless a writer has it. -/
def read? : Borrow → Option Borrow
  | free => some (shared 0)
  | shared others => some (shared (others + 1))
  | exclusive => none

/-- Lends the store to a writer, if nobody has it. -/
def write? : Borrow → Option Borrow
  | free => some exclusive
  | _ => none

/-- Takes the store back from one who has it. -/
def release? : Borrow → Option Borrow
  | free => none
  | shared 0 => some free
  | shared (others + 1) => some (shared others)
  | exclusive => some free

end Borrow

/-! ## Guarded states -/

/-- A state of the host and how its store is lent out; once a partial operation has been
    applied outside its domain, there is no telling. -/
structure Guarded where
  state : State
  guard : Option Borrow

namespace Guarded

/-- Applies a partial operation to the guard. -/
def lend (operation : Borrow → Option Borrow) (g : Guarded) : Guarded :=
  { g with guard := g.guard.bind operation }

/-- The store is lent to a reader and taken back. -/
def reading (g : Guarded) : Guarded :=
  (g.lend Borrow.read?).lend Borrow.release?

/-- The store is lent to a writer and taken back. -/
def writing (g : Guarded) : Guarded :=
  (g.lend Borrow.write?).lend Borrow.release?

/-- The guard is lost unless the condition holds. -/
def require (p : Prop) [Decidable p] (g : Guarded) : Guarded :=
  if p then g else { g with guard := none }

/-! ### Requests -/

/-- The value of a parameter.  Only one that was declared without a value is looked up in
    the store. -/
def param (index : Nat) (g : Guarded) : Option Value × Guarded :=
  match g.state.slots[index]? with
  | none => (Memory.param index g.state, g)
  | some (.supplied _) => (Memory.param index g.state, g)
  | some _ => (Memory.param index g.state, g.reading)

/-- A request to bind has the store for itself from the moment that the parameter is known
    to be declared. -/
def bind (index : Nat) (value : Value) (g : Guarded) :
    Except (Refusal Error) Unit × Guarded :=
  match g.state.slots[index]? with
  | none => ((Memory.bind index value g.state).1, g)
  | some _ =>
    let held := g.lend Borrow.write?
    let (done, state) := Memory.bind index value held.state
    (done, { held with state }.lend Borrow.release?)

/-- What has been solved. -/
def bindings (g : Guarded) : List (Nat × Value) × Guarded :=
  (g.state.bindings, g.reading)

/-- Forgets what has been solved. -/
def resetBindings (g : Guarded) : Guarded :=
  { g with state := g.state.resetBindings }.writing

/-! ### Queries -/

/-- A part of the answer to a query on the guarded host. -/
abbrev Step (α : Type) := Run (Event Error) Guarded (Refusal Error) α

/-- A step after which the parameters are what they were before.  The reader that takes the
    snapshot gives the store back before the step, and the writer comes after it. -/
def forgetting {α : Type} (step : Step α) : Step α := fun g =>
  let slots := g.state.slots
  let r := step g.reading
  { r with state := { r.state with state := { r.state.state with slots } }.writing }

/-- A step under the charge of a predicate, which is compared with its bound. -/
def charged {α : Type} (data : Data) (predicate : Value) (step : Limits → Step α) : Step α :=
  fun g =>
    let reach := predicate.scanHeight
    let used := levelsUsed g.state.charge reach
    let limits := { data.limits with maxDepth := data.limits.maxDepth - used }
    let entered := g.require (used + reach ≤ max g.state.charge reach)
    let r := step limits { entered with state := { g.state with charge := used + reach } }
    { r with state := { r.state with state := { r.state.state with charge := g.state.charge } } }

/-- The cells that a predicate accepts, in order. -/
def filterCells (host : Host Guarded Error) (limits : Limits) (predicate : Value)
    (cells : List Value) : Step (List Value) := do
  let accepted ← Run.keep
    (fun (cell, position) => forgetting (matchesCell host limits predicate position cell))
    cells.zipIdx
  return accepted.map Prod.fst

/-- The guarded host, given how it answers queries. -/
def hostWith (data : Data) (query : Value → Step (List Value)) : Host Guarded Error where
  arg index g := (data.args[index]?, g)
  param := param
  bind := bind
  query := query

/-- The answer to a query within which queries nest at most as deep as the given number. -/
def answerWithin (data : Data) : Nat → Value → Step (List Value)
  | 0, _ => Run.fault .queryNesting
  | depth + 1, query =>
    match query.children with
    | [] => pure data.cells
    | [predicate] =>
      charged data predicate fun limits =>
        filterCells (hostWith data (answerWithin data depth)) limits predicate data.cells
    | children => Run.fail (.own (.malformedQuery children.length))

/-- The answer to a query. -/
def answer (data : Data) (query : Value) : Step (List Value) :=
  answerWithin data query.height query

/-- The guarded host. -/
def host (data : Data) : Host Guarded Error :=
  hostWith data (answer data)

end Guarded

/-! ## Guards at rest -/

/-- To take a borrow and give it back changes nothing about the guard. -/
structure AtRest (guard : Option Borrow) : Prop where
  read : (guard.bind Borrow.read?).bind Borrow.release? = guard
  write : (guard.bind Borrow.write?).bind Borrow.release? = guard

/-- Anyone who has the store keeps a writer out, and a writer keeps readers out too. -/
theorem atRest_iff {guard : Option Borrow} :
    AtRest guard ↔ guard = some .free ∨ guard = none := by
  constructor
  · intro h
    match guard with
    | none => exact .inr rfl
    | some .free => exact .inl rfl
    | some (.shared _) => cases h.write
    | some .exclusive => cases h.read
  · rintro (rfl | rfl)
    · exact ⟨rfl, rfl⟩
    · exact ⟨rfl, rfl⟩

theorem atRest_free : AtRest (some .free) :=
  atRest_iff.mpr (.inl rfl)

/-- A lost guard does not come back. -/
theorem atRest_lost : AtRest none :=
  atRest_iff.mpr (.inr rfl)

/-- The state under a guard. -/
def State.under (guard : Option Borrow) (s : State) : Guarded :=
  ⟨s, guard⟩

variable {guard : Option Borrow}

theorem reading_under (h : AtRest guard) (s : State) :
    (s.under guard).reading = s.under guard :=
  congrArg (Guarded.mk s) h.read

theorem writing_under (h : AtRest guard) (s : State) :
    (s.under guard).writing = s.under guard :=
  congrArg (Guarded.mk s) h.write

/-- What a parameter is does not depend on the guard. -/
theorem param_under (h : AtRest guard) (index : Nat) (s : State) :
    Guarded.param index (s.under guard) = (param index s, s.under guard) := by
  have hreading := reading_under h s
  unfold Guarded.param
  split
  · rfl
  · rfl
  · exact congrArg (Prod.mk _) hreading

/-- A request to bind is granted or refused under a guard as it is without, and gives back
    what it borrows. -/
theorem bind_under (h : AtRest guard) (index : Nat) (value : Value) (s : State) :
    Guarded.bind index value (s.under guard) =
      ((bind index value s).1, (bind index value s).2.under guard) := by
  unfold Guarded.bind
  split
  · next hslot =>
    have hslot' : s.slots[index]? = none := hslot
    have hstate : (bind index value s).2 = s := by rw [bind_of_none hslot']
    rw [hstate]
    rfl
  · exact congrArg (Prod.mk _) (congrArg (Guarded.mk _) h.write)

/-! ## Requests and queries -/

/-- What is done on the host is done under the guard. -/
abbrev FollowsUnder (guard : Option Borrow) {α : Type} (x : Step α) (y : Guarded.Step α) : Prop :=
  Run.Follows (fun _ => True) (State.under guard) x y

theorem follows_requests (h : AtRest guard) (data : Data) (query₁ : Value → Step (List Value))
    (query₂ : Value → Guarded.Step (List Value)) :
    (hostWith data query₁).Follows (fun _ => True) (State.under guard)
      (Guarded.hostWith data query₂) where
  arg _ _ _ := ⟨trivial, rfl⟩
  param n s _ := ⟨trivial, param_under h n s⟩
  bind n v s _ := ⟨trivial, bind_under h n v s⟩

theorem follows_forgetting_under {α : Type} {x : Step α} {y : Guarded.Step α} (h : AtRest guard)
    (hxy : FollowsUnder guard x y) :
    FollowsUnder guard (forgetting x) (Guarded.forgetting y) := by
  intro s _
  obtain ⟨_, hsame⟩ := hxy s trivial
  refine ⟨trivial, ?_⟩
  simp only [Guarded.forgetting, reading_under h, hsame]
  exact congrArg (Ran.mk _ · _) (writing_under h { (x s).state with slots := s.slots })

/-- The levels in use and those that a predicate adds are within the larger of the charge
    around it and its height. -/
theorem levelsUsed_add_le (charge reach : Nat) :
    levelsUsed charge reach + reach ≤ max charge reach := by
  unfold levelsUsed
  omega

theorem follows_charged_under {α : Type} {data : Data} {predicate : Value} {x : Limits → Step α}
    {y : Limits → Guarded.Step α} (h : ∀ limits, FollowsUnder guard (x limits) (y limits)) :
    FollowsUnder guard (charged data predicate x) (Guarded.charged data predicate y) := by
  intro s _
  refine ⟨trivial, ?_⟩
  have hbound := levelsUsed_add_le s.charge predicate.scanHeight
  simp only [Guarded.charged, Guarded.require, State.under, hbound, if_true]
  obtain ⟨_, hsame⟩ := h
    { data.limits with
      maxDepth := data.limits.maxDepth - levelsUsed s.charge predicate.scanHeight }
    { s with charge := levelsUsed s.charge predicate.scanHeight + predicate.scanHeight } trivial
  exact congrArg (fun r : Ran (Event Error) Guarded (Refusal Error) α =>
    { r with state := { r.state with state := { r.state.state with charge := s.charge } } }) hsame

theorem follows_filterCells_under (h : AtRest guard) {host₁ : Host State Error}
    {host₂ : Host Guarded Error} {limits : Limits} {predicate : Value}
    (heval : ∀ scopes, Evaluator.FollowsOnHost (fun _ => True) (State.under guard)
      (Evaluator.eval host₁ limits predicate scopes) (Evaluator.eval host₂ limits predicate scopes))
    (cells : List Value) :
    FollowsUnder guard (filterCells host₁ limits predicate cells)
      (Guarded.filterCells host₂ limits predicate cells) := by
  apply Run.follows_bind
  · exact Run.follows_keep (fun (cell, position) =>
      follows_forgetting_under h (follows_matchesCell (heval [[cell]]) position)) cells.zipIdx
  · exact fun accepted => Run.follows_lift (.ok (accepted.map Prod.fst))

/-- Queries are answered under a guard as they are without, however deep they nest. -/
theorem follows_answerWithin_under (h : AtRest guard) (data : Data) (depth : Nat) (q : Value) :
    FollowsUnder guard (answerWithin data depth q) (Guarded.answerWithin data depth q) := by
  induction depth generalizing q with
  | zero => exact Run.follows_lift (.fault .queryNesting)
  | succ depth ih =>
    unfold answerWithin Guarded.answerWithin
    match q.children with
    | [] => exact Run.follows_lift (.ok data.cells)
    | [predicate] =>
      apply follows_charged_under
      intro limits
      apply follows_filterCells_under h
      exact fun scopes => (Evaluator.followsCoupling (follows_requests h data _ _) limits).eval
        (fun q _ _ => ih q) rfl
    | _ :: _ :: _ => exact Run.follows_lift _

theorem follows_answer_under (h : AtRest guard) (data : Data) (q : Value) :
    FollowsUnder guard (answer data q) (Guarded.answer data q) :=
  follows_answerWithin_under h data q.height q

/-! ## Evaluations -/

/-- Evaluations on the host and on the guarded host. -/
def guardedCoupling (h : AtRest guard) (data : Data) (limits : Limits) :
    Evaluator.Coupling (host data) limits (Guarded.host data) limits :=
  Evaluator.followsCoupling (follows_requests h data _ _) limits

theorem follows_eval_under (h : AtRest guard) (data : Data) (limits : Limits) (e : Value)
    (scopes : Scopes) :
    Evaluator.FollowsOnHost (fun _ => True) (State.under guard)
      (Evaluator.eval (host data) limits e scopes)
      (Evaluator.eval (Guarded.host data) limits e scopes) :=
  (guardedCoupling h data limits).eval (fun q _ _ => follows_answer_under h data q) (Eq.refl scopes)

theorem follows_evalList_under (h : AtRest guard) (data : Data) (limits : Limits) (e : Value)
    (scopes : Scopes) :
    Evaluator.FollowsOnHost (fun _ => True) (State.under guard)
      (Evaluator.evalList (host data) limits e scopes)
      (Evaluator.evalList (Guarded.host data) limits e scopes) :=
  (guardedCoupling h data limits).evalList (fun q _ _ => follows_answer_under h data q)
    (Eq.refl scopes)

/-- A guard that is lost is not found again, so one that is there at the end was never lost. -/
theorem guard_stays_lost (data : Data) (limits : Limits) (e : Value) (scopes : Scopes)
    (m : Machine State) :
    (Evaluator.eval (Guarded.host data) limits e scopes
      (Evaluator.onHost (State.under none) m)).state.host.guard = none := by
  rw [(follows_eval_under atRest_lost data limits e scopes m trivial).2]
  rfl

end Memory

end CellQuery
