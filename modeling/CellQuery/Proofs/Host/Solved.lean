import CellQuery.Proofs.Host.Answer
import CellQuery.Proofs.Host.Binding
import CellQuery.Proofs.Host.Follows
import CellQuery.Session

/-! # Solved parameters

    A parameter that was solved is the same to an evaluation as one that the caller
    supplied.  Two hosts that differ in one parameter only, supplied on one of
    them and solved with the same value on the other, are told apart by no request
    but the one that forgets what has been solved:

    * A request to bind is granted or refused alike, because the parameter has a value
      on both hosts and the same one.  So the host follows itself from a state with the
      parameter supplied to the state with it solved.
    * Evaluations and queries therefore do, and whole sessions do. -/

namespace CellQuery

namespace Memory

open Run Evaluator

/-! ## The parameter -/

/-- The caller has supplied a value for the parameter. -/
def Supplied (i : Nat) (v : Value) (s : State) : Prop :=
  s.slots[i]? = some (.supplied v)

variable {i : Nat} {v : Value} {s : State}

/-- No parameter changes its value. -/
theorem value?_withSolved (h : Supplied i v s) (index : Nat) :
    (s.withSolved i v).slots[index]?.map Slot.value? = s.slots[index]?.map Slot.value? := by
  by_cases hi : index = i
  · subst hi
    have hslot : s.slots[index]? = some (.supplied v) := h
    obtain ⟨hlt, _⟩ := List.getElem?_eq_some_iff.mp hslot
    simp only [State.withSolved, List.getElem?_set_self hlt, hslot, Option.map_some, Slot.value?]
  · simp only [State.withSolved, List.getElem?_set_ne (Ne.symm hi)]

theorem param_withSolved (h : Supplied i v s) (index : Nat) :
    param index (s.withSolved i v) = param index s := by
  have hvalue := congrArg (Option.map fun value? => value?.getD (.param (UInt64.ofNat index)))
    (value?_withSolved h index)
  rw [Option.map_map, Option.map_map] at hvalue
  exact hvalue

/-- A request to bind is granted or refused alike, and leaves the parameter alone. -/
theorem bind_withSolved (h : Supplied i v s) (index : Nat) (w : Value) :
    Supplied i v (bind index w s).2 ∧
      bind index w (s.withSolved i v) =
        ((bind index w s).1, (bind index w s).2.withSolved i v) := by
  have hkept {u : Value} (hu : s.Holds index u) : (s.withSolved i v).Holds index u :=
    State.holds_iff.mpr ((value?_withSolved h index).trans (State.holds_iff.mp hu))
  rcases bind_cases index w s with
    ⟨hslot, hbind⟩ | ⟨hw, hbind⟩ | ⟨u, hu, hne, hbind⟩ | ⟨hslot, hbind⟩
  · have hslot₂ : (s.withSolved i v).slots[index]? = none := by
      simpa [hslot] using value?_withSolved h index
    have hlength : (s.withSolved i v).slots.length = s.slots.length := List.length_set
    rw [hbind, bind_of_none hslot₂, hlength]
    exact ⟨h, rfl⟩
  · rw [hbind, bind_of_holds (hkept hw), if_pos rfl]
    exact ⟨h, rfl⟩
  · rw [hbind, bind_of_holds (hkept hu), if_neg hne]
    exact ⟨h, rfl⟩
  · -- Only an unbound parameter takes the value, and this one is supplied.
    have hne : index ≠ i := by
      rintro rfl
      rw [show s.slots[index]? = some (.supplied v) from h] at hslot
      cases hslot
    have hslot₂ : (s.withSolved i v).slots[index]? = some .unbound := by
      rw [← hslot]
      exact List.getElem?_set_ne (Ne.symm hne)
    rw [hbind, bind_of_unbound hslot₂]
    refine ⟨?_, ?_⟩
    · show (s.slots.set index (.solved w))[i]? = _
      rw [List.getElem?_set_ne hne]
      exact h
    · simp only [State.withSolved]
      rw [List.set_comm _ _ (Ne.symm hne)]

/-! ## Evaluations -/

/-- What is done on the host with the parameter supplied is done with it solved. -/
abbrev FollowsSolved {α : Type} (i : Nat) (v : Value) (x : Step α) : Prop :=
  Follows (Supplied i v) (State.withSolved i v) x x

/-- No request but a query tells the two hosts apart. -/
theorem host_follows_solved (data : Data) (i : Nat) (v : Value) :
    (host data).Follows (Supplied i v) (State.withSolved i v) (host data) where
  arg _ _ hs := ⟨hs, rfl⟩
  param n s hs := ⟨hs, congrArg (·, s.withSolved i v) (param_withSolved hs n)⟩
  bind n w _ hs := bind_withSolved hs n w

/-- Evaluations of an expression whose queries do not tell the two hosts apart. -/
def solvedCoupling (data : Data) (limits : Limits) (i : Nat) (v : Value) :
    Coupling (host data) limits (host data) limits :=
  followsCoupling (host_follows_solved data i v) limits

/-! ## Queries -/

theorem follows_forgetting {α : Type} {x : Step α} (h : FollowsSolved i v x) :
    FollowsSolved i v (forgetting x) := by
  intro s hs
  obtain ⟨_, hsame⟩ := h s hs
  refine ⟨hs, ?_⟩
  simp only [forgetting, hsame]
  rfl

/-- No query tells the two hosts apart. -/
theorem follows_answer (data : Data) (q : Value) : FollowsSolved i v (answer data q) := by
  induction q using query_induction with
  | step q ih =>
    rw [answer_eq]
    match hq : q.children with
    | [] => exact follows_lift (.ok data.cells)
    | _ :: _ :: _ => exact follows_lift _
    | [predicate] =>
      intro s hs
      have hcell : ∀ entry : Value × Nat, FollowsSolved i v
          (forgetting (matchesCell (host data) (limitsFor data s predicate) predicate
            entry.2 entry.1)) := by
        intro ⟨cell, position⟩
        have heval := (solvedCoupling data (limitsFor data s predicate) i v).eval
          (ih predicate hq) (Eq.refl [[cell]])
        exact follows_forgetting (follows_matchesCell heval position)
      have hfilter := follows_bind (follows_keep hcell data.cells.zipIdx)
        fun accepted => follows_lift (.ok (accepted.map Prod.fst))
      -- The charge of the query is the same on both hosts.
      obtain ⟨hinv, hsame⟩ := hfilter (stateFor s predicate) hs
      have hfiltered : filterCells (host data) (limitsFor data s predicate) predicate data.cells
          ((stateFor s predicate).withSolved i v) = _ := hsame
      simp only [charged_apply]
      refine ⟨hinv, ?_⟩
      exact congrArg (fun r : Ran (Event Error) State (Refusal Error) (List Value) =>
        { r with state := { r.state with charge := s.charge } }) hfiltered

end Memory

end CellQuery
