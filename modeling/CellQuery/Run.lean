/-! # Runs: effects in order

    A run takes a state, and yields an outcome, a new state and the events that
    it made, in order.  It ends in one of three ways:

    * with a value;
    * with an error, which is an answer like any other;
    * with a fault: a partial operation was applied outside its domain.  Faults
      are kept apart from errors so that their absence can be stated.

    The combinators run their parts from left to right and stop at the first
    part that does not end with a value. -/

namespace CellQuery

/-! ### Outcomes -/

/-- A partial operation that was applied outside its domain. -/
inductive Fault where
  /-- A scope was skipped although it holds the index. -/
  | scopeIndex
  /-- An activation was left that had not been entered. -/
  | depthCounter
  /-- A field was read past the end of a record. -/
  | fieldPosition
  /-- A slice was cut with bounds out of order or past the end. -/
  | sliceBounds
  /-- Queries nest deeper than the expression that holds them. -/
  | queryNesting
  deriving DecidableEq

/-- How a computation ends. -/
inductive Outcome (ε α : Type) where
  | ok (value : α)
  | error (e : ε)
  | fault (f : Fault)
  deriving DecidableEq

namespace Outcome

variable {ε ε' α β : Type}

/-- Continues with the value. -/
def bind (x : Outcome ε α) (f : α → Outcome ε β) : Outcome ε β :=
  match x with
  | ok a => f a
  | error e => error e
  | fault f => fault f

instance : Monad (Outcome ε) where
  pure := ok
  bind := bind

/-- The same ending with the error seen otherwise. -/
def mapError (f : ε → ε') : Outcome ε α → Outcome ε' α
  | ok a => ok a
  | error e => error (f e)
  | fault f => fault f

/-- The value of a partial operation, or its fault. -/
def ofOption (f : Fault) : Option α → Outcome ε α
  | some a => ok a
  | none => fault f

end Outcome

/-- The difference of two naturals, if there is one. -/
def minus? (a b : Nat) : Option Nat :=
  if b ≤ a then some (a - b) else none

/-! ### Runs -/

/-- What a run leaves behind. -/
structure Ran (ω σ ε α : Type) where
  outcome : Outcome ε α
  state : σ
  events : List ω

/-- A computation on a state of type `σ` that makes events of type `ω`. -/
def Run (ω σ ε α : Type) : Type :=
  σ → Ran ω σ ε α

namespace Run

variable {ω σ ε α β : Type}

/-- Ends with a value and does nothing. -/
def pure (a : α) : Run ω σ ε α :=
  fun s => ⟨.ok a, s, []⟩

/-- One run after another. -/
def bind (x : Run ω σ ε α) (f : α → Run ω σ ε β) : Run ω σ ε β :=
  fun s =>
    let r := x s
    match r.outcome with
    | .ok a =>
      let t := f a r.state
      ⟨t.outcome, t.state, r.events ++ t.events⟩
    | .error e => ⟨.error e, r.state, r.events⟩
    | .fault f => ⟨.fault f, r.state, r.events⟩

instance : Monad (Run ω σ ε) where
  pure := pure
  bind := bind

/-- Ends with an outcome and does nothing. -/
def lift (x : Outcome ε α) : Run ω σ ε α :=
  fun s => ⟨x, s, []⟩

/-- Ends with an error and does nothing. -/
def fail (e : ε) : Run ω σ ε α :=
  lift (.error e)

/-- Ends with a fault and does nothing. -/
def fault (f : Fault) : Run ω σ ε α :=
  lift (.fault f)

/-- Ends with an error if there is one. -/
def check : Option ε → Run ω σ ε Unit
  | none => pure ()
  | some e => fail e

/-! ### Loops over lists -/

/-- The results for all elements. -/
def each (f : α → Run ω σ ε β) : List α → Run ω σ ε (List β)
  | [] => pure []
  | x :: xs => do
    let y ← f x
    let ys ← each f xs
    return y :: ys

/-- An accumulator taken through all elements. -/
def fold (f : β → α → Run ω σ ε β) (acc : β) : List α → Run ω σ ε β
  | [] => pure acc
  | x :: xs => do
    let acc ← f acc x
    fold f acc xs

/-- The elements that the test accepts, in order. -/
def keep (test : α → Run ω σ ε Bool) : List α → Run ω σ ε (List α)
  | [] => pure []
  | x :: xs => do
    let accepted ← test x
    let kept ← keep test xs
    return if accepted then x :: kept else kept

end Run

end CellQuery
