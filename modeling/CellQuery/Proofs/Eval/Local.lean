import CellQuery.Eval.Step

/-! # What an evaluation computes by itself

    Between two requests to the host an evaluation only computes: it combines
    operands, reads fields and looks through scopes.  Such a computation is
    *local*.  It ends with a value or with an error of the evaluation's own, and
    never

    * with a fault: each partial operation is guarded by the checks before it;
    * with an error of the host;
    * with an overflow of the stack, which only an activation reports. -/

namespace CellQuery

variable {ε α β : Type}

/-- An error that an evaluation finds by itself, activations apart. -/
def EvalError.Local : EvalError ε → Prop
  | host _ => False
  | limit (.stackOverflow ..) => False
  | _ => True

namespace Outcome

/-- An ending that an evaluation reaches by itself, activations apart. -/
def Local : Outcome (EvalError ε) α → Prop
  | ok _ => True
  | error e => e.Local
  | fault _ => False

theorem local_bind {x : Outcome (EvalError ε) α} {f : α → Outcome (EvalError ε) β}
    (hx : x.Local) (hf : ∀ a, x = .ok a → (f a).Local) : (x >>= f).Local := by
  cases x with
  | ok a => exact hf a rfl
  | error e => exact hx
  | fault f => exact hx

end Outcome

open Outcome

/-! ## Operands -/

namespace Operands

theorem one_local (tag : Tag) (operands : List Value) :
    (one (ε := ε) tag operands).Local := by
  unfold one
  split <;> trivial

theorem two_local (tag : Tag) (operands : List Value) :
    (two (ε := ε) tag operands).Local := by
  unfold two
  split <;> trivial

theorem three_local (tag : Tag) (operands : List Value) :
    (three (ε := ε) tag operands).Local := by
  unfold three
  split <;> trivial

theorem uint_local (tag : Tag) (v : Value) : (uint (ε := ε) tag v).Local := by
  unfold uint
  split <;> trivial

theorem bool_local (tag : Tag) (v : Value) : (bool (ε := ε) tag v).Local := by
  unfold bool
  split <;> trivial

theorem bytes_local (tag : Tag) (v : Value) : (bytes (ε := ε) tag v).Local := by
  unfold bytes
  split <;> trivial

theorem uints_local (tag : Tag) (operands : List Value) :
    (uints (ε := ε) tag operands).Local := by
  apply local_bind (two_local tag operands)
  rintro ⟨x, y⟩ -
  apply local_bind (uint_local tag x)
  intro m _
  apply local_bind (uint_local tag y)
  intro n _
  trivial

end Operands

open Operands

/-! ## Operators -/

theorem foldBool_local (tag : Tag) (decisive : Bool) (operands : List Value) :
    (foldBool (ε := ε) tag decisive operands).Local := by
  induction operands with
  | nil => trivial
  | cons x xs ih =>
    apply local_bind (bool_local tag x)
    intro b _
    split
    · trivial
    · exact ih

theorem junction_local (tag : Tag) (decisive : Bool) (operands : List Value) :
    (junction (ε := ε) tag decisive operands).Local := by
  cases operands with
  | nil => trivial
  | cons x xs => exact foldBool_local tag decisive (x :: xs)

theorem len_local (operands : List Value) : (len (ε := ε) operands).Local := by
  apply local_bind (one_local .len operands)
  intro x _
  cases x with
  | node tag children =>
    show Outcome.Local (if tag.isRecord then _ else _)
    split <;> trivial
  | _ => trivial

theorem index_local (operands : List Value) : (index (ε := ε) operands).Local := by
  apply local_bind (two_local .index operands)
  rintro ⟨target, position⟩ -
  apply local_bind (uint_local .index position)
  intro n _
  cases target with
  | bytes data =>
    dsimp only
    split <;> trivial
  | node tag children =>
    show Outcome.Local (if tag.isRecord then _ else _)
    split
    · split <;> trivial
    · trivial
  | _ => trivial

theorem bound_local (n : UInt64) (len : Nat) : (bound (ε := ε) n len).Local := by
  unfold bound
  split <;> trivial

/-- A bound that was accepted lies within the length. -/
theorem bound_le {n : UInt64} {len position : Nat}
    (h : bound (ε := ε) n len = .ok position) : position ≤ len := by
  unfold bound at h
  split at h
  · next hle => cases h; exact hle
  · cases h

theorem slice_local (operands : List Value) : (slice (ε := ε) operands).Local := by
  apply local_bind (three_local .slice operands)
  rintro ⟨data, start, stop⟩ -
  apply local_bind (bytes_local .slice data)
  intro data _
  apply local_bind (uint_local .slice start)
  intro start _
  apply local_bind (uint_local .slice stop)
  intro stop _
  apply local_bind (bound_local start data.length)
  intro first _
  apply local_bind (bound_local stop data.length)
  intro last hlast
  by_cases hlt : last < first
  · simp only [hlt, if_true]
    trivial
  · -- The bounds are in order and within the data, so the cut is made.
    have hcut : between? data first last = some ((data.take last).drop first) :=
      if_pos ⟨Nat.le_of_not_lt hlt, bound_le hlast⟩
    simp only [hlt, if_false, hcut]
    trivial

theorem compute_local (tag : Tag) (operands : List Value) :
    (compute (ε := ε) tag operands).Local := by
  cases tag with
  | plus => exact local_bind (uints_local .plus operands) fun _ _ => trivial
  | minus => exact local_bind (uints_local .minus operands) fun _ _ => trivial
  | less => exact local_bind (uints_local .less operands) fun _ _ => trivial
  | and => exact junction_local .and false operands
  | or => exact junction_local .or true operands
  | not =>
    apply local_bind (one_local .not operands)
    intro x _
    exact local_bind (bool_local .not x) fun _ _ => trivial
  | xor =>
    apply local_bind (two_local .xor operands)
    rintro ⟨x, y⟩ -
    apply local_bind (bool_local .xor x)
    intro a _
    exact local_bind (bool_local .xor y) fun _ _ => trivial
  | hash =>
    apply local_bind (one_local .hash operands)
    intro x _
    exact local_bind (bytes_local .hash x) fun _ _ => trivial
  | len => exact len_local operands
  | index => exact index_local operands
  | slice => exact slice_local operands
  | _ => trivial

/-! ## Fields -/

/-- The position of a field lies within the fields of its record. -/
theorem field_position_lt {tag : Tag} {field : Field} (h : tag.field? = some field) :
    field.position < field.arity := by
  cases tag <;> cases h <;> decide

theorem dataHash_local (v : Value) : (dataHash (ε := ε) v).Local := by
  cases v <;> trivial

theorem project_local (tag : Tag) (record : Value) :
    (project (ε := ε) tag record).Local := by
  unfold project
  split
  · trivial
  · split
    · trivial
    · next field hfield =>
      split
      · split
        · next hlen =>
          have hlt : field.position < record.children.length := by
            rw [hlen]
            exact field_position_lt hfield
          rw [List.getElem?_eq_getElem hlt]
          show Outcome.Local (if tag = .getDataHash then _ else _)
          split
          · exact dataHash_local _
          · trivial
        · trivial
      · trivial

/-! ## Scopes -/

/-- Looking through scopes always ends within a scope or outside of all. -/
theorem find_eq_ok (scopes : Scopes) (index : Nat) :
    ∃ place, (scopes.find index : Outcome ε Scopes.Found) = .ok place := by
  induction scopes generalizing index with
  | nil => exact ⟨.outside index, rfl⟩
  | cons scope scopes ih =>
    unfold Scopes.find
    cases hget : scope[index]? with
    | some v => exact ⟨.bound v, rfl⟩
    | none =>
      have hle : scope.length ≤ index := List.getElem?_eq_none_iff.mp hget
      simp only [minus?, hle, if_true]
      exact ih (index - scope.length)

theorem find_local (scopes : Scopes) (index : Nat) :
    (scopes.find index : Outcome (EvalError ε) Scopes.Found).Local := by
  obtain ⟨place, hplace⟩ := find_eq_ok (ε := EvalError ε) scopes index
  rw [hplace]
  trivial

end CellQuery
