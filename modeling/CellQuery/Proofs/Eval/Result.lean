import CellQuery.Eval.Step
import CellQuery.Proofs.Run

/-! # Where results come from

    An evaluation makes numbers, truth values, byte strings and `NIL`, and nothing else.  Every
    other result is a field of a record that it was given:

    * `compute_ensures`: an operator yields a scalar or a field of an operand;
    * `project_ensures`: a `GET_…` yields a scalar or a field of its record;
    * `find_ensures`: what is found in scopes is a value of one of them;
    * `binding?_eq_some`: `EQUAL` asks for the binding of a parameter to the other operand, which
      is neither `NIL` nor a parameter. -/

namespace CellQuery

/-- A number, a truth value, a byte string or `NIL`. -/
def Value.IsScalar : Value → Prop
  | uint _ | nil | bool _ | bytes _ => True
  | _ => False

/-- A scalar, or a field of one of the given values. -/
def Value.MadeFrom (sources : List Value) (v : Value) : Prop :=
  v.IsScalar ∨ ∃ source ∈ sources, v ∈ source.children

variable {ε α β : Type}

open Outcome Operands

/-- What is known of every continuation is known of the whole. -/
theorem Outcome.ensures_bind_any {P : β → Prop} {x : Outcome ε α} {f : α → Outcome ε β}
    (hf : ∀ a, (f a).Ensures P) : (x >>= f).Ensures P :=
  ensures_bind (ensures_const True.intro x) fun a _ => hf a

/-! ## Operators -/

theorem foldBool_scalar (tag : Tag) (decisive : Bool) (operands : List Value) :
    (foldBool (ε := ε) tag decisive operands).Ensures Value.IsScalar := by
  induction operands with
  | nil => trivial
  | cons x xs ih =>
    apply ensures_bind_any
    intro b
    split
    · trivial
    · exact ih

theorem junction_scalar (tag : Tag) (decisive : Bool) (operands : List Value) :
    (junction (ε := ε) tag decisive operands).Ensures Value.IsScalar := by
  cases operands with
  | nil => trivial
  | cons x xs => exact foldBool_scalar tag decisive (x :: xs)

theorem len_scalar (operands : List Value) :
    (len (ε := ε) operands).Ensures Value.IsScalar := by
  apply ensures_bind_any
  intro x
  cases x with
  | node tag children =>
    show Outcome.Ensures _ (if tag.isRecord then _ else _)
    split <;> trivial
  | _ => trivial

theorem slice_scalar (operands : List Value) :
    (slice (ε := ε) operands).Ensures Value.IsScalar := by
  apply ensures_bind_any
  rintro ⟨data, start, stop⟩
  apply ensures_bind_any
  intro data
  apply ensures_bind_any
  intro start
  apply ensures_bind_any
  intro stop
  apply ensures_bind_any
  intro first
  apply ensures_bind_any
  intro last
  show Outcome.Ensures _ (if last < first then _ else _)
  split
  · trivial
  · exact ensures_bind_any fun _ => trivial

theorem two_ensures (tag : Tag) (operands : List Value) :
    (two (ε := ε) tag operands).Ensures fun pair => operands = [pair.1, pair.2] := by
  unfold two
  split
  · rfl
  · trivial

theorem index_ensures (operands : List Value) :
    (index (ε := ε) operands).Ensures (Value.MadeFrom operands) := by
  apply ensures_bind (two_ensures .index operands)
  rintro ⟨target, position⟩ rfl
  apply ensures_bind_any
  intro n
  cases target with
  | bytes data =>
    dsimp only
    split
    · exact .inl trivial
    · trivial
  | node tag children =>
    show Outcome.Ensures _ (if tag.isRecord then _ else _)
    split
    · split
      · next v hget =>
        exact .inr ⟨.node tag children, List.mem_cons_self, List.mem_of_getElem? hget⟩
      · trivial
    · trivial
  | _ => trivial

/-- Of all operators only `INDEX` yields anything but scalars. -/
theorem compute_ensures (tag : Tag) (operands : List Value) :
    (compute (ε := ε) tag operands).Ensures (Value.MadeFrom operands) := by
  by_cases hindex : tag = .index
  · subst hindex
    exact index_ensures operands
  · refine Ensures.imp (P := Value.IsScalar) ?_ fun _ h => .inl h
    cases tag with
    | plus => exact ensures_bind_any fun _ => trivial
    | minus => exact ensures_bind_any fun _ => trivial
    | less => exact ensures_bind_any fun _ => trivial
    | and => exact junction_scalar .and false operands
    | or => exact junction_scalar .or true operands
    | not => exact ensures_bind_any fun _ => ensures_bind_any fun _ => trivial
    | xor =>
      exact ensures_bind_any fun _ => ensures_bind_any fun _ => ensures_bind_any fun _ => trivial
    | hash => exact ensures_bind_any fun _ => ensures_bind_any fun _ => trivial
    | len => exact len_scalar operands
    | slice => exact slice_scalar operands
    | index => exact absurd rfl hindex
    | _ => trivial

/-! ## Fields -/

theorem dataHash_scalar (v : Value) : (dataHash (ε := ε) v).Ensures Value.IsScalar := by
  cases v <;> trivial

theorem project_ensures (tag : Tag) (record : Value) :
    (project (ε := ε) tag record).Ensures (Value.MadeFrom [record]) := by
  unfold project
  split
  · exact .inl trivial
  · split
    · trivial
    · next field _ =>
      split
      · split
        · cases hget : record.children[field.position]? with
          | none => trivial
          | some v =>
            show Outcome.Ensures _ (if tag = .getDataHash then dataHash v else .ok v)
            split
            · exact (dataHash_scalar v).imp fun _ h => .inl h
            · exact .inr ⟨record, List.mem_cons_self, List.mem_of_getElem? hget⟩
        · trivial
      · trivial

/-! ## Scopes -/

/-- What is found in scopes is a value of one of them. -/
theorem find_ensures (scopes : Scopes) (index : Nat) :
    (scopes.find index : Outcome (EvalError ε) Scopes.Found).Ensures
      fun place => ∀ v, place = .bound v → ∃ scope ∈ scopes, v ∈ scope := by
  induction scopes generalizing index with
  | nil => rintro v ⟨⟩
  | cons scope scopes ih =>
    unfold Scopes.find
    split
    · next w hget =>
      rintro v ⟨⟩
      exact ⟨scope, List.mem_cons_self, List.mem_of_getElem? hget⟩
    · split
      · next n _ =>
        refine (ih n).imp fun place hplace v hv => ?_
        obtain ⟨outer, hmem, hv⟩ := hplace v hv
        exact ⟨outer, List.mem_cons_of_mem scope hmem, hv⟩
      · trivial

/-! ## Bindings -/

theorem Value.isParam_eq_false {v : Value} (h : ∀ i, v ≠ param i) : v.isParam = false := by
  cases v with
  | param i => exact absurd rfl (h i)
  | _ => rfl

namespace Evaluator

/-- The side that a parameter is to be bound to. -/
theorem side_eq_some {i j : UInt64} {side v : Value} (hside : ∀ k, side ≠ .param k)
    (h : (if side.isNil then none else some (j, side)) = some (i, v)) :
    (j = i ∧ side = v) ∧ v.isNil = false ∧ v.isParam = false := by
  by_cases hnil : side.isNil = true
  · simp [hnil] at h
  · simp only [hnil] at h
    obtain ⟨rfl, rfl⟩ := Prod.mk.inj (Option.some.inj h)
    exact ⟨⟨rfl, rfl⟩, Bool.eq_false_iff.mpr hnil, Value.isParam_eq_false hside⟩

/-- `EQUAL` binds a parameter on one side to the other side. -/
theorem binding?_eq_some {x y v : Value} {i : UInt64} (h : binding? x y = some (i, v)) :
    (x = .param i ∧ y = v ∨ x = v ∧ y = .param i) ∧ v.isNil = false ∧ v.isParam = false := by
  unfold binding? at h
  split at h
  · cases h
  · next hside =>
    obtain ⟨⟨rfl, rfl⟩, hv⟩ := side_eq_some hside h
    exact ⟨.inl ⟨rfl, rfl⟩, hv⟩
  · next hside =>
    obtain ⟨⟨rfl, rfl⟩, hv⟩ := side_eq_some hside h
    exact ⟨.inr ⟨rfl, rfl⟩, hv⟩
  · cases h

end Evaluator

end CellQuery
