import CellQuery.Proofs.Eval.Rules

/-! # Malformed expressions

    Whether an expression can have a value, or stand for a list, is decided first of all by
    its tag and the number of its children.  An expression of the wrong form is *malformed*
    in the position where it stands.  However it is evaluated, it yields nothing:

    * `compute_formed`: an operator has a result only for as many operands as it takes;
    * `Evaluator.eval_formed` and `Evaluator.evalList_formed`: an expression with a result
      has the form that its position asks for.

    So the checks on which partial operations rely are made for every expression, and not
    only for those that a caller took care to build well. -/

namespace CellQuery

/-! ## Forms -/

/-- A node with the tag and the given number of children can have a value. -/
def Tag.formsValue (children : Nat) : Tag → Bool
  | uint64 | nil | bool | bytes => true
  | apply | and | or => 1 ≤ children
  | hash | not | len => children = 1
  | getCapacity | getData | getLock | getType | getDataHash | getOutPoint | getCodeHash
  | getHashType | getArgs => children = 1
  | equal | less | plus | minus | xor | index => children = 2
  | reduce | slice => children = 3
  | _ => false

/-- A node with the tag and the given number of children can stand for a list. -/
def Tag.formsList (children : Nat) : Tag → Bool
  | list => true
  | map | filter => children = 2
  | queryCells => children ≤ 1
  | _ => false

/-- The expression has the form that its position asks for. -/
def Value.formed : Position → Value → Bool
  | .value, node tag children => tag.formsValue children.length
  | .value, _ => true
  | .list, node tag children => tag.formsList children.length
  | .list, _ => false

theorem Tag.formsValue_of_primitive {tag : Tag} (h : tag.nodeClass = .primitive) (n : Nat) :
    tag.formsValue n = true := by
  cases tag <;> first | rfl | exact absurd h (by decide)

theorem Tag.formsValue_of_get {tag : Tag} (h : tag.nodeClass = .structuralGet) :
    tag.formsValue 1 = true := by
  cases tag <;> first | rfl | exact absurd h (by decide)

/-! ## Operators -/

variable {σ ε α : Type}

open Outcome Operands

theorem one_length (tag : Tag) (operands : List Value) :
    (one (ε := ε) tag operands).Ensures fun _ => operands.length = 1 := by
  unfold one
  split
  · rfl
  · trivial

theorem two_length (tag : Tag) (operands : List Value) :
    (two (ε := ε) tag operands).Ensures fun _ => operands.length = 2 :=
  (two_ensures tag operands).imp fun _ h => congrArg List.length h

theorem three_length (tag : Tag) (operands : List Value) :
    (three (ε := ε) tag operands).Ensures fun _ => operands.length = 3 := by
  unfold three
  split
  · rfl
  · trivial

theorem uints_length (tag : Tag) (operands : List Value) :
    (uints (ε := ε) tag operands).Ensures fun _ => operands.length = 2 :=
  ensures_first (two_length tag operands)

theorem junction_length (tag : Tag) (decisive : Bool) (operands : List Value) :
    (junction (ε := ε) tag decisive operands).Ensures fun _ => 1 ≤ operands.length := by
  cases operands with
  | nil => trivial
  | cons x xs => exact ensures_const (Nat.le_add_left 1 xs.length) _

/-- An operator has a result only for as many operands as it takes. -/
theorem compute_formed (tag : Tag) (operands : List Value) :
    (compute (ε := ε) tag operands).Ensures fun _ => tag.formsValue operands.length = true := by
  cases tag with
  | plus => exact ensures_first ((uints_length .plus operands).imp fun _ => decide_eq_true)
  | minus => exact ensures_first ((uints_length .minus operands).imp fun _ => decide_eq_true)
  | less => exact ensures_first ((uints_length .less operands).imp fun _ => decide_eq_true)
  | and => exact (junction_length .and false operands).imp fun _ => decide_eq_true
  | or => exact (junction_length .or true operands).imp fun _ => decide_eq_true
  | not => exact ensures_first ((one_length .not operands).imp fun _ => decide_eq_true)
  | xor => exact ensures_first ((two_length .xor operands).imp fun _ => decide_eq_true)
  | hash => exact ensures_first ((one_length .hash operands).imp fun _ => decide_eq_true)
  | len => exact ensures_first ((one_length .len operands).imp fun _ => decide_eq_true)
  | index => exact ensures_first ((two_length .index operands).imp fun _ => decide_eq_true)
  | slice => exact ensures_first ((three_length .slice operands).imp fun _ => decide_eq_true)
  | _ => trivial

/-! ## Nodes -/

namespace Evaluator

variable {host : Host σ ε} {limits : Limits} {m : Machine σ} {tag : Tag} {children : List Value}
  {scopes : Scopes}

theorem activation_ensures {P : α → Prop} {x : Step σ ε α} (h : ∀ m, (x m).outcome.Ensures P) :
    (activation limits x m).outcome.Ensures P := by
  unfold activation
  split
  · trivial
  · simp only
    split
    · exact h _
    · trivial

theorem combine_formed (tag : Tag) (operands : List Value) :
    (combine host tag operands m).outcome.Ensures
      fun _ => tag.formsValue operands.length = true := by
  unfold combine
  split
  · next ht =>
    subst ht
    exact Run.ensures_first ((two_length .equal operands).imp fun _ => decide_eq_true)
  · exact compute_formed tag operands

section forms
variable (parts : Value → Meaning σ ε)

theorem getValue_formed (hclass : tag.nodeClass = .structuralGet) :
    (getValue tag (children.map parts) scopes m).outcome.Ensures
      fun _ => tag.formsValue children.length = true := by
  match children with
  | [] => trivial
  | [_] => exact ensures_const (Tag.formsValue_of_get hclass) _
  | _ :: _ :: _ => trivial

theorem applyValue_formed :
    (applyValue (children.map parts) scopes m).outcome.Ensures
      fun _ => Tag.apply.formsValue children.length = true := by
  cases children with
  | nil => trivial
  | cons _ args => exact ensures_const (decide_eq_true (Nat.le_add_left 1 args.length)) _

theorem reduceValue_formed :
    (reduceValue limits (children.map parts) scopes m).outcome.Ensures
      fun _ => Tag.reduce.formsValue children.length = true := by
  match children with
  | [] => trivial
  | [_] => trivial
  | [_, _] => trivial
  | [_, _, _] => exact ensures_const rfl _
  | _ :: _ :: _ :: _ :: _ => trivial

theorem mapList_formed :
    (mapList limits (children.map parts) scopes m).outcome.Ensures
      fun _ => Tag.map.formsList children.length = true := by
  match children with
  | [] => trivial
  | [_] => trivial
  | [_, _] => exact ensures_const rfl _
  | _ :: _ :: _ :: _ => trivial

theorem filterList_formed :
    (filterList limits (children.map parts) scopes m).outcome.Ensures
      fun _ => Tag.filter.formsList children.length = true := by
  match children with
  | [] => trivial
  | [_] => trivial
  | [_, _] => exact ensures_const rfl _
  | _ :: _ :: _ :: _ => trivial

/-- The value of a node is found only if it has as many children as it takes. -/
theorem nodeValue_formed :
    (nodeValue host limits tag children (children.map parts) scopes m).outcome.Ensures
      fun _ => tag.formsValue children.length = true := by
  unfold nodeValue
  cases hclass : tag.nodeClass with
  | primitive => exact Tag.formsValue_of_primitive hclass _
  | operator =>
    -- There are as many operands as children.
    have hvalues := Run.each_length (fun part => part.value scopes) (children.map parts) m
    refine Run.ensures_bind hvalues fun operands hlength => ?_
    rw [List.length_map] at hlength
    exact (combine_formed tag operands).imp fun _ h => hlength ▸ h
  | structuralGet => exact getValue_formed parts hclass
  | controlForm =>
    simp only
    split
    · next ht =>
      subst ht
      exact applyValue_formed parts
    · split
      · next ht =>
        subst ht
        exact reduceValue_formed parts
      · trivial

/-- The list that a node stands for is found only if it has as many children as it takes. -/
theorem nodeList_formed
    (hquery : ∀ q s, (host.query q s).outcome.Ensures fun _ => q.children.length ≤ 1) :
    (nodeList host limits tag children (children.map parts) scopes m).outcome.Ensures
      fun _ => tag.formsList children.length = true := by
  unfold nodeList
  split
  · next ht =>
    subst ht
    rw [askQuery_outcome, ensures_mapError]
    exact (hquery _ m.host).imp fun _ => decide_eq_true
  · split
    · next ht =>
      subst ht
      exact mapList_formed parts
    · split
      · next ht =>
        subst ht
        exact filterList_formed parts
      · split
        · next ht =>
          subst ht
          exact ensures_const rfl _
        · trivial

end forms

/-! ## Expressions -/

/-- An expression that has a value is not malformed. -/
theorem eval_formed (host : Host σ ε) (limits : Limits) (e : Value) (scopes : Scopes)
    (m : Machine σ) :
    (eval host limits e scopes m).outcome.Ensures fun _ => e.formed .value = true := by
  cases e with
  | node tag children =>
    unfold eval meaning node
    rw [meanings_eq_map]
    exact activation_ensures fun _ => nodeValue_formed _
  | _ => exact ensures_const rfl _

/-- An expression that stands for a list is not malformed, if the host answers no query that
    has more than one child. -/
theorem evalList_formed (host : Host σ ε)
    (hquery : ∀ q s, (host.query q s).outcome.Ensures fun _ => q.children.length ≤ 1)
    (limits : Limits) (e : Value) (scopes : Scopes) (m : Machine σ) :
    (evalList host limits e scopes m).outcome.Ensures fun _ => e.formed .list = true := by
  cases e with
  | node tag children =>
    unfold evalList meaning node
    rw [meanings_eq_map]
    exact activation_ensures fun _ => nodeList_formed _ hquery
  | _ => exact activation_ensures fun _ => trivial

end Evaluator

end CellQuery
