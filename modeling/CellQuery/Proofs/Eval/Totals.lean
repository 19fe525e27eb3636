import Mathlib.Algebra.Ring.Nat
import CellQuery.Proofs.Eval.Unroll

/-! # Totals

    The capacities of cells are added up by a `REDUCE` over a `MAP`.  The result is the total
    modulo 2^64, in whatever order the cells come, and the same loop with `MINUS` takes it
    back to where the first one started.

    Such a loop makes no error of its own.  What can happen is that a limit is exceeded, so
    `Evaluator.Reaches` says of a run that it ends with a value, or else with a limit, and that
    it is the value if there is room.  It has a rule for each way to put steps together; each
    rule that brings a limit in asks that this limit is kept if there is room. -/

namespace CellQuery

open Run

variable {σ ε α β : Type}

/-! ## Sums modulo 2^64 -/

/-- The start and all amounts, modulo 2^64. -/
def total (start : UInt64) (amounts : List UInt64) : UInt64 :=
  .ofNat ((start.toNat + (amounts.map UInt64.toNat).sum) % UInt64.size)

theorem toNat_total (start : UInt64) (amounts : List UInt64) :
    (total start amounts).toNat = (start.toNat + (amounts.map UInt64.toNat).sum) % UInt64.size := by
  rw [total, UInt64.toNat_ofNat_of_lt' (Nat.mod_lt _ (by decide))]

theorem total_nil (start : UInt64) : total start [] = start := by
  simp [total]

/-- An amount may be added first … -/
theorem total_add (start x : UInt64) (amounts : List UInt64) :
    total (start + x) amounts = total start (x :: amounts) := by
  apply UInt64.toNat_inj.mp
  simp only [toNat_total, UInt64.size, UInt64.toNat_add, List.map_cons, List.sum_cons]
  omega

/-- … or last. -/
theorem total_cons (start x : UInt64) (amounts : List UInt64) :
    total start (x :: amounts) = total start amounts + x := by
  apply UInt64.toNat_inj.mp
  simp only [toNat_total, UInt64.size, UInt64.toNat_add, List.map_cons, List.sum_cons]
  omega

theorem total_perm {amounts amounts' : List UInt64} (h : amounts.Perm amounts') (start : UInt64) :
    total start amounts = total start amounts' := by
  unfold total
  rw [(h.map UInt64.toNat).sum_nat]

theorem foldl_add_eq_total (start : UInt64) (amounts : List UInt64) :
    amounts.foldl (· + ·) start = total start amounts := by
  induction amounts generalizing start with
  | nil => exact (total_nil start).symm
  | cons x amounts ih => rw [List.foldl_cons, ih, total_add]

/-- To subtract the amounts undoes the total. -/
theorem foldl_sub_total (start : UInt64) (amounts : List UInt64) :
    amounts.foldl (· - ·) (total start amounts) = start := by
  induction amounts with
  | nil => exact total_nil start
  | cons x amounts ih => rw [List.foldl_cons, total_cons, UInt64.add_sub_cancel, ih]

/-! ## Capacities -/

/-- The value is a cell with a number for its capacity. -/
def Value.HasCapacity (cell : Value) (n : UInt64) : Prop :=
  ∃ lock type data, cell = .cell (.uint n) lock type data

/-- The loop that takes the capacities of the cells of a list into the start, one after another,
    by an operator on two numbers. -/
def Value.tally (tag : Tag) (start : UInt64) (list : Value) : Value :=
  .reduce (.node tag [.arg 0, .arg 1]) (.uint start) (.map (.node .getCapacity [.arg 0]) list)

namespace Evaluator

/-! ## A value or a limit -/

/-- The run ends with the value and with the host in the state, or else because a limit is
    exceeded.  If there is room it is not the latter. -/
structure Reaches (room : Prop) (r : Ran (Event ε) (Machine σ) (EvalError ε) α) (a : α)
    (depth : Nat) (s : σ) : Prop where
  depth : r.state.depth = depth
  ending : (r.outcome = .ok a ∧ r.state.host = s) ∨
    (¬room ∧ ∃ l, r.outcome = .error (.limit l))

section reaches
variable {room : Prop} {limits : Limits} {a : α} {b : β} {depth : Nat} {s t : σ}

theorem reaches_pure (room : Prop) (a : α) (depth : Nat) (s : σ) :
    Reaches room ((Pure.pure a : Step σ ε α) ⟨depth, s⟩) a depth s :=
  ⟨rfl, .inl ⟨rfl, rfl⟩⟩

theorem reaches_bind {x : Step σ ε α} {f : α → Step σ ε β} {m : Machine σ}
    (hx : Reaches room (x m) a depth s) (hf : Reaches room (f a ⟨depth, s⟩) b depth t) :
    Reaches room ((x >>= f) m) b depth t := by
  rcases hx.ending with ⟨ho, hhost⟩ | ⟨hroom, l, ho⟩
  · have hstate : (x m).state = ⟨depth, s⟩ := by
      rw [← hx.depth, ← hhost]
    rw [bind_of_ok ho, hstate]
    exact ⟨hf.depth, hf.ending⟩
  · rw [bind_of_error ho]
    exact ⟨hx.depth, .inr ⟨hroom, l, rfl⟩⟩

theorem reaches_activation {x : Step σ ε α} (hroom : room → depth < limits.maxDepth)
    (hx : Reaches room (x ⟨depth + 1, s⟩) a (depth + 1) t) :
    Reaches room (activation limits x ⟨depth, s⟩) a depth t := by
  by_cases hle : limits.maxDepth ≤ depth
  · rw [activation_of_le hle]
    exact ⟨rfl, .inr ⟨fun h => absurd (hroom h) (Nat.not_lt.mpr hle), _, rfl⟩⟩
  · rw [activation_of_lt (Nat.not_le.mp hle) hx.depth]
    exact ⟨rfl, hx.ending⟩

theorem reaches_checkIterations {tag : Tag} {elements : List Value}
    (hroom : room → limits.iterationFault? tag elements.length = none) :
    Reaches room ((checkIterations limits tag elements : Step σ ε Unit) ⟨depth, s⟩) () depth s := by
  cases hfault : limits.iterationFault? tag elements.length with
  | none =>
    rw [checkIterations_of_none hfault]
    exact reaches_pure room () depth s
  | some l =>
    have hnot : ¬room := fun h => Option.some_ne_none l (hfault.symm.trans (hroom h))
    unfold checkIterations
    rw [hfault]
    exact ⟨rfl, .inr ⟨hnot, l, rfl⟩⟩

theorem reaches_each {f : α → Step σ ε β} {xs : List α} {ys : List β}
    (h : List.Forall₂ (fun x y => Reaches room (f x ⟨depth, s⟩) y depth s) xs ys) :
    Reaches room (each f xs ⟨depth, s⟩) ys depth s := by
  induction h with
  | nil => exact reaches_pure room [] depth s
  | cons hxy _ ih => exact reaches_bind hxy (reaches_bind ih (reaches_pure room _ depth s))

theorem reaches_fold {f : Value → Value → Step σ ε Value} {op : UInt64 → UInt64 → UInt64}
    (h : ∀ x y, Reaches room (f (.uint x) (.uint y) ⟨depth, s⟩) (.uint (op x y)) depth s)
    (start : UInt64) (amounts : List UInt64) :
    Reaches room (fold f (.uint start) (amounts.map .uint) ⟨depth, s⟩)
      (.uint (amounts.foldl op start)) depth s := by
  induction amounts generalizing start with
  | nil => exact reaches_pure room _ depth s
  | cons x amounts ih => exact reaches_bind (h start x) (ih (op start x))

theorem Reaches.of_room {r : Ran (Event ε) (Machine σ) (EvalError ε) α}
    (h : Reaches room r a depth s) (hroom : room) : r.outcome = .ok a := by
  rcases h.ending with ⟨ho, _⟩ | ⟨hnot, _⟩
  · exact ho
  · exact absurd hroom hnot

theorem Reaches.of_not_limit {r : Ran (Event ε) (Machine σ) (EvalError ε) α}
    (h : Reaches room r a depth s) (hlimit : ∀ l, r.outcome ≠ .error (.limit l)) :
    r.outcome = .ok a := by
  rcases h.ending with ⟨ho, _⟩ | ⟨_, l, ho⟩
  · exact ho
  · exact absurd ho (hlimit l)

end reaches

/-! ## Loops over cells -/

/-- The tag is that of an operator which takes two numbers to a number and makes no request. -/
structure Combines (host : Host σ ε) (tag : Tag) (op : UInt64 → UInt64 → UInt64) : Prop where
  operator : tag.nodeClass = .operator
  value : ∀ x y, combine host tag [.uint x, .uint y] = Pure.pure (.uint (op x y))

theorem combines_plus (host : Host σ ε) : Combines host .plus (· + ·) :=
  ⟨rfl, fun _ _ => rfl⟩

theorem combines_minus (host : Host σ ε) : Combines host .minus (· - ·) :=
  ⟨rfl, fun _ _ => rfl⟩

section cells
variable {room : Prop} {tag : Tag} {op : UInt64 → UInt64 → UInt64} (host : Host σ ε)
  (limits : Limits) (scopes : Scopes) {depth : Nat} {s : σ}

/-- A list that has been evaluated once, at some depth, is the same one at another depth. -/
theorem reaches_evalList {list : Value} {elements : List Value} {elsewhere : Nat}
    (hlist : (evalList host limits list scopes ⟨elsewhere, s⟩).outcome = .ok elements)
    (hroom : room → depth ≤ elsewhere) :
    Reaches room (evalList host limits list scopes ⟨depth, s⟩) elements depth
      (evalList host limits list scopes ⟨elsewhere, s⟩).state.host := by
  have hshallower := evalList_shallower host limits list scopes
  refine ⟨(steady_evalList host limits list scopes).depth _, ?_⟩
  by_cases hle : depth ≤ elsewhere
  · -- Higher up there is room for all that there was room for elsewhere.
    have hsame := hshallower.same ⟨elsewhere, s⟩ ⟨depth, s⟩ rfl hle (not_tooDeep hlist nofun)
    exact .inl ⟨hsame.outcome.symm.trans hlist, hsame.host.symm⟩
  · -- Further down the evaluation goes too deep, unless it goes as it did elsewhere.
    by_cases hdeep : TooDeep limits (evalList host limits list scopes ⟨depth, s⟩)
    · obtain ⟨⟨reached, _, ho⟩, _⟩ := hdeep
      exact .inr ⟨fun h => hle (hroom h), _, ho⟩
    · have hsame := hshallower.same ⟨depth, s⟩ ⟨elsewhere, s⟩ rfl (Nat.le_of_not_le hle) hdeep
      exact .inl ⟨hsame.outcome.trans hlist, hsame.host⟩

theorem reaches_arg {scope : List Value} {i : UInt64} {v : Value} (h : scope[i.toNat]? = some v)
    (hroom : room → depth < limits.maxDepth) :
    Reaches room (eval host limits (.arg i) (scope :: scopes) ⟨depth, s⟩) v depth s := by
  rw [eval_arg host limits scopes h]
  exact reaches_activation hroom (reaches_pure room v _ s)

/-- The capacity of a cell that is the first argument. -/
theorem reaches_capacity {cell : Value} {n : UInt64} (hcell : cell.HasCapacity n)
    (hroom : room → depth + 2 ≤ limits.maxDepth) :
    Reaches room (eval host limits (.node .getCapacity [.arg 0]) ([cell] :: scopes) ⟨depth, s⟩)
      (.uint n) depth s := by
  obtain ⟨lock, type, data, rfl⟩ := hcell
  rw [eval_get host limits _ (rfl : Tag.getCapacity.nodeClass = .structuralGet)]
  apply reaches_activation fun h => Nat.lt_of_succ_lt (hroom h)
  apply reaches_bind (reaches_arg host limits scopes rfl hroom)
  exact reaches_pure room (Value.uint n) _ s

/-- An operation on the two numbers that are the arguments. -/
theorem reaches_operation (hop : Combines host tag op)
    (hroom : room → depth + 2 ≤ limits.maxDepth) (x y : UInt64) :
    Reaches room
      (eval host limits (.node tag [.arg 0, .arg 1]) ([.uint x, .uint y] :: scopes) ⟨depth, s⟩)
      (.uint (op x y)) depth s := by
  rw [eval_operator host limits _ hop.operator, each_pair]
  apply reaches_activation fun h => Nat.lt_of_succ_lt (hroom h)
  apply reaches_bind (reaches_arg host limits scopes rfl hroom)
  apply reaches_bind (reaches_arg host limits scopes rfl hroom)
  rw [hop.value]
  exact reaches_pure room _ _ s

section loops
variable {list : Value} {cells : List Value} {capacities : List UInt64} {elsewhere : Nat}
  (hlist : (evalList host limits list scopes ⟨elsewhere, s⟩).outcome = .ok cells)
  (hcells : List.Forall₂ Value.HasCapacity cells capacities)
  (hiterations : room → ∀ tag, limits.iterationFault? tag cells.length = none)
include hlist hcells hiterations

/-- The `MAP` yields the capacities, and leaves the host as the list does. -/
theorem reaches_capacities (helsewhere : room → depth + 1 ≤ elsewhere)
    (hroom : room → depth + 3 ≤ limits.maxDepth) :
    Reaches room
      (evalList host limits (.map (.node .getCapacity [.arg 0]) list) scopes ⟨depth, s⟩)
      (capacities.map .uint) depth
      (evalList host limits list scopes ⟨elsewhere, s⟩).state.host := by
  rw [evalList_map]
  apply reaches_activation fun h => Nat.lt_of_lt_of_le (by omega) (hroom h)
  apply reaches_bind (reaches_evalList host limits scopes hlist helsewhere)
  apply reaches_bind (reaches_checkIterations fun h => hiterations h .map)
  apply reaches_each
  rw [List.forall₂_map_right_iff]
  exact hcells.imp fun _ _ hcell => reaches_capacity host limits scopes hcell hroom

/-- The loop makes one operation for each cell, from the first to the last. -/
theorem reaches_tally (hop : Combines host tag op) (helsewhere : room → depth + 2 ≤ elsewhere)
    (hroom : room → depth + 4 ≤ limits.maxDepth) (start : UInt64) :
    Reaches room (eval host limits (.tally tag start list) scopes ⟨depth, s⟩)
      (.uint (capacities.foldl op start)) depth
      (evalList host limits list scopes ⟨elsewhere, s⟩).state.host := by
  have hlength : (capacities.map Value.uint).length = cells.length := by
    rw [List.length_map, hcells.length_eq]
  rw [Value.tally, eval_reduce, eval_scalar host limits scopes (v := .uint start) trivial]
  have houter (h : room) : depth < limits.maxDepth := Nat.lt_of_lt_of_le (by omega) (hroom h)
  have hstart (h : room) : depth + 1 < limits.maxDepth := Nat.lt_of_lt_of_le (by omega) (hroom h)
  have hbody (h : room) : depth + 3 ≤ limits.maxDepth := Nat.le_of_succ_le (hroom h)
  apply reaches_activation houter
  apply reaches_bind (reaches_activation hstart (reaches_pure room _ _ s))
  apply reaches_bind (reaches_capacities host limits scopes hlist hcells hiterations
    helsewhere hroom)
  apply reaches_bind (reaches_checkIterations fun h => hlength ▸ hiterations h .reduce)
  exact reaches_fold (reaches_operation host limits scopes hop hbody) start capacities

end loops

end cells

/-- Totals are exact modulo 2^64.  Take a list that has, at whatever depth, cells for its elements
    whose capacities are the amounts in some order.  Unless a limit is exceeded the loop with
    `PLUS` ends with the total, and from the same state the loop with `MINUS` takes that back to
    where the first one started.  With room for the activations and the elements no limit is
    exceeded. -/
theorem tally_exact (host : Host σ ε) (limits : Limits) (scopes : Scopes) {list : Value}
    {cells : List Value} {capacities amounts : List UInt64} {m : Machine σ} {depth : Nat}
    (hlist : (evalList host limits list scopes ⟨depth, m.host⟩).outcome = .ok cells)
    (hcells : List.Forall₂ Value.HasCapacity cells capacities)
    (horder : capacities.Perm amounts) (start : UInt64) :
    let gathered := eval host limits (.tally .plus start list) scopes m
    let returned := eval host limits (.tally .minus (total start amounts) list) scopes m
    ((∀ l, gathered.outcome ≠ .error (.limit l)) →
        gathered.outcome = .ok (.uint (total start amounts))) ∧
      ((∀ l, returned.outcome ≠ .error (.limit l)) → returned.outcome = .ok (.uint start)) ∧
      (m.depth + 2 ≤ depth → m.depth + 4 ≤ limits.maxDepth →
        (∀ most, limits.maxIterations = some most → cells.length ≤ most) →
        gathered.outcome = .ok (.uint (total start amounts)) ∧
          returned.outcome = .ok (.uint start)) := by
  intro gathered returned
  -- The list is evaluated two levels down, and the argument of `GET_CAPACITY` three.
  let room := m.depth + 2 ≤ depth ∧ m.depth + 4 ≤ limits.maxDepth ∧
    ∀ most, limits.maxIterations = some most → cells.length ≤ most
  have hiterations (h : room) (tag : Tag) : limits.iterationFault? tag cells.length = none :=
    iterationFault?_of_le h.2.2
  have hgathered : Reaches room gathered (.uint (capacities.foldl (· + ·) start)) _ _ :=
    reaches_tally host limits scopes hlist hcells hiterations (combines_plus host) (·.1) (·.2.1)
      start
  have hreturned :
      Reaches room returned (.uint (capacities.foldl (· - ·) (total start amounts))) _ _ :=
    reaches_tally host limits scopes hlist hcells hiterations (combines_minus host) (·.1) (·.2.1)
      (total start amounts)
  -- Both loops meet the amounts in the order of the cells.
  rw [foldl_add_eq_total, total_perm horder] at hgathered
  rw [← total_perm horder, foldl_sub_total] at hreturned
  exact ⟨hgathered.of_not_limit, hreturned.of_not_limit, fun hdepth hmax hcount =>
    ⟨hgathered.of_room ⟨hdepth, hmax, hcount⟩, hreturned.of_room ⟨hdepth, hmax, hcount⟩⟩⟩

/-- The total wraps around, and comes back. -/
theorem tally_exact_wrapped :
    let cells : List Value :=
      [.cell (.uint 18446744073709551615) .nil .nil .nil, .cell (.uint 5) .nil .nil .nil]
    let host := Memory.host ⟨[], cells, {}⟩
    let m : Machine Memory.State := ⟨0, .fresh []⟩
    (evalList host {} .queryAllCells [] ⟨2, m.host⟩).outcome = .ok cells ∧
      List.Forall₂ Value.HasCapacity cells [18446744073709551615, 5] ∧
      List.Perm [18446744073709551615, 5] [5, (18446744073709551615 : UInt64)] ∧
      (eval host {} (.tally .plus 7 .queryAllCells) [] m).outcome = .ok (.uint 11) ∧
      (eval host {} (.tally .minus 11 .queryAllCells) [] m).outcome = .ok (.uint 7) := by
  intro cells host m
  have hlist : (evalList host {} .queryAllCells [] ⟨2, m.host⟩).outcome = .ok cells := by cbv
  have hcells : List.Forall₂ Value.HasCapacity cells [18446744073709551615, 5] :=
    .cons ⟨_, _, _, rfl⟩ (.cons ⟨_, _, _, rfl⟩ .nil)
  have horder : List.Perm [18446744073709551615, 5] [5, (18446744073709551615 : UInt64)] :=
    .swap _ _ _
  have htotal : total 7 [5, 18446744073709551615] = 11 := by decide
  obtain ⟨_, _, hexact⟩ := tally_exact host {} [] hlist hcells horder 7
  rw [htotal] at hexact
  have hcount : ∀ most, Limits.maxIterations {} = some most → cells.length ≤ most := by
    intro most h
    cases h
  exact ⟨hlist, hcells, horder, hexact (by decide) (by decide) hcount⟩

end Evaluator

end CellQuery
