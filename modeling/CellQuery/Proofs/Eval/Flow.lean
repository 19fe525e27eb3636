import Mathlib.Data.List.Forall2
import CellQuery.Eval.Basic
import CellQuery.Proofs.Eval.Local
import CellQuery.Proofs.Eval.Result
import CellQuery.Proofs.Run
import CellQuery.Proofs.Value.Scoping

/-! # Flows: what an evaluation keeps, and which values it yields

    Most of what is proved about evaluations is kept by each of the few parts that they are
    made of: local computations, requests to the host, activations, and one step after
    another.  The induction over expressions and forms is done here, once.

    * A `Flow` relates steps of two evaluations of one expression, by two hosts and under
      two limits, and says which values may flow from one step into the next.  It lists what
      has to be shown of the parts; `Flow.eval` concludes it of the evaluations.
    * Which scopes the two evaluations may stand under can depend on the expression.  They
      are handed on to what is evaluated in the same place, and with one scope more to a body.
    * Where values are not of interest a flow is a `Coupling`, and a `Rules` where there is
      a single evaluation. -/

namespace CellQuery

namespace Evaluator

variable {σ σ₁ σ₂ ε : Type}

theorem meanings_eq_map (host : Host σ ε) (limits : Limits) (es : List Value) :
    meanings host limits es = es.map (meaning host limits) := by
  induction es with
  | nil => rfl
  | cons e es ih => rw [meanings, ih, List.map_cons]

/-! ## Flows -/

/-- A relation between the steps of two evaluations of one expression that all parts of
    an evaluation keep, and a set that the values in the results of both belong to.  Each
    step is related together with the list of the values that its result holds. -/
structure Flow (host₁ : Host σ₁ ε) (limits₁ : Limits) (host₂ : Host σ₂ ε)
    (limits₂ : Limits) where
  /-- The expressions that the relation is about. -/
  covers : Value → Prop
  /-- The scopes that the two evaluations of an expression may stand under. -/
  scopes : Value → Scopes → Scopes → Prop
  /-- The values that flow. -/
  good : Value → Prop
  /-- The relation between steps within the activations of an expression. -/
  inside : Value → {α : Type} → (α → List Value) → Step σ₁ ε α → Step σ₂ ε α → Prop
  /-- The relation between activations of an expression. -/
  whole : Value → {α : Type} → (α → List Value) → Step σ₁ ε α → Step σ₂ ε α → Prop
  covers_child : ∀ {e c : Value}, covers e → c ∈ e.children → covers c
  good_scalar : ∀ {v : Value}, v.IsScalar → good v
  good_field : ∀ {v c : Value}, good v → c ∈ v.children → good c
  good_primitive : ∀ {tag : Tag} {children : List Value}, covers (.node tag children) →
    tag.nodeClass = .primitive → good (.node tag children)
  operand : ∀ {e c : Value} {s₁ s₂ : Scopes}, scopes e s₁ s₂ → c ∈ e.operands →
    scopes c s₁ s₂
  body : ∀ {e b : Value} {s₁ s₂ : Scopes} {scope : List Value}, scopes e s₁ s₂ →
    e.body? = some (b, scope.length) → (∀ v ∈ scope, good v) →
    scopes b (scope :: s₁) (scope :: s₂)
  lift : ∀ {e : Value} {α : Type} {held : α → List Value} {x : Outcome (EvalError ε) α},
    covers e → x.Local → x.Ensures (fun a => ∀ v ∈ held a, good v) →
    inside e held (Run.lift x) (Run.lift x)
  bind : ∀ {e : Value} {α β : Type} {held : α → List Value} {held' : β → List Value}
    {x₁ : Step σ₁ ε α} {x₂ : Step σ₂ ε α} {f₁ : α → Step σ₁ ε β} {f₂ : α → Step σ₂ ε β},
    inside e held x₁ x₂ → (∀ a, (∀ v ∈ held a, good v) → inside e held' (f₁ a) (f₂ a)) →
    inside e held' (x₁ >>= f₁) (x₂ >>= f₂)
  child : ∀ {e c : Value} {α : Type} {held : α → List Value} {x₁ : Step σ₁ ε α}
    {x₂ : Step σ₂ ε α}, covers e → c ∈ e.children → whole c held x₁ x₂ → inside e held x₁ x₂
  iterations : ∀ {e : Value} (elements : List Value), covers e →
    inside e (fun _ => []) (checkIterations limits₁ e.tag elements)
      (checkIterations limits₂ e.tag elements)
  arg : ∀ {i : UInt64} {s₁ s₂ : Scopes}, covers (.arg i) → scopes (.arg i) s₁ s₂ →
    inside (.arg i) ([·]) (lookupArg host₁ i s₁) (lookupArg host₂ i s₂)
  param : ∀ {i : UInt64}, covers (.param i) →
    inside (.param i) Option.toList (askParam host₁ i.toNat) (askParam host₂ i.toNat)
  binding : ∀ {e : Value} (i : Nat) (v : Value), covers e → e.tag = .equal → good v →
    v.isNil = false → v.isParam = false →
    inside e (fun _ => []) (askBind host₁ i v) (askBind host₂ i v)
  query : ∀ {e : Value}, covers e → e.tag = .queryCells →
    inside e id (askQuery host₁ e) (askQuery host₂ e)
  activation : ∀ {e : Value} {α : Type} {held : α → List Value} {x₁ : Step σ₁ ε α}
    {x₂ : Step σ₂ ε α}, covers e → inside e held x₁ x₂ →
    whole e held (activation limits₁ x₁) (activation limits₂ x₂)

namespace Flow

variable {host₁ : Host σ₁ ε} {limits₁ : Limits} {host₂ : Host σ₂ ε} {limits₂ : Limits}
  (F : Flow host₁ limits₁ host₂ limits₂) {e : Value}

/-- Every value of a list may flow. -/
def AllGood (vs : List Value) : Prop :=
  ∀ v ∈ vs, F.good v

@[simp]
theorem allGood_nil : F.AllGood [] := by
  simp [AllGood]

@[simp]
theorem allGood_cons {v : Value} {vs : List Value} :
    F.AllGood (v :: vs) ↔ F.good v ∧ F.AllGood vs :=
  List.forall_mem_cons

@[simp]
theorem allGood_singleton {v : Value} : F.AllGood [v] ↔ F.good v :=
  List.forall_mem_singleton

theorem allGood_of_madeFrom {sources : List Value} (hsources : F.AllGood sources) {v : Value}
    (hv : v.MadeFrom sources) : F.AllGood [v] := by
  rw [allGood_singleton]
  rcases hv with hscalar | ⟨source, hsource, hfield⟩
  · exact F.good_scalar hscalar
  · exact F.good_field (hsources source hsource) hfield

/-! ### Loops -/

theorem pure_inside {α : Type} {held : α → List Value} (he : F.covers e) {a : α}
    (ha : F.AllGood (held a)) :
    F.inside e held (pure a : Step σ₁ ε α) (pure a : Step σ₂ ε α) :=
  F.lift (x := .ok a) he trivial ha

theorem scalar_inside (he : F.covers e) {v : Value} (hv : v.IsScalar) :
    F.inside e ([·]) (pure v : Step σ₁ ε Value) (pure v : Step σ₂ ε Value) :=
  F.pure_inside he (F.allGood_singleton.mpr (F.good_scalar hv))

theorem fail_inside {α : Type} {held : α → List Value} (he : F.covers e) {x : EvalError ε}
    (hx : x.Local) : F.inside e held (Run.fail x : Step σ₁ ε α) (Run.fail x : Step σ₂ ε α) :=
  F.lift (x := .error x) he hx trivial

/-- What follows on the results of several steps gets one result for each. -/
theorem each_bind_inside {α β γ : Type} {f₁ : α → Step σ₁ ε Value}
    {f₂ : β → Step σ₂ ε Value} {xs : List α} {ys : List β} {held : γ → List Value}
    {g₁ : List Value → Step σ₁ ε γ} {g₂ : List Value → Step σ₂ ε γ}
    (h : List.Forall₂ (fun x y => F.inside e ([·]) (f₁ x) (f₂ y)) xs ys)
    (hg : ∀ vs, vs.length = xs.length → F.AllGood vs → F.inside e held (g₁ vs) (g₂ vs)) :
    F.inside e held (Run.each f₁ xs >>= g₁) (Run.each f₂ ys >>= g₂) := by
  induction h generalizing g₁ g₂ with
  | nil => exact hg [] rfl F.allGood_nil
  | cons hxy _ ih =>
    simp only [Run.each, bind_assoc, pure_bind]
    apply F.bind hxy
    intro v hv
    apply ih
    intro vs hlength hvs
    exact hg (v :: vs) (congrArg (· + 1) hlength)
      (F.allGood_cons.mpr ⟨F.allGood_singleton.mp hv, hvs⟩)

theorem each_inside {α β : Type} (he : F.covers e) {f₁ : α → Step σ₁ ε Value}
    {f₂ : β → Step σ₂ ε Value} {xs : List α} {ys : List β}
    (h : List.Forall₂ (fun x y => F.inside e ([·]) (f₁ x) (f₂ y)) xs ys) :
    F.inside e id (Run.each f₁ xs) (Run.each f₂ ys) := by
  rw [← bind_pure (Run.each f₁ xs), ← bind_pure (Run.each f₂ ys)]
  exact F.each_bind_inside h fun _ _ hvs => F.pure_inside he hvs

theorem fold_inside (he : F.covers e) {f₁ : Value → Value → Step σ₁ ε Value}
    {f₂ : Value → Value → Step σ₂ ε Value} {acc : Value} {xs : List Value}
    (hacc : F.AllGood [acc]) (hxs : F.AllGood xs)
    (h : ∀ acc x, F.AllGood [acc, x] → F.inside e ([·]) (f₁ acc x) (f₂ acc x)) :
    F.inside e ([·]) (Run.fold f₁ acc xs) (Run.fold f₂ acc xs) := by
  induction xs generalizing acc with
  | nil => exact F.pure_inside he hacc
  | cons x xs ih =>
    obtain ⟨hx, hxs⟩ := F.allGood_cons.mp hxs
    apply F.bind (h acc x (F.allGood_cons.mpr
      ⟨F.allGood_singleton.mp hacc, F.allGood_singleton.mpr hx⟩))
    intro acc hacc
    exact ih hacc hxs

theorem keep_inside (he : F.covers e) {f₁ : Value → Step σ₁ ε Bool}
    {f₂ : Value → Step σ₂ ε Bool} {xs : List Value} (hxs : F.AllGood xs)
    (h : ∀ x, F.AllGood [x] → F.inside e (fun _ => []) (f₁ x) (f₂ x)) :
    F.inside e id (Run.keep f₁ xs) (Run.keep f₂ xs) := by
  induction xs with
  | nil => exact F.pure_inside he F.allGood_nil
  | cons x xs ih =>
    obtain ⟨hx, hxs⟩ := F.allGood_cons.mp hxs
    apply F.bind (h x (F.allGood_singleton.mpr hx))
    intro accepted _
    apply F.bind (ih hxs)
    intro kept hkept
    apply F.pure_inside he
    split
    · exact F.allGood_cons.mpr ⟨hx, hkept⟩
    · exact hkept

/-! ### Bindings and operators -/

theorem found_inside (he : F.covers e) (kind : BindingKind) (i : UInt64) {v : Option Value}
    (hv : F.AllGood v.toList) :
    F.inside e ([·]) (found kind i v : Step σ₁ ε Value) (found kind i v : Step σ₂ ε Value) := by
  cases v with
  | some v => exact F.pure_inside he hv
  | none => exact F.fail_inside he trivial

theorem equal_inside (he : F.covers e) (ht : e.tag = .equal) {operands : List Value}
    (hoperands : F.AllGood operands) :
    F.inside e ([·]) (equal host₁ operands) (equal host₂ operands) := by
  have hpair : (Operands.two (ε := ε) .equal operands).Ensures
      fun pair => F.AllGood [pair.1, pair.2] :=
    (two_ensures .equal operands).imp fun _ h => h ▸ hoperands
  apply F.bind (F.lift he (Operands.two_local .equal operands) hpair)
  intro ⟨x, y⟩ hxy
  -- Whether there is something to bind depends on the operands alone.
  cases hb : binding? x y with
  | none =>
    simp only [hb]
    exact F.scalar_inside he trivial
  | some b =>
    obtain ⟨i, v⟩ := b
    obtain ⟨hsides, hnil, hparam⟩ := binding?_eq_some hb
    have hmem : v ∈ [x, y] := by
      rcases hsides with ⟨_, rfl⟩ | ⟨rfl, _⟩
      · exact List.mem_cons_of_mem x (List.mem_singleton_self y)
      · exact List.mem_cons_self
    simp only [hb]
    apply F.bind (F.binding i.toNat v he ht (hxy v hmem) hnil hparam)
    intro _ _
    exact F.scalar_inside he trivial

theorem combine_inside (he : F.covers e) {operands : List Value}
    (hoperands : F.AllGood operands) :
    F.inside e ([·]) (combine host₁ e.tag operands) (combine host₂ e.tag operands) := by
  unfold combine
  split
  · next ht => exact F.equal_inside he ht hoperands
  · apply F.lift he (compute_local e.tag operands)
    exact (compute_ensures e.tag operands).imp fun _ => F.allGood_of_madeFrom hoperands

/-! ### Forms -/

/-- The meanings of the children of an expression, under all scopes that these may stand
    under. -/
def Parts (e : Value) (f₁ : Value → Meaning σ₁ ε) (f₂ : Value → Meaning σ₂ ε) : Prop :=
  ∀ c ∈ e.children, ∀ s₁ s₂, F.scopes c s₁ s₂ →
    F.inside e ([·]) ((f₁ c).value s₁) ((f₂ c).value s₂) ∧
      F.inside e id ((f₁ c).list s₁) ((f₂ c).list s₂)

section forms
variable {F} {f₁ : Value → Meaning σ₁ ε} {f₂ : Value → Meaning σ₂ ε} {s₁ s₂ : Scopes}

theorem Parts.operand (hp : F.Parts e f₁ f₂) (hs : F.scopes e s₁ s₂) {c : Value}
    (hc : c ∈ e.operands) :
    F.inside e ([·]) ((f₁ c).value s₁) ((f₂ c).value s₂) ∧
      F.inside e id ((f₁ c).list s₁) ((f₂ c).list s₂) :=
  hp c (Value.mem_children_of_mem_operands hc) s₁ s₂ (F.operand hs hc)

theorem Parts.body (hp : F.Parts e f₁ f₂) (hs : F.scopes e s₁ s₂) {b : Value}
    {scope : List Value} (hb : e.body? = some (b, scope.length)) (hscope : F.AllGood scope) :
    F.inside e ([·]) ((f₁ b).value (scope :: s₁)) ((f₂ b).value (scope :: s₂)) :=
  (hp b (Value.mem_children_of_body? hb) _ _ (F.body hs hb hscope)).1

theorem Parts.operands (hp : F.Parts e f₁ f₂) (hs : F.scopes e s₁ s₂) {cs : List Value}
    (hcs : cs ⊆ e.operands) :
    List.Forall₂ (fun p₁ p₂ => F.inside e ([·]) (p₁.value s₁) (p₂.value s₂))
      (cs.map f₁) (cs.map f₂) :=
  List.forall₂_map_left_iff.mpr (List.forall₂_map_right_iff.mpr
    (List.forall₂_same.mpr fun _ hc => (hp.operand hs (hcs hc)).1))

variable {tag : Tag} {children : List Value}

theorem values_inside (he : F.covers (.node tag children))
    (hp : F.Parts (.node tag children) f₁ f₂) (hs : F.scopes (.node tag children) s₁ s₂)
    (hall : tag.evaluatesAll children.length = true) :
    F.inside (.node tag children) id (values (children.map f₁) s₁)
      (values (children.map f₂) s₂) := by
  apply F.each_inside he (hp.operands hs _)
  rw [Value.operands_of_evaluatesAll hall]
  exact List.Subset.refl children

theorem getValue_inside (he : F.covers (.node tag children))
    (hp : F.Parts (.node tag children) f₁ f₂) (hs : F.scopes (.node tag children) s₁ s₂)
    (hclass : tag.nodeClass = .structuralGet) :
    F.inside (.node tag children) ([·]) (getValue tag (children.map f₁) s₁)
      (getValue tag (children.map f₂) s₂) := by
  match children with
  | [] => exact F.fail_inside he trivial
  | [operand] =>
    have hmem : operand ∈ (Value.node tag [operand]).operands := by
      rw [Value.operands_of_evaluatesAll (by simp [Tag.evaluatesAll, hclass])]
      exact List.mem_singleton_self operand
    apply F.bind (hp.operand hs hmem).1
    intro record hrecord
    apply F.lift he (project_local tag record)
    exact (project_ensures tag record).imp fun _ => F.allGood_of_madeFrom hrecord
  | _ :: _ :: _ =>
    -- Both evaluations report the same number of operands.
    simp only [getValue, List.map_cons, List.length_cons, List.length_map]
    exact F.fail_inside he trivial

theorem applyValue_inside (he : F.covers (.node .apply children))
    (hp : F.Parts (.node .apply children) f₁ f₂)
    (hs : F.scopes (.node .apply children) s₁ s₂) :
    F.inside (.node .apply children) ([·]) (applyValue (children.map f₁) s₁)
      (applyValue (children.map f₂) s₂) := by
  match children with
  | [] => exact F.fail_inside he trivial
  | body :: args =>
    apply F.each_bind_inside (hp.operands hs (List.Subset.refl args))
    intro scope hlength hscope
    -- The scope has a place for each of the arguments.
    rw [List.length_map] at hlength
    exact hp.body hs (congrArg (fun size => some (body, size)) hlength.symm) hscope

theorem reduceValue_inside (he : F.covers (.node .reduce children))
    (hp : F.Parts (.node .reduce children) f₁ f₂)
    (hs : F.scopes (.node .reduce children) s₁ s₂) :
    F.inside (.node .reduce children) ([·]) (reduceValue limits₁ (children.map f₁) s₁)
      (reduceValue limits₂ (children.map f₂) s₂) := by
  match children with
  | [] => exact F.fail_inside he trivial
  | [_] => exact F.fail_inside he trivial
  | [_, _] => exact F.fail_inside he trivial
  | [body, start, list] =>
    have hstart : start ∈ (Value.node .reduce [body, start, list]).operands := List.mem_cons_self
    have hlist : list ∈ (Value.node .reduce [body, start, list]).operands :=
      List.mem_cons_of_mem start List.mem_cons_self
    apply F.bind (hp.operand hs hstart).1
    intro acc hacc
    apply F.bind (hp.operand hs hlist).2
    intro elements helements
    apply F.bind (F.iterations elements he)
    intro _ _
    exact F.fold_inside he hacc helements fun _ _ hscope => hp.body hs rfl hscope
  | _ :: _ :: _ :: _ :: _ =>
    simp only [reduceValue, List.map_cons, List.length_cons, List.length_map]
    exact F.fail_inside he trivial

theorem mapList_inside (he : F.covers (.node .map children))
    (hp : F.Parts (.node .map children) f₁ f₂) (hs : F.scopes (.node .map children) s₁ s₂) :
    F.inside (.node .map children) id (mapList limits₁ (children.map f₁) s₁)
      (mapList limits₂ (children.map f₂) s₂) := by
  match children with
  | [] => exact F.fail_inside he trivial
  | [_] => exact F.fail_inside he trivial
  | [body, list] =>
    have hlist : list ∈ (Value.node .map [body, list]).operands := List.mem_cons_self
    apply F.bind (hp.operand hs hlist).2
    intro elements helements
    apply F.bind (F.iterations elements he)
    intro _ _
    refine F.each_inside he (List.forall₂_same.mpr fun x hx => hp.body hs rfl ?_)
    exact F.allGood_singleton.mpr (helements x hx)
  | _ :: _ :: _ :: _ =>
    simp only [mapList, List.map_cons, List.length_cons, List.length_map]
    exact F.fail_inside he trivial

theorem filterList_inside (he : F.covers (.node .filter children))
    (hp : F.Parts (.node .filter children) f₁ f₂)
    (hs : F.scopes (.node .filter children) s₁ s₂) :
    F.inside (.node .filter children) id (filterList limits₁ (children.map f₁) s₁)
      (filterList limits₂ (children.map f₂) s₂) := by
  match children with
  | [] => exact F.fail_inside he trivial
  | [_] => exact F.fail_inside he trivial
  | [predicate, list] =>
    have hlist : list ∈ (Value.node .filter [predicate, list]).operands := List.mem_cons_self
    apply F.bind (hp.operand hs hlist).2
    intro elements helements
    apply F.bind (F.iterations elements he)
    intro _ _
    refine F.keep_inside he helements fun x hx => ?_
    apply F.bind (hp.body hs rfl hx)
    intro v _
    apply F.lift he (Operands.bool_local .filter v)
    -- A verdict holds no values.
    cases Operands.bool (ε := ε) .filter v with
    | ok b => exact F.allGood_nil
    | _ => trivial
  | _ :: _ :: _ :: _ =>
    simp only [filterList, List.map_cons, List.length_cons, List.length_map]
    exact F.fail_inside he trivial

/-! ### Nodes and expressions -/

theorem nodeValue_inside (he : F.covers (.node tag children))
    (hp : F.Parts (.node tag children) f₁ f₂) (hs : F.scopes (.node tag children) s₁ s₂) :
    F.inside (.node tag children) ([·])
      (nodeValue host₁ limits₁ tag children (children.map f₁) s₁)
      (nodeValue host₂ limits₂ tag children (children.map f₂) s₂) := by
  unfold nodeValue
  cases hclass : tag.nodeClass with
  | primitive => exact F.pure_inside he (F.allGood_singleton.mpr (F.good_primitive he hclass))
  | operator =>
    apply F.bind (values_inside he hp hs (by simp only [Tag.evaluatesAll, hclass]))
    intro operands hoperands
    exact F.combine_inside he hoperands
  | structuralGet => exact getValue_inside he hp hs hclass
  | controlForm =>
    simp only
    split
    · next ht =>
      subst ht
      exact applyValue_inside he hp hs
    · split
      · next ht =>
        subst ht
        exact reduceValue_inside he hp hs
      · exact F.fail_inside he trivial

theorem nodeList_inside (he : F.covers (.node tag children))
    (hp : F.Parts (.node tag children) f₁ f₂) (hs : F.scopes (.node tag children) s₁ s₂) :
    F.inside (.node tag children) id
      (nodeList host₁ limits₁ tag children (children.map f₁) s₁)
      (nodeList host₂ limits₂ tag children (children.map f₂) s₂) := by
  unfold nodeList
  split
  · next ht => exact F.query he ht
  · split
    · next ht =>
      subst ht
      exact mapList_inside he hp hs
    · split
      · next ht =>
        subst ht
        exact filterList_inside he hp hs
      · split
        · next ht =>
          subst ht
          exact values_inside he hp hs rfl
        · exact F.fail_inside he trivial

theorem leaf_whole (he : F.covers e) {tag : Tag} {value₁ : Scopes → Step σ₁ ε Value}
    {value₂ : Scopes → Step σ₂ ε Value} (h : F.inside e ([·]) (value₁ s₁) (value₂ s₂)) :
    F.whole e ([·]) ((leaf limits₁ tag value₁).value s₁) ((leaf limits₂ tag value₂).value s₂) ∧
      F.whole e id ((leaf limits₁ tag value₁).list s₁) ((leaf limits₂ tag value₂).list s₂) :=
  ⟨F.activation he h, F.activation he (F.fail_inside he (x := .unsupported tag .list) trivial)⟩

end forms

/-- Both meanings of a covered expression are related, and yield values that may flow. -/
theorem meaning_whole (e : Value) (he : F.covers e) (s₁ s₂ : Scopes)
    (hs : F.scopes e s₁ s₂) :
    F.whole e ([·]) ((meaning host₁ limits₁ e).value s₁) ((meaning host₂ limits₂ e).value s₂) ∧
      F.whole e id ((meaning host₁ limits₁ e).list s₁) ((meaning host₂ limits₂ e).list s₂) := by
  induction e using Value.of_children generalizing s₁ s₂ with
  | step e ih =>
    cases e with
    | uint n => exact leaf_whole he (F.scalar_inside he trivial)
    | nil => exact leaf_whole he (F.scalar_inside he trivial)
    | bool b => exact leaf_whole he (F.scalar_inside he trivial)
    | bytes data => exact leaf_whole he (F.scalar_inside he trivial)
    | arg i => exact leaf_whole he (F.arg he hs)
    | param i =>
      exact leaf_whole he (F.bind (F.param he) fun _ hfound => F.found_inside he .param i hfound)
    | node tag children =>
      -- The parts of a node are the meanings of its children, related by induction.
      have hp : F.Parts (.node tag children) (meaning host₁ limits₁) (meaning host₂ limits₂) := by
        intro c hc t₁ t₂ ht
        obtain ⟨hvalue, hlist⟩ := ih c hc (F.covers_child he hc) t₁ t₂ ht
        exact ⟨F.child he hc hvalue, F.child he hc hlist⟩
      simp only [meaning, node, meanings_eq_map]
      exact ⟨F.activation he (nodeValue_inside he hp hs),
        F.activation he (nodeList_inside he hp hs)⟩

variable {s₁ s₂ : Scopes}

theorem eval (he : F.covers e) (hs : F.scopes e s₁ s₂) :
    F.whole e ([·]) (Evaluator.eval host₁ limits₁ e s₁) (Evaluator.eval host₂ limits₂ e s₂) :=
  (F.meaning_whole e he s₁ s₂ hs).1

theorem evalList (he : F.covers e) (hs : F.scopes e s₁ s₂) :
    F.whole e id (Evaluator.evalList host₁ limits₁ e s₁)
      (Evaluator.evalList host₂ limits₂ e s₂) :=
  (F.meaning_whole e he s₁ s₂ hs).2

end Flow

end Evaluator

end CellQuery
