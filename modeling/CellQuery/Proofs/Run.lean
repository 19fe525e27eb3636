import CellQuery.Run

/-! # Laws of runs

    A run after another begins where the first one ends, unless that ends
    without a value.  What follows from this is stated for the three parts
    of what a run leaves behind:

    * `Run.Keeps`: something about the state that is the same afterwards;
    * `Outcome.Avoids`: endings that do not occur; `Outcome.Ensures`: what is known of
      a value;
    * `Run.events_bind`: properties of the events.

    `Run.ends_bind` and `Run.ends_keep` are about events and ending together: a relation
    between the two carries over from the parts of a run to the whole if it may be joined
    to the events of a part that ends with a value. -/

namespace CellQuery

variable {ω σ τ ε α β γ : Type}

namespace Run

variable {x : Run ω σ ε α} {f : α → Run ω σ ε β} {s : σ}

/-! ## One run after another -/

theorem bind_of_ok {a : α} (h : (x s).outcome = .ok a) :
    (x >>= f) s =
      ⟨(f a (x s).state).outcome, (f a (x s).state).state,
        (x s).events ++ (f a (x s).state).events⟩ := by
  show Run.bind x f s = _
  simp only [Run.bind, h]

theorem bind_of_error {e : ε} (h : (x s).outcome = .error e) :
    (x >>= f) s = ⟨.error e, (x s).state, (x s).events⟩ := by
  show Run.bind x f s = _
  simp only [Run.bind, h]

theorem bind_of_fault {e : Fault} (h : (x s).outcome = .fault e) :
    (x >>= f) s = ⟨.fault e, (x s).state, (x s).events⟩ := by
  show Run.bind x f s = _
  simp only [Run.bind, h]

theorem bind_eq_ok {b : β} (h : ((x >>= f) s).outcome = .ok b) :
    ∃ a, (x s).outcome = .ok a ∧ (f a (x s).state).outcome = .ok b := by
  cases hx : (x s).outcome with
  | ok a =>
    rw [bind_of_ok hx] at h
    exact ⟨a, rfl, h⟩
  | error e =>
    rw [bind_of_error hx] at h
    cases h
  | fault f =>
    rw [bind_of_fault hx] at h
    cases h

theorem bind_pure_eq (x : Run ω σ ε α) : x.bind pure = x := by
  funext s
  cases h : (x s).outcome with
  | ok a => simp only [Run.bind, h, pure, List.append_nil]; rw [← h]
  | error e => simp only [Run.bind, h]; rw [← h]
  | fault f => simp only [Run.bind, h]; rw [← h]

theorem bind_assoc_eq (x : Run ω σ ε α) (f : α → Run ω σ ε β) (g : β → Run ω σ ε γ) :
    (x.bind f).bind g = x.bind fun a => (f a).bind g := by
  funext s
  cases h : (x s).outcome with
  | ok a =>
    cases hf : (f a (x s).state).outcome with
    | ok b => simp only [Run.bind, h, hf, List.append_assoc]
    | error e => simp only [Run.bind, h, hf]
    | fault e => simp only [Run.bind, h, hf]
  | error e => simp only [Run.bind, h]
  | fault e => simp only [Run.bind, h]

/-- Runs one after another are the same however they are grouped. -/
instance : LawfulMonad (Run ω σ ε) :=
  LawfulMonad.mk' _ bind_pure_eq (fun _ _ => rfl) bind_assoc_eq

/-- A relation that is kept by what follows is kept by tests on the elements of a list. -/
theorem keep_related {R : {α : Type} → Run ω σ ε α → Run ω τ ε α → Prop}
    (hpure : ∀ {α : Type} (a : α), R (pure a) (pure a))
    (hbind : ∀ {α β : Type} {x₁ : Run ω σ ε α} {x₂ : Run ω τ ε α} {f₁ : α → Run ω σ ε β}
      {f₂ : α → Run ω τ ε β}, R x₁ x₂ → (∀ a, R (f₁ a) (f₂ a)) → R (x₁ >>= f₁) (x₂ >>= f₂))
    {α : Type} {test₁ : α → Run ω σ ε Bool} {test₂ : α → Run ω τ ε Bool}
    (h : ∀ a, R (test₁ a) (test₂ a)) (xs : List α) : R (keep test₁ xs) (keep test₂ xs) := by
  induction xs with
  | nil => exact hpure []
  | cons x xs ih =>
    apply hbind (h x)
    intro accepted
    apply hbind ih
    intro kept
    exact hpure _

/-! ## The state -/

/-- What `g` sees of the state is the same after the run. -/
def Keeps (g : σ → τ) (x : Run ω σ ε α) : Prop :=
  ∀ s, g (x s).state = g s

theorem keeps_bind {g : σ → τ} (hx : Keeps g x) (hf : ∀ a, Keeps g (f a)) :
    Keeps g (x >>= f) := by
  intro s
  cases h : (x s).outcome with
  | ok a => rw [bind_of_ok h]; exact (hf a _).trans (hx s)
  | error e => rw [bind_of_error h]; exact hx s
  | fault e => rw [bind_of_fault h]; exact hx s

theorem keeps_each {g : σ → τ} (h : ∀ a, Keeps g (f a)) (xs : List α) :
    Keeps g (each f xs) := by
  induction xs with
  | nil => exact fun _ => rfl
  | cons x xs ih => exact keeps_bind (h x) fun _ => keeps_bind ih fun _ _ => rfl

theorem keeps_keep {g : σ → τ} {test : α → Run ω σ ε Bool} (h : ∀ a, Keeps g (test a))
    (xs : List α) : Keeps g (keep test xs) := by
  induction xs with
  | nil => exact fun _ => rfl
  | cons x xs ih => exact keeps_bind (h x) fun _ => keeps_bind ih fun _ _ => rfl

end Run

/-! ## The outcome -/

/-- The ending is a value, or an error that is not one of the bad ones. -/
def Outcome.Avoids (bad : ε → Prop) : Outcome ε α → Prop
  | ok _ => True
  | error e => ¬bad e
  | fault _ => False

theorem Outcome.Avoids.ok_or_error {bad : ε → Prop} {o : Outcome ε α} (h : o.Avoids bad) :
    (∃ a, o = .ok a) ∨ ∃ e, o = .error e := by
  cases o with
  | ok a => exact .inl ⟨a, rfl⟩
  | error e => exact .inr ⟨e, rfl⟩
  | fault f => exact h.elim

/-- The outcome without the value. -/
def Outcome.ending : Outcome ε α → Outcome ε Unit
  | ok _ => ok ()
  | error e => error e
  | fault f => fault f

@[simp]
theorem Outcome.ending_eq_error {o : Outcome ε α} {e : ε} :
    o.ending = .error e ↔ o = .error e := by
  cases o <;> simp [ending]

/-- The endings are the same, but for the values, which are related. -/
def Outcome.Rel (R : α → β → Prop) : Outcome ε α → Outcome ε β → Prop
  | ok a, ok b => R a b
  | error e, error e' => e = e'
  | fault f, fault f' => f = f'
  | _, _ => False

theorem Outcome.rel_eq {o₁ o₂ : Outcome ε α} : o₁.Rel Eq o₂ ↔ o₁ = o₂ := by
  cases o₁ <;> cases o₂ <;> simp [Rel]

theorem Outcome.Rel.cases {R : α → β → Prop} {o₁ : Outcome ε α} {o₂ : Outcome ε β}
    (h : o₁.Rel R o₂) :
    (∃ a b, o₁ = .ok a ∧ o₂ = .ok b ∧ R a b) ∨ (∃ e, o₁ = .error e ∧ o₂ = .error e) ∨
      ∃ f, o₁ = .fault f ∧ o₂ = .fault f := by
  match o₁, o₂, h with
  | ok a, ok b, hab => exact .inl ⟨a, b, rfl, rfl, hab⟩
  | error e, error _, rfl => exact .inr (.inl ⟨e, rfl, rfl⟩)
  | fault f, fault _, rfl => exact .inr (.inr ⟨f, rfl, rfl⟩)

/-- The error that an outcome is. -/
def Outcome.error? : Outcome ε α → Option ε
  | error e => some e
  | _ => none

@[simp]
theorem Outcome.avoids_ending {bad : ε → Prop} {o : Outcome ε α} :
    o.ending.Avoids bad ↔ o.Avoids bad := by
  cases o <;> rfl

theorem Outcome.avoids_mapError {ε' : Type} {bad : ε' → Prop} {f : ε → ε'} {o : Outcome ε α} :
    (o.mapError f).Avoids bad ↔ o.Avoids fun e => bad (f e) := by
  cases o <;> rfl

/-- If the ending is a value, the value has the property. -/
def Outcome.Ensures (P : α → Prop) : Outcome ε α → Prop
  | ok a => P a
  | _ => True

theorem Outcome.Ensures.imp {P Q : α → Prop} {x : Outcome ε α} (hx : x.Ensures P)
    (h : ∀ a, P a → Q a) : x.Ensures Q := by
  cases x with
  | ok a => exact h a hx
  | error e => trivial
  | fault f => trivial

theorem Outcome.ensures_bind {P : α → Prop} {Q : β → Prop} {x : Outcome ε α}
    {f : α → Outcome ε β} (hx : x.Ensures P) (hf : ∀ a, P a → (f a).Ensures Q) :
    (x >>= f).Ensures Q := by
  cases x with
  | ok a => exact hf a hx
  | error e => trivial
  | fault f => trivial

/-- What is known anyway is known whenever there is a value. -/
theorem Outcome.ensures_const {p : Prop} (hp : p) (x : Outcome ε α) : x.Ensures fun _ => p := by
  cases x with
  | ok a => exact hp
  | error e => trivial
  | fault f => trivial

/-- What the first part knows whenever it has a value is known whenever the whole has one. -/
theorem Outcome.ensures_first {p : Prop} {x : Outcome ε α} {f : α → Outcome ε β}
    (hx : x.Ensures fun _ => p) : (x >>= f).Ensures fun _ => p :=
  ensures_bind hx fun a hp => ensures_const hp (f a)

/-- Without a value there is an error: what is known of every value does not hold. -/
theorem Outcome.Avoids.error_of_not {p : Prop} {bad : ε → Prop} {o : Outcome ε α}
    (h : o.Avoids bad) (hvalue : o.Ensures fun _ => p) (hp : ¬p) : ∃ e, o = .error e := by
  rcases h.ok_or_error with ⟨a, rfl⟩ | herror
  · exact absurd hvalue hp
  · exact herror

theorem Outcome.ensures_mapError {ε' : Type} {P : α → Prop} {f : ε → ε'} {o : Outcome ε α} :
    (o.mapError f).Ensures P ↔ o.Ensures P := by
  cases o <;> rfl

namespace Run

/-! ### Events and ending -/

section ends
variable {P : List ω → Outcome ε Unit → Prop} {s : σ}

theorem ends_bind {x : Run ω σ ε α} {f : α → Run ω σ ε β}
    (happend : ∀ as bs o, P as (.ok ()) → P bs o → P (as ++ bs) o)
    (hx : P (x s).events (x s).outcome.ending)
    (hf : ∀ a, P (f a (x s).state).events (f a (x s).state).outcome.ending) :
    P ((x >>= f) s).events ((x >>= f) s).outcome.ending := by
  cases h : (x s).outcome with
  | ok a => rw [bind_of_ok h]; rw [h] at hx; exact happend _ _ _ hx (hf a)
  | error e => rw [bind_of_error h]; rw [h] at hx; exact hx
  | fault e => rw [bind_of_fault h]; rw [h] at hx; exact hx

theorem ends_keep {g : σ → τ} {test : α → Run ω σ ε Bool} {xs : List α} (hnil : P [] (.ok ()))
    (happend : ∀ as bs o, P as (.ok ()) → P bs o → P (as ++ bs) o)
    (hkeeps : ∀ a, Keeps g (test a))
    (h : ∀ a ∈ xs, ∀ t, g t = g s → P (test a t).events (test a t).outcome.ending) :
    P (keep test xs s).events (keep test xs s).outcome.ending := by
  -- A test may start anywhere that `g` cannot tell from the first state.
  suffices hall : ∀ t, g t = g s → P (keep test xs t).events (keep test xs t).outcome.ending from
    hall s rfl
  induction xs with
  | nil => exact fun _ _ => hnil
  | cons x xs ih =>
    obtain ⟨hx, hxs⟩ := List.forall_mem_cons.mp h
    intro t ht
    apply ends_bind happend (hx t ht)
    intro accepted
    apply ends_bind happend (ih hxs _ ((hkeeps x t).trans ht))
    exact fun _ => hnil

end ends

/-! ### Endings -/

theorem avoids_bind {bad : ε → Prop} {x : Run ω σ ε α} {f : α → Run ω σ ε β} {s : σ}
    (hx : (x s).outcome.Avoids bad)
    (hf : ∀ a, (f a (x s).state).outcome.Avoids bad) :
    ((x >>= f) s).outcome.Avoids bad :=
  Outcome.avoids_ending.mp (ends_bind (P := fun _ o => o.Avoids bad) (fun _ _ _ _ h => h)
    (Outcome.avoids_ending.mpr hx) fun a => Outcome.avoids_ending.mpr (hf a))

theorem ensures_bind {P : α → Prop} {Q : β → Prop} {x : Run ω σ ε α} {f : α → Run ω σ ε β} {s : σ}
    (hx : (x s).outcome.Ensures P)
    (hf : ∀ a, P a → (f a (x s).state).outcome.Ensures Q) :
    ((x >>= f) s).outcome.Ensures Q := by
  cases h : (x s).outcome with
  | ok a => rw [bind_of_ok h]; rw [h] at hx; exact hf a hx
  | error e => rw [bind_of_error h]; trivial
  | fault e => rw [bind_of_fault h]; trivial

theorem ensures_first {p : Prop} {x : Run ω σ ε α} {f : α → Run ω σ ε β} {s : σ}
    (hx : (x s).outcome.Ensures fun _ => p) : ((x >>= f) s).outcome.Ensures fun _ => p :=
  ensures_bind hx fun a hp => Outcome.ensures_const hp (f a (x s).state).outcome

/-- There is one result for each element. -/
theorem each_length (f : α → Run ω σ ε β) (xs : List α) (s : σ) :
    (each f xs s).outcome.Ensures fun ys => ys.length = xs.length := by
  induction xs generalizing s with
  | nil => rfl
  | cons x xs ih =>
    apply ensures_bind (Outcome.ensures_const True.intro (f x s).outcome)
    intro y _
    exact ensures_bind (ih _) fun ys hys => congrArg (· + 1) hys

/-- What a test selects stays in order. -/
theorem keep_sublist (test : α → Run ω σ ε Bool) (xs : List α) (s : σ) :
    (keep test xs s).outcome.Ensures fun kept => kept.Sublist xs := by
  induction xs generalizing s with
  | nil => exact List.Sublist.refl []
  | cons x xs ih =>
    apply ensures_bind (Outcome.ensures_const True.intro (test x s).outcome)
    intro accepted _
    apply ensures_bind (ih _)
    intro kept hkept
    cases accepted with
    | true => exact hkept.cons_cons x
    | false => exact hkept.cons x

/-- Tests that leave the state alone and all have an answer select what they accept. -/
theorem keep_of_answers {test : α → Run ω σ ε Bool} {s : σ} {answer : α → Bool} {xs : List α}
    (hstate : ∀ a, (test a s).state = s) (h : ∀ a ∈ xs, (test a s).outcome = .ok (answer a)) :
    (keep test xs s).outcome = .ok (xs.filter answer) := by
  induction xs with
  | nil => rfl
  | cons x xs ih =>
    have hx := h x List.mem_cons_self
    have hxs := ih fun a ha => h a (List.mem_cons_of_mem x ha)
    show ((test x >>= fun accepted => keep test xs >>= fun kept => _) s).outcome = _
    rw [bind_of_ok hx, hstate x, bind_of_ok hxs]
    -- Both runs started in the same state, so the answers are independent.
    cases hanswer : answer x with
    | true => rw [List.filter_cons_of_pos hanswer]; rfl
    | false => rw [List.filter_cons_of_neg (by simp [hanswer])]; rfl

/-- The first test without an answer decides. -/
theorem keep_of_error {test : α → Run ω σ ε Bool} {s : σ} {e : ε} {before after : List α} {x : α}
    (hstate : ∀ a, (test a s).state = s) (h : ∀ a ∈ before, ∃ b, (test a s).outcome = .ok b)
    (hx : (test x s).outcome = .error e) :
    (keep test (before ++ x :: after) s).outcome = .error e := by
  induction before with
  | nil =>
    show ((test x >>= fun accepted => keep test after >>= fun kept => _) s).outcome = _
    rw [bind_of_error hx]
  | cons y ys ih =>
    obtain ⟨b, hy⟩ := h y List.mem_cons_self
    have hys := ih fun a ha => h a (List.mem_cons_of_mem y ha)
    show ((test y >>= fun accepted => keep test (ys ++ x :: after) >>= fun kept => _) s).outcome = _
    rw [bind_of_ok hy, hstate y, bind_of_error hys]

/-- Where tests that leave the state alone have selected, each of them has an answer. -/
theorem ok_of_keep {test : α → Run ω σ ε Bool} {s : σ} {xs kept : List α}
    (hstate : ∀ a, (test a s).state = s) (h : (keep test xs s).outcome = .ok kept) :
    ∀ a ∈ xs, ∃ b, (test a s).outcome = .ok b := by
  induction xs generalizing kept with
  | nil => simp
  | cons x xs ih =>
    obtain ⟨b, hx, hrest⟩ := bind_eq_ok h
    rw [hstate x] at hrest
    obtain ⟨kept, hxs, _⟩ := bind_eq_ok hrest
    exact List.forall_mem_cons.mpr ⟨⟨b, hx⟩, ih hxs⟩

/-! ## The events -/

theorem events_bind {P : List ω → Prop} {x : Run ω σ ε α} {f : α → Run ω σ ε β} {s : σ}
    (happend : ∀ as bs, P as → P bs → P (as ++ bs)) (hx : P (x s).events)
    (hf : ∀ a, P (f a (x s).state).events) : P ((x >>= f) s).events :=
  ends_bind (P := fun es _ => P es) (fun as bs _ => happend as bs) hx hf

end Run

end CellQuery
