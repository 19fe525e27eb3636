import CellQuery.Host.Memory
import CellQuery.Proofs.Eval.Rules

/-! # Hosts that follow another

    Two hosts may keep different states and yet answer alike.  `image` takes a state of the
    first to a state of the second; the second host follows the first if it answers in the
    image of a state as the first does in the state, and goes over to the image of the
    state that follows.

    * `Run.Follows` says the same of runs.
    * `Evaluator.followsCoupling`: evaluations on a host that follows another follow those
      on the other, if queries do. -/

namespace CellQuery

/-! ## Runs that follow another -/

namespace Run

variable {ω σ τ ε α β : Type} {inv : σ → Prop} {image : σ → τ}

/-- From the image of a state with the invariant the second run ends as the first one does from
    the state, in the image of its last state and with the same events. -/
def Follows (inv : σ → Prop) (image : σ → τ) (x₁ : Run ω σ ε α) (x₂ : Run ω τ ε α) : Prop :=
  ∀ s, inv s → inv (x₁ s).state ∧
    x₂ (image s) = ⟨(x₁ s).outcome, image (x₁ s).state, (x₁ s).events⟩

theorem follows_lift (x : Outcome ε α) :
    Follows inv image (lift x : Run ω σ ε α) (lift x) :=
  fun _ hs => ⟨hs, rfl⟩

theorem follows_check (e? : Option ε) :
    Follows inv image (check e? : Run ω σ ε Unit) (check e?) := by
  cases e? with
  | none => exact follows_lift (.ok ())
  | some e => exact follows_lift (.error e)

theorem follows_bind {x₁ : Run ω σ ε α} {x₂ : Run ω τ ε α} {f₁ : α → Run ω σ ε β}
    {f₂ : α → Run ω τ ε β} (hx : Follows inv image x₁ x₂)
    (hf : ∀ a, Follows inv image (f₁ a) (f₂ a)) :
    Follows inv image (x₁ >>= f₁) (x₂ >>= f₂) := by
  intro s hs
  obtain ⟨hinv, hsame⟩ := hx s hs
  have houtcome : (x₂ (image s)).outcome = (x₁ s).outcome := by rw [hsame]
  cases ho : (x₁ s).outcome with
  | ok a =>
    obtain ⟨hinv', hrest⟩ := hf a (x₁ s).state hinv
    rw [bind_of_ok ho, bind_of_ok (houtcome.trans ho)]
    refine ⟨hinv', ?_⟩
    simp only [hsame, hrest]
  | error e =>
    rw [bind_of_error ho, bind_of_error (houtcome.trans ho), hsame]
    exact ⟨hinv, rfl⟩
  | fault f =>
    rw [bind_of_fault ho, bind_of_fault (houtcome.trans ho), hsame]
    exact ⟨hinv, rfl⟩

theorem follows_keep {test₁ : α → Run ω σ ε Bool} {test₂ : α → Run ω τ ε Bool}
    (h : ∀ a, Follows inv image (test₁ a) (test₂ a)) (xs : List α) :
    Follows inv image (keep test₁ xs) (keep test₂ xs) :=
  keep_related (fun a => follows_lift (.ok a)) follows_bind h xs

end Run

open Run

/-! ## Hosts that follow another -/

namespace Evaluator

variable {σ τ ε α : Type} {inv : σ → Prop} {image : σ → τ}

/-- The machine with another host state. -/
def onHost (image : σ → τ) (m : Machine σ) : Machine τ :=
  ⟨m.depth, image m.host⟩

/-- What a step does to a machine another one does with the image of the host. -/
abbrev FollowsOnHost (inv : σ → Prop) (image : σ → τ) (x₁ : Step σ ε α) (x₂ : Step τ ε α) :
    Prop :=
  Follows (fun m => inv m.host) (onHost image) x₁ x₂

theorem follows_activation {x₁ : Step σ ε α} {x₂ : Step τ ε α} (limits : Limits)
    (h : FollowsOnHost inv image x₁ x₂) :
    FollowsOnHost inv image (activation limits x₁) (activation limits x₂) := by
  intro m hm
  unfold activation
  by_cases hle : limits.maxDepth ≤ m.depth
  · have hle₂ : limits.maxDepth ≤ (onHost image m).depth := hle
    simp only [hle, hle₂, if_true]
    exact ⟨hm, rfl⟩
  · have hle₂ : ¬limits.maxDepth ≤ (onHost image m).depth := hle
    obtain ⟨hinv, hsame⟩ := h { m with depth := m.depth + 1 } hm
    have hinner : x₂ { onHost image m with depth := (onHost image m).depth + 1 } = _ := hsame
    simp only [hle, hle₂, if_false, hinner]
    -- Both machines have the same depth, so the activation is left on both or on neither.
    cases hdepth : minus? (x₁ { m with depth := m.depth + 1 }).state.depth 1 with
    | some depth =>
      simp only [onHost, hdepth]
      exact ⟨hinv, trivial⟩
    | none =>
      simp only [onHost, hdepth]
      exact ⟨hinv, trivial⟩

end Evaluator

/-! ## Evaluations -/

/-- A request is answered in the image of a state as it is in the state. -/
def AnswersAlike {σ τ β : Type} (inv : σ → Prop) (image : σ → τ) (f : σ → β × σ)
    (g : τ → β × τ) : Prop :=
  ∀ s, inv s → inv (f s).2 ∧ g (image s) = ((f s).1, image (f s).2)

/-- All requests but queries are answered alike. -/
structure Host.Follows {σ τ ε : Type} (inv : σ → Prop) (image : σ → τ) (host₁ : Host σ ε)
    (host₂ : Host τ ε) : Prop where
  arg : ∀ n, AnswersAlike inv image (host₁.arg n) (host₂.arg n)
  param : ∀ n, AnswersAlike inv image (host₁.param n) (host₂.param n)
  bind : ∀ n v, AnswersAlike inv image (host₁.bind n v) (host₂.bind n v)

namespace Evaluator

variable {σ τ ε : Type} {inv : σ → Prop} {image : σ → τ} {host₁ : Host σ ε} {host₂ : Host τ ε}

theorem follows_askArg {n : Nat} (h : AnswersAlike inv image (host₁.arg n) (host₂.arg n)) :
    FollowsOnHost inv image (askArg host₁ n) (askArg host₂ n) := by
  intro m hm
  obtain ⟨hinv, hsame⟩ := h m.host hm
  refine ⟨hinv, ?_⟩
  simp only [askArg, onHost, hsame]

theorem follows_askParam {n : Nat} (h : AnswersAlike inv image (host₁.param n) (host₂.param n)) :
    FollowsOnHost inv image (askParam host₁ n) (askParam host₂ n) := by
  intro m hm
  obtain ⟨hinv, hsame⟩ := h m.host hm
  refine ⟨hinv, ?_⟩
  simp only [askParam, onHost, hsame]

theorem follows_askBind {n : Nat} {v : Value}
    (h : AnswersAlike inv image (host₁.bind n v) (host₂.bind n v)) :
    FollowsOnHost inv image (askBind host₁ n v) (askBind host₂ n v) := by
  intro m hm
  obtain ⟨hinv, hsame⟩ := h m.host hm
  unfold askBind
  simp only [onHost, hsame]
  cases hr : host₁.bind n v m.host with
  | mk result state =>
    rw [hr] at hinv
    cases result with
    | ok u => exact ⟨hinv, rfl⟩
    | error e => exact ⟨hinv, rfl⟩

theorem follows_askQuery {q : Value} (h : Follows inv image (host₁.query q) (host₂.query q)) :
    FollowsOnHost inv image (askQuery host₁ q) (askQuery host₂ q) := by
  intro m hm
  obtain ⟨hinv, hsame⟩ := h m.host hm
  unfold askQuery
  simp only [onHost, hsame]
  cases (host₁.query q m.host).outcome with
  | ok cells => exact ⟨hinv, rfl⟩
  | error e => exact ⟨hinv, rfl⟩
  | fault f => exact ⟨hinv, rfl⟩

/-- Evaluations of an expression whose queries are followed. -/
def followsCoupling (h : host₁.Follows inv image host₂) (limits : Limits) :
    Coupling host₁ limits host₂ limits where
  covers e := ∀ q ∈ e.subtrees, q.tag = .queryCells →
    Follows inv image (host₁.query q) (host₂.query q)
  scopes s₁ s₂ := s₁ = s₂
  inside _ _ x₁ x₂ := FollowsOnHost inv image x₁ x₂
  whole _ _ x₁ x₂ := FollowsOnHost inv image x₁ x₂
  covers_child he hc q hq := he q (Value.mem_subtrees_of_child hc hq)
  push := cons_scope
  lift _ _ := follows_lift _
  bind hx hf := follows_bind hx hf
  child _ _ hx := hx
  iterations _ _ := follows_check _
  arg {index} s₁ _ _ hs := by
    subst hs
    exact lookupArg_related host₁ host₂ (fun _ => follows_lift _)
      (fun hx hf => follows_bind hx hf) (fun n => follows_askArg (h.arg n)) index s₁
  param {index} _ := follows_askParam (h.param index.toNat)
  binding n w _ _ := follows_askBind (h.bind n w)
  query {e} he ht := follows_askQuery (he e (Value.self_mem_subtrees e) ht)
  activation _ hx := follows_activation limits hx

end Evaluator

/-- The verdict on a cell follows the evaluation of the predicate. -/
theorem Memory.follows_matchesCell {σ τ : Type} {inv : σ → Prop} {image : σ → τ}
    {host₁ : Host σ Error} {host₂ : Host τ Error} {limits : Limits} {predicate cell : Value}
    (h : Evaluator.FollowsOnHost inv image (Evaluator.eval host₁ limits predicate [[cell]])
      (Evaluator.eval host₂ limits predicate [[cell]])) (position : Nat) :
    Follows inv image (matchesCell host₁ limits predicate position cell)
      (matchesCell host₂ limits predicate position cell) := by
  intro s hs
  obtain ⟨hinv, hsame⟩ := h ⟨0, s⟩ hs
  have heval : Evaluator.eval host₂ limits predicate [[cell]] ⟨0, image s⟩ = _ := hsame
  refine ⟨hinv, ?_⟩
  simp only [matchesCell, heval]
  rfl

end CellQuery
