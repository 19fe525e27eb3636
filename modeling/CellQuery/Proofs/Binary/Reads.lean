import CellQuery.Proofs.Binary.Format
import CellQuery.Proofs.Tag.Lookup
import CellQuery.Proofs.Wire.Shape

/-! # Readers read the format

    A reader reads a format if it yields exactly the things that are spelled at
    the front of its input, and leaves exactly what follows the spelling.  That
    is a law of each combinator, so every reader inherits it from its parts. -/

namespace CellQuery.Binary

/-- The reader takes a spelling of the format from the front of the input. -/
def Reads {α : Type} (r : Reader α) (format : Format α) : Prop :=
  ∀ input a rest,
    r input = .ok (a, rest) ↔ ∃ front, format a front ∧ input = front ++ rest

/-! ## Combinators -/

namespace Reads
variable {α β : Type}

theorem congr {r : Reader α} {p q : Format α} (h : Reads r p)
    (same : ∀ a bytes, p a bytes ↔ q a bytes) : Reads r q := by
  intro input a rest
  rw [h input a rest]
  simp only [same]

theorem read_spelled {r : Reader α} {p : Format α} (h : Reads r p) {a : α}
    {bytes : List UInt8} (ha : p a bytes) (rest : List UInt8) :
    r (bytes ++ rest) = .ok (a, rest) :=
  (h _ a rest).mpr ⟨bytes, ha, rfl⟩

theorem pure (a : α) : Reads (Pure.pure a : Reader α) fun b bytes => b = a ∧ bytes = [] := by
  intro input b rest
  show Except.ok (a, input) = Except.ok (b, rest) ↔ _
  constructor
  · intro h
    cases h
    exact ⟨[], ⟨rfl, rfl⟩, rfl⟩
  · intro ⟨front, ⟨same, nothing⟩, both⟩
    rw [both, same, nothing]
    rfl

theorem fail (e : ReadError) : Reads (Reader.fail e : Reader α) fun _ _ => False := by
  intro input a rest
  simp [Reader.fail]

theorem bind {r : Reader α} {f : α → Reader β} {p : Format α} {q : α → Format β}
    (hr : Reads r p) (hf : ∀ a, Reads (f a) (q a)) :
    Reads (r >>= f) fun b bytes =>
      ∃ a front back, p a front ∧ q a b back ∧ bytes = front ++ back := by
  intro input b rest
  show Reader.bind r f input = _ ↔ _
  constructor
  · intro h
    unfold Reader.bind at h
    -- The first reader has succeeded, and the second reads on from where it stopped.
    cases first : r input with
    | error e => simp [first] at h
    | ok done =>
      obtain ⟨a, middle⟩ := done
      obtain ⟨front, ha, rfl⟩ := (hr input a middle).mp first
      simp only [first] at h
      obtain ⟨back, hb, rfl⟩ := (hf a middle b rest).mp h
      exact ⟨front ++ back, ⟨a, front, back, ha, hb, rfl⟩, (List.append_assoc ..).symm⟩
  · intro ⟨_, ⟨a, front, back, ha, hb, spelling⟩, both⟩
    rw [both, spelling, Reader.bind, List.append_assoc, hr.read_spelled ha]
    exact (hf a).read_spelled hb rest

theorem bind_assoc {γ : Type} (r : Reader α) (f : α → Reader β) (g : β → Reader γ) :
    (r >>= f) >>= g = r >>= fun a => f a >>= g := by
  funext input
  show Reader.bind (Reader.bind r f) g input = Reader.bind r (fun a => Reader.bind (f a) g) input
  unfold Reader.bind
  cases r input <;> rfl

/-- What follows the first reader reads no bytes of its own. -/
theorem choose {r : Reader α} {f : α → Reader β} {p : Format α} {q : α → β → Prop}
    (hr : Reads r p) (hf : ∀ a, Reads (f a) fun b bytes => q a b ∧ bytes = []) :
    Reads (r >>= f) fun b bytes => ∃ a, p a bytes ∧ q a b := by
  refine (hr.bind hf).congr fun b bytes => ⟨?_, ?_⟩
  · intro ⟨a, front, back, ha, ⟨hb, nothing⟩, both⟩
    rw [nothing, List.append_nil] at both
    exact ⟨a, both ▸ ha, hb⟩
  · intro ⟨a, ha, hb⟩
    exact ⟨a, bytes, [], ha, ⟨hb, rfl⟩, (List.append_nil _).symm⟩

theorem map {r : Reader α} {p : Format α} (hr : Reads r p) (f : α → β) :
    Reads (r >>= fun a => Pure.pure (f a)) fun b bytes => ∃ a, p a bytes ∧ b = f a :=
  hr.choose fun a => pure (f a)

/-- A choice that has one result. -/
theorem pure_of {q : α → Prop} {a : α} (h : ∀ b, q b ↔ b = a) :
    Reads (Pure.pure a : Reader α) fun b bytes => q b ∧ bytes = [] :=
  (pure a).congr fun b bytes => by rw [h b]

/-- A choice that has no result. -/
theorem fail_of {q : α → Prop} {e : ReadError} (h : ∀ b, ¬q b) :
    Reads (Reader.fail e : Reader α) fun b bytes => q b ∧ bytes = [] :=
  (fail e).congr fun b bytes => by simp [h b]

/-- What follows the first reader yields what `g` selects, and fails if it selects nothing. -/
theorem select {r : Reader α} {f : α → Reader β} {g : α → Option β} {p : Format α}
    (hr : Reads r p) (hsome : ∀ a b, g a = some b → f a = Pure.pure b)
    (hnone : ∀ a, g a = none → ∃ e, f a = Reader.fail e) :
    Reads (r >>= f) fun b bytes => ∃ a, p a bytes ∧ g a = some b := by
  apply hr.choose
  intro a
  cases selected : g a with
  | some b =>
    rw [hsome a b selected]
    exact pure_of fun c => by rw [Option.some.injEq, eq_comm]
  | none =>
    obtain ⟨e, failed⟩ := hnone a selected
    rw [failed]
    exact fail_of fun c => nofun

theorem ite {c : Prop} [Decidable c] {r s : Reader α} {p q : Format α}
    (hr : Reads r p) (hs : Reads s q) :
    Reads (if c then r else s) fun a bytes => c ∧ p a bytes ∨ ¬c ∧ q a bytes := by
  by_cases h : c
  · rw [if_pos h]
    exact hr.congr fun a bytes => by simp [h]
  · rw [if_neg h]
    exact hs.congr fun a bytes => by simp [h]

theorem byte : Reads Reader.byte fun b bytes => bytes = [b] := by
  intro input b rest
  cases input with
  | nil => simp [Reader.byte]
  | cons c cs => simp [Reader.byte]

theorem take (n : Nat) :
    Reads (Reader.take n) fun data bytes => data.length = n ∧ bytes = data := by
  intro input data rest
  unfold Reader.take
  constructor
  · intro h
    split at h
    next enough =>
      cases h
      exact ⟨input.take n, ⟨by simp [enough], rfl⟩, (List.take_append_drop n input).symm⟩
    next => cases h
  · intro ⟨front, ⟨hn, same⟩, both⟩
    rw [both, same, ← hn]
    simp

theorem times {r : Reader α} {p : Format α} (h : Reads r p) (n : Nat) :
    Reads (r.times n) fun as bytes => as.length = n ∧ Sequence p as bytes := by
  induction n with
  | zero =>
    refine (pure []).congr fun as bytes => ⟨?_, ?_⟩
    · intro ⟨empty, nothing⟩
      rw [empty, nothing]
      exact ⟨rfl, .nil⟩
    · intro ⟨hn, items⟩
      cases items with
      | nil => exact ⟨rfl, rfl⟩
      | cons => cases hn
  | succ n ih =>
    refine (h.bind fun a => ih.bind fun as => pure (a :: as)).congr fun as bytes => ⟨?_, ?_⟩
    · intro ⟨a, front, rest, ha, ⟨as, back, last, ⟨hn, has⟩, ⟨same, nothing⟩, hrest⟩, both⟩
      rw [both, hrest, same, nothing, List.append_nil]
      exact ⟨congrArg (· + 1) hn, .cons ha has⟩
    · intro ⟨hn, items⟩
      cases items with
      | nil => cases hn
      | @cons a as front back ha has =>
        refine ⟨a, front, back, ha, ⟨as, back, [], ⟨Nat.succ.inj hn, has⟩, ⟨rfl, rfl⟩, ?_⟩, rfl⟩
        rw [List.append_nil]

end Reads

end CellQuery.Binary
