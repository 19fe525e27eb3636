import CellQuery.Proofs.Json.Quoted
import CellQuery.Text.Digits

/-! # How deep a text is nested

    `Json.nesting` counts the containers of a text by its characters alone: a bracket or a
    brace opens or closes one unless it stands in a string.  `Nests text depth` says
    that a text opens so many containers at once, closes all that it opens, and does
    not end within a string; this is what may be put together. -/

namespace CellQuery.Json

/-! ## Open containers -/

/-- The greatest number of containers that are open at once up to the end of the text, if `level` of
    them are open already.  The flag says that the text starts within a string. -/
def nestingFrom : Bool → Nat → List Char → Nat
  | _, level, [] => level
  | true, level, '\\' :: _ :: rest => nestingFrom true level rest
  | true, level, c :: rest => nestingFrom (c ≠ '"') level rest
  | false, level, c :: rest =>
    if c = '"' then nestingFrom true level rest
    else if c = '[' ∨ c = '{' then nestingFrom false (level + 1) rest
    else if c = ']' ∨ c = '}' then max level (nestingFrom false (level - 1) rest)
    else nestingFrom false level rest

/-- The greatest number of containers of a text that are open at once. -/
def nesting (text : List Char) : Nat :=
  nestingFrom false 0 text

theorem le_nestingFrom (inString : Bool) (level : Nat) (text : List Char) :
    level ≤ nestingFrom inString level text := by
  fun_induction nestingFrom inString level text with
  | case1 => exact Nat.le_refl _
  | case2 level _ rest ih => exact ih
  | case3 level c rest _ ih => exact ih
  | case4 level rest ih => exact ih
  | case5 level c rest _ _ ih => exact Nat.le_of_succ_le ih
  | case6 level c rest _ _ _ _ => exact Nat.le_max_left _ _
  | case7 level c rest _ _ _ ih => exact ih

/-! ## Texts that close what they open -/

/-- The text opens so many containers at once and closes all that it opens. -/
def Nests (text : List Char) (depth : Nat) : Prop :=
  ∀ level rest, nestingFrom false level (text ++ rest) =
    max (level + depth) (nestingFrom false level rest)

theorem Nests.nesting_eq {text : List Char} {depth : Nat} (h : Nests text depth) :
    nesting text = depth := by
  have hall := h 0 []
  rw [List.append_nil] at hall
  simpa [nesting, nestingFrom] using hall

theorem nests_nil : Nests [] 0 := by
  intro level rest
  have hle := le_nestingFrom false level rest
  simp [hle]

theorem Nests.append {text more : List Char} {m n : Nat} (h : Nests text m) (hmore : Nests more n) :
    Nests (text ++ more) (max m n) := by
  intro level rest
  rw [List.append_assoc, h, hmore]
  omega

/-- A character that neither opens nor closes anything. -/
def Plain (c : Char) : Prop :=
  c ≠ '"' ∧ c ≠ '[' ∧ c ≠ '{' ∧ c ≠ ']' ∧ c ≠ '}'

instance : DecidablePred Plain := fun c => by
  unfold Plain
  infer_instance

theorem Nests.cons {c : Char} {text : List Char} {n : Nat} (hc : Plain c) (h : Nests text n) :
    Nests (c :: text) n := by
  intro level rest
  obtain ⟨hquote, hopen, hopen', hclose, hclose'⟩ := hc
  rw [List.cons_append, nestingFrom]
  simp only [hquote, hopen, hopen', hclose, hclose', or_self, if_false]
  exact h level rest

theorem nests_plain {text : List Char} (h : ∀ c ∈ text, Plain c) : Nests text 0 := by
  induction text with
  | nil => exact nests_nil
  | cons c text ih =>
    have hc := h c List.mem_cons_self
    have htext := ih fun d hd => h d (List.mem_cons_of_mem c hd)
    exact htext.cons hc

/-- A text between brackets or braces is one container. -/
theorem Nests.enclose {text : List Char} {n : Nat} {c d : Char} (h : Nests text n)
    (hcd : c = '[' ∧ d = ']' ∨ c = '{' ∧ d = '}') : Nests (c :: (text ++ [d])) (n + 1) := by
  intro level rest
  have hopen : ∀ more, nestingFrom false level (c :: more) = nestingFrom false (level + 1) more := by
    intro more
    rcases hcd with ⟨rfl, rfl⟩ | ⟨rfl, rfl⟩ <;> simp [nestingFrom]
  -- After the closing mark as many containers are open as before the opening one.
  have hclose : nestingFrom false (level + 1) (d :: rest) =
      max (level + 1) (nestingFrom false level rest) := by
    rcases hcd with ⟨rfl, rfl⟩ | ⟨rfl, rfl⟩ <;> simp [nestingFrom]
  rw [List.cons_append, hopen, List.append_assoc, h, List.singleton_append, hclose]
  omega

/-! ## Strings -/

/-- What is written for a character does not end the string that it stands in. -/
theorem nestingFrom_escaped (c : Char) (level : Nat) (rest : List Char) :
    nestingFrom true level (escaped c ++ rest) = nestingFrom true level rest := by
  unfold escaped
  cases hshort : shortEscape? c with
  | some e => simp [nestingFrom]
  | none =>
    obtain ⟨hquote, hbackslash⟩ := plain_of_shortEscape? hshort
    by_cases hcontrol : c.toNat < 32
    · -- Neither the escape itself nor its digits are taken for a mark.
      have hdigits : ∀ n < 16, Text.hexDigit n ≠ '"' ∧ Text.hexDigit n ≠ '\\' := by decide
      have hhigh := hdigits (c.toNat / 16) (by omega)
      have hlow := hdigits (c.toNat % 16) (by omega)
      simp [hcontrol, nestingFrom, hhigh, hlow]
    · simp [hcontrol, nestingFrom, hquote, hbackslash]

theorem nests_quoted (s : String) : Nests (quoted s.toList) 0 := by
  intro level rest
  -- Within the string no character counts, up to the quote that closes it.
  have hinside : ∀ cs : List Char,
      nestingFrom true level (cs.flatMap escaped ++ '"' :: rest) = nestingFrom false level rest := by
    intro cs
    induction cs with
    | nil => simp [nestingFrom]
    | cons c cs ih => rw [List.flatMap_cons, List.append_assoc, nestingFrom_escaped, ih]
  have hle := le_nestingFrom false level rest
  simp [quoted, nestingFrom, hinside, hle]

end CellQuery.Json
