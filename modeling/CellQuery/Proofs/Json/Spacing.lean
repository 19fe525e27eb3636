import CellQuery.Proofs.Json.Document

/-! # Blanks between the words of a text

    The text of a document is a sequence of words: marks, keys and atoms.  Blanks may
    stand before, between and after them, and they mean nothing.

    * `Spaced words text` says that the text is these words with any blanks around them.
    * `Doc.words` are the words of a document; without blanks they are its compact text.
    * `Doc.presents_of_spaced`: however the words are spaced, the text has the tokens of the
      document and is nested as deep. -/

namespace CellQuery.Json

/-! ## Spaced words -/

/-- The text is made of the words in order, with any blanks around them. -/
inductive Spaced : List (List Char) → List Char → Prop where
  | done (gap : List Char) (blank : ∀ c ∈ gap, isBlank c) : Spaced [] gap
  | word {word : List Char} {words : List (List Char)} {text : List Char} (gap : List Char)
      (blank : ∀ c ∈ gap, isBlank c) (rest : Spaced words text) :
      Spaced (word :: words) (gap ++ (word ++ text))

/-- Words with the same blanks in front of each, or with none. -/
theorem spaced_flatMap {gap : List Char} (blank : ∀ c ∈ gap, isBlank c)
    (words : List (List Char)) : Spaced words (words.flatMap fun word => gap ++ word) := by
  induction words with
  | nil => exact .done [] (by simp)
  | cons word words ih =>
    rw [List.flatMap_cons, List.append_assoc]
    exact .word gap blank ih

/-- The text of two sequences of words is that of the one before that of the other. -/
theorem spaced_append {words more : List (List Char)} {text : List Char}
    (h : Spaced (words ++ more) text) :
    ∃ front back, text = front ++ back ∧ Spaced words front ∧ Spaced more back := by
  induction words generalizing text with
  | nil => exact ⟨[], text, rfl, .done [] (by simp), h⟩
  | cons word words ih =>
    cases h with
    | word gap blank rest =>
      obtain ⟨front, back, rfl, hfront, hback⟩ := ih rest
      exact ⟨gap ++ (word ++ front), back, by simp, .word gap blank hfront, hback⟩

/-- A single word stands between blanks. -/
theorem spaced_cons {word : List Char} {words : List (List Char)} {text : List Char}
    (h : Spaced (word :: words) text) :
    ∃ gap rest, (∀ c ∈ gap, isBlank c) ∧ Spaced words rest ∧ text = gap ++ (word ++ rest) := by
  cases h with
  | word gap blank rest => exact ⟨gap, _, blank, rest, rfl⟩

theorem spaced_nil {text : List Char} (h : Spaced [] text) : ∀ c ∈ text, isBlank c := by
  cases h with
  | done gap blank => exact blank

/-! ## Texts that present tokens -/

/-- The text has the tokens and is nested so deep, wherever it stands. -/
structure Presents (text : List Char) (ts : List Token) (depth : Nat) : Prop where
  lexes : Lexes text ts
  nests : Nests text depth

theorem tokens_blanks {gap : List Char} (blank : ∀ c ∈ gap, isBlank c) (rest : List Char) :
    tokens (gap ++ rest) = tokens rest := by
  induction gap with
  | nil => rfl
  | cons c gap ih =>
    obtain ⟨hc, hgap⟩ := List.forall_mem_cons.mp blank
    rw [List.cons_append, tokens, if_pos hc, ih hgap]

/-- A blank neither goes on with a number nor opens or closes anything. -/
theorem plain_of_isBlank {c : Char} (h : isBlank c) :
    Plain c ∧ c.isDigit = false ∧ c ≠ '.' ∧ c ≠ 'e' ∧ c ≠ 'E' := by
  simp only [isBlank, Bool.or_eq_true, decide_eq_true_eq] at h
  rcases h with ((rfl | rfl) | rfl) | rfl <;> decide

theorem endsNumber_blanks {gap rest : List Char} (blank : ∀ c ∈ gap, isBlank c)
    (hrest : EndsNumber rest) : EndsNumber (gap ++ rest) := by
  cases gap with
  | nil => exact hrest
  | cons c gap => exact (plain_of_isBlank (blank c List.mem_cons_self)).2

theorem nests_blanks {gap : List Char} (blank : ∀ c ∈ gap, isBlank c) : Nests gap 0 :=
  nests_plain fun c hc => (plain_of_isBlank (blank c hc)).1

namespace Presents
variable {text more gap : List Char} {ts us : List Token} {m n : Nat}

theorem blanks (blank : ∀ c ∈ gap, isBlank c) : Presents gap [] 0 where
  lexes rest _ := tokens_blanks blank rest
  nests := nests_blanks blank

/-- Blanks in front of a text. -/
theorem after_blanks (h : Presents text ts n) (blank : ∀ c ∈ gap, isBlank c) :
    Presents (gap ++ text) ts n where
  lexes rest hrest := by rw [List.append_assoc, tokens_blanks blank, h.lexes rest hrest]
  nests := by simpa using (nests_blanks blank).append h.nests

/-- Blanks behind a text. -/
theorem before_blanks (h : Presents text ts n) (blank : ∀ c ∈ gap, isBlank c) :
    Presents (text ++ gap) ts n where
  lexes rest hrest := by
    rw [List.append_assoc, h.lexes _ (endsNumber_blanks blank hrest), tokens_blanks blank]
  nests := by simpa using h.nests.append (nests_blanks blank)

/-- A comma or a colon between two texts, with blanks in front of it. -/
theorem append_mark {c : Char} {token : Token} (h : Presents text ts m)
    (blank : ∀ c ∈ gap, isBlank c) (hmark : (c, token) ∈ marks) (hplain : Plain c)
    (hmore : Presents more us n) :
    Presents (text ++ (gap ++ c :: more)) (ts ++ token :: us) (max m n) where
  lexes := by
    rw [← List.append_assoc]
    exact (h.before_blanks blank).lexes.append_mark hmark hmore.lexes
  nests := by
    rw [← List.append_assoc]
    exact (h.before_blanks blank).nests.append (hmore.nests.cons hplain)

end Presents

/-- The words between two brackets or braces, with any blanks. -/
theorem presents_enclosed {opening closing : Char} {o c : Token} {words : List (List Char)}
    {text : List Char} {ts : List Token} {n : Nat} (hopen : (opening, o) ∈ marks)
    (hclose : (closing, c) ∈ marks)
    (hpair : opening = '[' ∧ closing = ']' ∨ opening = '{' ∧ closing = '}')
    (h : ∀ text, Spaced words text → Presents text ts n)
    (spaced : Spaced ([opening] :: (words ++ [[closing]])) text) :
    Presents text (o :: (ts ++ [c])) (n + 1) := by
  obtain ⟨gap, rest, blank, hrest, rfl⟩ := spaced_cons spaced
  obtain ⟨front, back, rfl, hfront, hback⟩ := spaced_append hrest
  obtain ⟨gap', last, blank', hlast, rfl⟩ := spaced_cons hback
  have hinside := (h front hfront).before_blanks blank'
  have hwhole : Presents (opening :: (front ++ gap' ++ [closing])) (o :: (ts ++ [c])) (n + 1) :=
    ⟨(hinside.lexes.append_mark hclose lexes_nil).mark hopen, hinside.nests.enclose hpair⟩
  have hspaced := (hwhole.before_blanks (spaced_nil hlast)).after_blanks blank
  simpa using hspaced

/-- Groups of words that are separated by commas, with any blanks. -/
theorem presents_separated {α : Type} {words : α → List (List Char)} {ts : α → List Token}
    {depth : α → Nat} {items : List α} {text : List Char}
    (h : ∀ item ∈ items, ∀ text, Spaced (words item) text → Presents text (ts item) (depth item))
    (spaced : Spaced (List.intercalate [[',']] (items.map words)) text) :
    Presents text (List.intercalate [.comma] (items.map ts))
      ((items.map depth).foldr max 0) := by
  match items with
  | [] => exact Presents.blanks (spaced_nil spaced)
  | [item] =>
    have hitem := h item List.mem_cons_self text (by simpa using spaced)
    simpa using hitem
  | item :: next :: items =>
    rw [List.map_cons, List.map_cons, List.intercalate_cons_cons, List.append_assoc] at spaced
    obtain ⟨front, back, rfl, hfront, hback⟩ := spaced_append spaced
    obtain ⟨gap, rest, blank, hrest, rfl⟩ := spaced_cons hback
    have hitem := h item List.mem_cons_self front hfront
    have hitems := presents_separated (fun i hi => h i (List.mem_cons_of_mem item hi)) hrest
    have hcomma : (',', Token.comma) ∈ marks := by decide
    have hboth := hitem.append_mark blank hcomma (by decide) hitems
    rw [List.map_cons, List.map_cons, List.intercalate_cons_cons]
    simpa using hboth

namespace Doc

/-! ## The words of a document -/

/-- The marks, keys and atoms of the text, in order. -/
def words : Doc → List (List Char) :=
  fold (fun a => [a.compact])
    (fun items => ['['] :: (List.intercalate [[',']] items ++ [[']']]))
    (fun fields =>
      ['{'] ::
        (List.intercalate [[',']]
          (fields.map fun field => quoted field.1.toList :: [':'] :: field.2)
        ++ [['}']]))

section equations
variable (items : List Doc) (fields : List (String × Doc))

theorem words_array : (array items).words =
    ['['] :: (List.intercalate [[',']] (items.map words) ++ [[']']]) :=
  fold_array ..

theorem words_object : (object fields).words =
    ['{'] :: (List.intercalate [[',']]
      (fields.map fun field => quoted field.1.toList :: [':'] :: field.2.words)
      ++ [['}']]) := by
  rw [words, fold_object, List.map_map]
  rfl

end equations

theorem flatten_separated {α : Type} {words : α → List (List Char)} {text : α → List Char}
    {items : List α} (h : ∀ item ∈ items, (words item).flatten = text item) :
    (List.intercalate [[',']] (items.map words)).flatten = commaSeparated (items.map text) := by
  match items with
  | [] => rfl
  | [item] => simpa [commaSeparated] using h item List.mem_cons_self
  | item :: next :: items =>
    have hitem := h item List.mem_cons_self
    have hitems := flatten_separated fun i hi => h i (List.mem_cons_of_mem item hi)
    rw [List.map_cons, List.map_cons, List.intercalate_cons_cons, List.append_assoc,
      List.flatten_append, hitem]
    simpa [commaSeparated] using hitems

/-- Without blanks the words are the compact text. -/
theorem flatten_words (d : Doc) : d.words.flatten = d.compact := by
  induction d using of_parts with
  | atom a => exact List.append_nil _
  | array items ih =>
    rw [words_array, compact_array, List.flatten_cons, List.flatten_append, flatten_separated ih]
    rfl
  | object fields ih =>
    have hfield : ∀ field ∈ fields,
        (quoted field.1.toList :: [':'] :: field.2.words).flatten =
          quoted field.1.toList ++ ':' :: field.2.compact := by
      intro field hfield
      rw [List.flatten_cons, List.flatten_cons, ih field hfield]
      rfl
    rw [words_object, compact_object, List.flatten_cons, List.flatten_append,
      flatten_separated hfield]
    rfl

theorem spaced_compact (d : Doc) : Spaced d.words d.compact := by
  rw [← d.flatten_words, ← List.flatMap_id']
  have flush : ∀ c ∈ ([] : List Char), isBlank c := by simp
  exact spaced_flatMap flush d.words

/-- Blanks between the words of a document mean nothing. -/
theorem presents_of_spaced {d : Doc} {text : List Char} (h : Spaced d.words text) :
    Presents text d.tokens d.depth := by
  induction d using of_parts generalizing text with
  | atom a =>
    obtain ⟨gap, rest, blank, hrest, rfl⟩ := spaced_cons h
    have hatom : Presents a.compact [a.token] 0 := ⟨a.lexes, a.nests⟩
    exact (hatom.before_blanks (spaced_nil hrest)).after_blanks blank
  | array items ih =>
    rw [words_array] at h
    rw [tokens_array, depth_array]
    exact presents_enclosed (by decide) (by decide) (.inl ⟨rfl, rfl⟩)
      (fun text => presents_separated fun d hd _ => ih d hd) h
  | object fields ih =>
    have hfield : ∀ field ∈ fields, ∀ text,
        Spaced (quoted field.1.toList :: [':'] :: field.2.words) text →
          Presents text (.string (some field.1) :: .colon :: field.2.tokens) field.2.depth := by
      intro field hfield text h
      obtain ⟨gap, rest, blank, hrest, rfl⟩ := spaced_cons h
      obtain ⟨gap', value, blank', hvalue, rfl⟩ := spaced_cons hrest
      have hkey : Presents (quoted field.1.toList) [.string (some field.1)] 0 :=
        ⟨lexes_quoted field.1, nests_quoted field.1⟩
      have hcolon : (':', Token.colon) ∈ marks := by decide
      have hboth := hkey.append_mark blank' hcolon (by decide) (ih field hfield hvalue)
      rw [Nat.zero_max] at hboth
      exact hboth.after_blanks blank
    rw [words_object] at h
    rw [tokens_object, depth_object]
    exact presents_enclosed (by decide) (by decide) (.inr ⟨rfl, rfl⟩)
      (fun text => presents_separated hfield) h

/-- The depth of a document can be counted in its text. -/
theorem nesting_compact (d : Doc) : nesting d.compact = d.depth :=
  (presents_of_spaced d.spaced_compact).nests.nesting_eq

/-- What is written for a document is read as the document. -/
theorem ofText_compact (d : Doc) : ofText d.compact = (d.tree, []) :=
  ofText_of_lexes (presents_of_spaced d.spaced_compact).lexes

end Doc

end CellQuery.Json
