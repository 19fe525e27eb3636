import CellQuery.Report.Basic

/-! # Nothing is lost in a report

    The layout of a report puts frames, indents and line breaks into the texts that it shows, and
    drops the newlines and blanks at which it breaks them.  What is left of a text without all
    these is its ink: the ASCII characters that are not blank.  The ink of a report is that of its
    texts, in order, wherever the typesetter breaks them.

    * `Typesetter.ink_wrap`: however narrow the lines are, wrapping a text keeps its ink, also
      where it has to cut a word.
    * `ink_paragraph`, `ink_causeLines` and `ink_helpLines` say the same of each part of a
      report, since the frame is drawn without ink. -/

namespace CellQuery.Report

/-! ## Ink -/

/-- ASCII, and not blank. -/
def isInk (c : Char) : Bool :=
  c.val < 128 && !c.isWhitespace

/-- The characters of a text that are ink. -/
def ink (text : List Char) : List Char :=
  text.filter isInk

theorem ink_append (text more : List Char) : ink (text ++ more) = ink text ++ ink more :=
  List.filter_append ..

theorem ink_flatten (texts : List (List Char)) : ink texts.flatten = texts.flatMap ink := by
  rw [ink, List.filter_flatten, List.flatMap_def]
  rfl

theorem ink_flatMap {α : Type} (f : α → List Char) (items : List α) :
    ink (items.flatMap f) = items.flatMap fun item => ink (f item) := by
  rw [List.flatMap_def, ink_flatten, List.flatMap_map]

/-! ## Wrapping -/

/-- The blanks behind a word are no ink. -/
theorem Word.ink_chars (word : Word) : ink word.chars = ink word.text := by
  have hblanks : ink (List.replicate word.blanks ' ') = [] := by simp [ink, isInk]
  rw [chars, ink_append, hblanks, List.append_nil]

/-- The ink of words. -/
def inkOf (words : List Word) : List Char :=
  words.flatMap fun word => ink word.text

theorem inkOf_cons (word : Word) (words : List Word) :
    inkOf (word :: words) = ink word.text ++ inkOf words :=
  List.flatMap_cons ..

/-- The newlines between the parts of a text are no ink. -/
theorem ink_splitOn (text : List Char) : (text.splitOn '\n').flatMap ink = ink text := by
  have hparts : ∀ parts : List (List Char),
      ink (['\n'].intercalate parts) = parts.flatMap ink := by
    intro parts
    induction parts with
    | nil => rfl
    | cons part parts ih =>
      cases parts with
      | nil => simp
      | cons next parts =>
        rw [List.intercalate_cons_cons, ink_append, ih, ink_append, List.flatMap_cons]
        exact congrArg (· ++ _) (List.append_nil (ink part))
  rw [← hparts, List.intercalate_splitOn]

namespace Typesetter

variable (setter : Typesetter)

theorem inkOf_words (text : List Char) : inkOf (setter.words text) = ink text := by
  rw [← congrArg ink (setter.joined text), ink_flatMap]
  simp only [Word.ink_chars]
  rfl

/-- The pieces are what there was to be cut. -/
theorem inkOf_pieces (room blanks : Nat) (piece rest : List Char) :
    inkOf (setter.pieces room blanks piece rest) = ink (piece ++ rest) := by
  fun_induction pieces setter room blanks piece rest with
  | case1 piece => simp [inkOf]
  | case2 piece c cs longer _ ih => rw [inkOf_cons, ih, ← ink_append]; rfl
  | case3 piece c cs longer _ ih => rw [ih, List.append_assoc]; rfl

theorem inkOf_cut (room : Nat) (word : Word) : inkOf (setter.cut room word) = ink word.text := by
  rw [cut]
  split
  · simp [inkOf]
  · exact setter.inkOf_pieces room word.blanks [] word.text

/-- It depends on the widths which of the blanks behind words are printed. -/
theorem ink_fill (next room used : Nat) (line : Word) (words : List Word) :
    (setter.fill next room used line words).flatMap ink = ink line.text ++ inkOf words := by
  fun_induction fill setter next room used line words with
  | case1 => simp [inkOf]
  | case2 room used line word words columns _ ih =>
    -- The word still fits on the line.
    rw [ih, Word.followedBy, ink_append, Word.ink_chars, List.append_assoc, inkOf_cons]
  | case3 room used line word words columns _ ih => rw [List.flatMap_cons, ih, inkOf_cons]

theorem ink_wrapPart (room next : Nat) (part : List Char) :
    (setter.wrapPart room next part).flatMap ink = ink part := by
  have hcut : ∀ words : List Word, inkOf (words.flatMap (setter.cut next)) = inkOf words := by
    intro words
    rw [inkOf, List.flatMap_assoc]
    exact congrArg (words.flatMap ·) (funext (setter.inkOf_cut next))
  rw [wrapPart, ink_fill, hcut, inkOf_words]
  rfl

/-- A text that is wrapped is still all there. -/
theorem ink_wrap (room next : Nat) (text : List Char) :
    (setter.wrap room next text).flatMap ink = ink text := by
  rw [wrap, List.flatMap_assoc, ← ink_splitOn]
  simp only [ink_wrapPart]

theorem fill_ne_nil (next room used : Nat) (line : Word) (words : List Word) :
    setter.fill next room used line words ≠ [] := by
  fun_induction fill setter next room used line words with
  | case1 => exact List.cons_ne_nil _ _
  | case2 room used line word words columns _ ih => exact ih
  | case3 => exact List.cons_ne_nil _ _

/-- Even an empty text has a line. -/
theorem wrap_ne_nil (room next : Nat) (text : List Char) : setter.wrap room next text ≠ [] := by
  cases hparts : text.splitOn '\n' with
  | nil => exact absurd hparts (List.splitOn_ne_nil '\n' text)
  | cons part parts =>
    rw [wrap, hparts, List.flatMap_cons]
    exact List.append_ne_nil_of_left_ne_nil (setter.fill_ne_nil _ _ _ _ _) _

end Typesetter

/-! ## Layout -/

section layout
variable (setter : Typesetter)

/-- Only the first indent of a paragraph may have ink. -/
theorem ink_paragraph {first next : List Char} (hnext : ink next = []) (text : String) :
    (paragraph setter first next text).flatMap ink = ink first ++ ink text.toList := by
  rw [paragraph,
    ← setter.ink_wrap (width - setter.measure first) (width - setter.measure next) text.toList]
  cases hlines : setter.wrap (width - setter.measure first) (width - setter.measure next)
      text.toList with
  | nil => exact absurd hlines (setter.wrap_ne_nil _ _ _)
  | cons line lines =>
    rw [indented, List.flatMap_cons, List.flatMap_cons, List.flatMap_map, ink_append,
      List.append_assoc]
    simp only [ink_append, hnext, List.nil_append]

theorem ink_causeLines (causes : List String) :
    (causeLines setter .plain causes).flatMap ink =
      causes.flatMap fun cause => ink cause.toList := by
  have hframe : ∀ mark ∈ ["  ├─▶ ", "  │   ", "  ╰─▶ ", "      "],
      ink (causeIndent .plain mark) = [] := by
    decide
  fun_induction causeLines setter .plain causes with
  | case1 => rfl
  | case2 cause =>
    rw [ink_paragraph setter (by decide), hframe "  ╰─▶ " (by decide), List.flatMap_singleton]
    rfl
  | case3 cause causes _ ih =>
    rw [List.flatMap_append, ink_paragraph setter (by decide), hframe "  ├─▶ " (by decide), ih,
      List.flatMap_cons]
    rfl

/-- The help for a kind of error behind its label, if there is any. -/
def helpText (kind : ErrorKind) : String :=
  match help? kind with
  | some help => "help:" ++ help
  | none => ""

theorem ink_helpLines (kind : ErrorKind) :
    (helpLines setter .plain kind).flatMap ink = ink (helpText kind).toList := by
  rw [helpLines, helpText]
  cases help? kind with
  | none => rfl
  | some help =>
    -- The label is an indent, the only one with ink.
    have hlabel : ink (Theme.plain.paint .accent "  help: ".toList) = ink "help:".toList := by
      decide
    have hparagraph : (paragraph setter (Theme.plain.paint .accent "  help: ".toList)
        "        ".toList help).flatMap ink = ink "help:".toList ++ ink help.toList := by
      rw [ink_paragraph setter (by decide), hlabel]
    simp only [hparagraph, String.toList_append, ink_append]

/-! ## Reports -/

/-- Newlines are no ink. -/
theorem ink_unlines (lines : List (List Char)) : ink (unlines lines) = lines.flatMap ink := by
  have hline : ∀ line : List Char, ink (line ++ ['\n']) = ink line := by
    intro line
    rw [ink_append]
    exact List.append_nil _
  rw [unlines, ink_flatMap]
  simp only [hline]

/-- The ink of a report is that of its texts. -/
theorem ink_plain (report : Report) : ink (report.draw setter .plain).toList =
    ink report.kind.name.toList ++ ink report.message.toList ++
      report.causes.flatMap (fun cause => ink cause.toList) ++
      ink (helpText report.kind).toList := by
  have hkind : [Theme.plain.paint .alarm report.kind.name.toList, []].flatMap ink =
      ink report.kind.name.toList :=
    List.append_nil _
  have hmessage : (paragraph setter (messageIndent .plain '×') (messageIndent .plain '│')
      report.message).flatMap ink = ink report.message.toList :=
    ink_paragraph setter (by decide) report.message
  rw [draw, String.toList_ofList, ink_unlines, lines, List.flatMap_append, List.flatMap_append,
    List.flatMap_append, hkind, hmessage, ink_causeLines, ink_helpLines]

end layout

/-- Whatever error an evaluation ends with, on whatever host, and however long its texts and the
    chain of its causes are, wherever lines may be broken and however wide characters are: the
    ink of the report is that of the kind, the text and the causes from the outside in, and
    then, for three of the kinds and for no others, that of the help behind its label. -/
theorem plain_loses_nothing {ε : Type} (setter : Typesetter) (hostMessage : ε → String)
    (hostCauses : ε → List String) (e : EvalError ε) :
    let report := ofErrorWith hostMessage hostCauses e
    ink (report.draw setter .plain).toList =
      ink e.kind.name.toList ++ ink (e.messageWith hostMessage).toList ++
        (e.causesWith hostCauses).flatMap (fun cause => ink cause.toList) ++
        ink (helpText e.kind).toList ∧
    ((∃ help, help? e.kind = some help) ↔ e.kind ∈ [.lookup, .unsupported, .limitExceeded]) := by
  intro report
  refine ⟨ink_plain setter report, ?_⟩
  cases e.kind <;> simp [help?]

end CellQuery.Report
