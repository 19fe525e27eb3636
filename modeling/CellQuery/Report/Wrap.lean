import CellQuery.Report.Escape

/-! # Wrapping text into lines

    A text consists of parts, with newlines between them.  The words of a part are
    placed on a line one after another as long as they fit, and so are those that follow
    on the next one.  The blanks behind the last word of a line are left out.  A word that
    is wider than a line is cut first.

    Where a line may be broken, and how many columns a text takes, is up to a
    `Typesetter`.  Escape sequences take none. -/

namespace CellQuery.Report

/-! ### Words -/

/-- A word, with the blanks behind it. -/
structure Word where
  text : List Char
  blanks : Nat

/-- The characters of a word. -/
def Word.chars (word : Word) : List Char :=
  word.text ++ List.replicate word.blanks ' '

/-- A word and the next one, taken for a single word. -/
def Word.followedBy (word next : Word) : Word :=
  ⟨word.chars ++ next.text, next.blanks⟩

/-- What wrapping does not decide itself. -/
structure Typesetter where
  /-- The words of a text: a line may be broken behind each of them. -/
  words : List Char → List Word
  /-- They are the text, and nothing else. -/
  joined : ∀ text, (words text).flatMap Word.chars = text
  /-- How many columns a text takes that holds no escape sequences. -/
  columns : List Char → Nat

namespace Typesetter

variable (setter : Typesetter)

/-- How many columns a text takes. -/
def measure (text : List Char) : Nat :=
  setter.columns (shown text)

/-! ### Placing words -/

/-- Cuts what is left of a word wherever one more character that is shown would not fit behind the
    piece in front of it.  The last piece gets the blanks. -/
def pieces (room blanks : Nat) (piece : List Char) : List Char → List Word
  | [] => [⟨piece, blanks⟩]
  | c :: cs =>
    let longer := piece ++ [c]
    if 0 < setter.measure piece ∧ room < setter.measure longer ∧ shown longer ≠ shown piece then
      ⟨piece, 0⟩ :: pieces room blanks [c] cs
    else pieces room blanks longer cs

/-- A word in pieces that fit on a line. -/
def cut (room : Nat) (word : Word) : List Word :=
  if setter.measure word.text ≤ room then [word]
  else setter.pieces room word.blanks [] word.text

/-- Places words behind a line that takes the given columns so far, its blanks included.
    The lines after it have room for `next` columns. -/
def fill (next room used : Nat) (line : Word) : List Word → List (List Char)
  | [] => [line.text]
  | word :: words =>
    let columns := setter.measure word.text
    if used + columns ≤ room then
      fill next room (used + columns + word.blanks) (line.followedBy word) words
    else line.text :: fill next next (columns + word.blanks) word words

/-- The lines of a part.  The first one begins empty, so that it stays empty if the first word is
    too wide for it. -/
def wrapPart (room next : Nat) (part : List Char) : List (List Char) :=
  setter.fill next room 0 ⟨[], 0⟩ ((setter.words part).flatMap (setter.cut next))

/-- The lines of a text. -/
def wrap (room next : Nat) (text : List Char) : List (List Char) :=
  (text.splitOn '\n').flatMap (setter.wrapPart room next)

end Typesetter

/-! ### Blanks between words -/

/-- The words of a text, which runs of blanks part. -/
def blankWords : List Char → List Word
  | [] => []
  | c :: cs =>
    match blankWords cs with
    | [] => if c = ' ' then [⟨[], 1⟩] else [⟨[c], 0⟩]
    | word :: words =>
      if c ≠ ' ' then ⟨c :: word.text, word.blanks⟩ :: words
      else if word.text = [] then ⟨[], word.blanks + 1⟩ :: words
      else ⟨[], 1⟩ :: word :: words

theorem joined_blankWords (text : List Char) : (blankWords text).flatMap Word.chars = text := by
  induction text with
  | nil => rfl
  | cons c cs ih =>
    rw [blankWords]
    split
    · next hnone =>
      -- Nothing follows the character.
      rw [hnone] at ih
      subst ih
      split
      · next hblank => subst hblank; rfl
      · rfl
    · next word words hwords =>
      rw [hwords, List.flatMap_cons] at ih
      split
      · simp [Word.chars, ← ih]
      · next hblank =>
        have hc : c = ' ' := by simpa using hblank
        split
        · next hempty => simp [Word.chars, ← ih, hc, hempty, List.replicate_succ]
        · simp [Word.chars, ← ih, hc]

/-- Blanks part the words, and each character takes one column, as it is with the texts of the
    host in memory. -/
def Typesetter.standard : Typesetter where
  words := blankWords
  joined := joined_blankWords
  columns := List.length

/-- A word that does not fit on a line is cut, and the blanks in front of a break are dropped. -/
example : Typesetter.standard.wrap 4 4 "a  bcdefg h\n\ni".toList =
    ["a".toList, "bcde".toList, "fg h".toList, [], "i".toList] := by
  cbv

end CellQuery.Report
