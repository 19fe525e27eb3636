/-! # Escape sequences

    A text may hold sequences that a terminal obeys and does not show.  They begin
    with the escape character:

    * a control sequence, `ESC [`, goes on to its final character;
    * a command, `ESC ]`, goes on to a bell, or to an escape character and a backslash;
    * any other sequence is the escape character and the one behind it.

    A sequence that is not finished takes all that is left. -/

namespace CellQuery.Report

/-- Where a terminal stands in a text. -/
inductive Scan where
  /-- Outside of escape sequences. -/
  | outside
  /-- Behind the escape character. -/
  | escape
  /-- Within a control sequence. -/
  | control
  /-- Within a command. -/
  | command
  /-- Within a command, behind an escape character. -/
  | commandEscape
  deriving DecidableEq

/-- The character ends a control sequence. -/
def isFinal (c : Char) : Bool :=
  '@' ≤ c && c ≤ '~'

/-- Where the terminal stands behind one more character. -/
def Scan.next : Scan → Char → Scan
  | outside, c => if c = '\x1b' then escape else outside
  | escape, c => if c = '[' then control else if c = ']' then command else outside
  | control, c => if isFinal c then outside else control
  | command, c =>
    if c = '\x07' then outside else if c = '\x1b' then commandEscape else command
  | commandEscape, c =>
    if c = '\x07' || c = '\\' then outside else if c = '\x1b' then commandEscape else command

/-- What is shown of the rest of a text: the characters that begin and end outside. -/
def shownFrom : Scan → List Char → List Char
  | _, [] => []
  | scan, c :: cs =>
    let rest := shownFrom (scan.next c) cs
    if scan = .outside ∧ scan.next c = .outside then c :: rest else rest

/-- What is shown of a text: all but its escape sequences. -/
def shown (text : List Char) : List Char :=
  shownFrom .outside text

/-- Paint: a control sequence that only says how the text behind it looks. -/
def IsPaint (text : List Char) : Prop :=
  ∃ parameters, text = '\x1b' :: '[' :: (parameters ++ ['m']) ∧
    ∀ c ∈ parameters, isFinal c = false

/-- A link is a command around a text, here one that ends with a bell and one that does not. -/
example : shown "\x1b]8;;cell\x07on\x1b]8;;\x1b\\ \x1b[1mchain\x1b[0m".toList =
    "on chain".toList := by
  decide

end CellQuery.Report
