import CellQuery.Host.Memory
import CellQuery.Report.Wrap

/-! # Reports of errors

    A report shows the kind of an error, its text, the texts of the errors below it
    from the outside in, and, for some kinds, a word of help.  Each of the texts is
    wrapped behind an indent.

    A theme paints the kind, the frame and the label of the help.  An indent is
    measured as it is painted, so the layout relies on paint taking no room. -/

namespace CellQuery

/-- What a report shows. -/
structure Report where
  kind : ErrorKind
  message : String
  /-- The texts of the errors below, from the outside in. -/
  causes : List String

namespace Report

/-- The report of an error of an evaluation, given the texts of the host's own errors and of
    those below them. -/
def ofErrorWith {ε : Type} (hostMessage : ε → String) (hostCauses : ε → List String)
    (e : EvalError ε) : Report :=
  ⟨e.kind, e.messageWith hostMessage, e.causesWith hostCauses⟩

/-- The report of an error of an evaluation on the host in memory. -/
def ofError : EvalError Memory.Error → Report :=
  ofErrorWith Memory.Error.message Memory.Error.causes

/-- The word of help for a kind of error. -/
def help? : ErrorKind → Option String
  | .lookup => some "ARG indexes count from the innermost APPLY, REDUCE or MAP"
  | .unsupported => some "records and list forms cannot be evaluated as values"
  | .limitExceeded => some "raise the limit with ExecutionOptions"
  | _ => none

/-! ### Themes -/

/-- What is painted. -/
inductive Style where
  /-- The kind and the frame. -/
  | alarm
  /-- The label of the help. -/
  | accent
  deriving DecidableEq

/-- How styles are shown. -/
structure Theme where
  /-- The escape sequence that starts a style, if the theme has the style. -/
  escape? : Style → Option (List Char)
  /-- It changes only how a text looks. -/
  isPaint : ∀ style escape, escape? style = some escape → IsPaint escape

namespace Theme

/-- No styles. -/
def plain : Theme where
  escape? _ := none
  isPaint _ _ h := by cases h

/-- The frame is red, and the label of the help is cyan. -/
def coloured : Theme where
  escape?
    | .alarm => some "\x1b[31m".toList
    | .accent => some "\x1b[36m".toList
  isPaint
    | .alarm, _, h => by cases h; exact ⟨['3', '1'], rfl, by simp [isFinal]⟩
    | .accent, _, h => by cases h; exact ⟨['3', '6'], rfl, by simp [isFinal]⟩

/-- The escape sequence that ends every style. -/
def escapeEnd : List Char :=
  "\x1b[0m".toList

/-- A text in a style. -/
def paint (theme : Theme) (style : Style) (text : List Char) : List Char :=
  match theme.escape? style with
  | some escape => escape ++ text ++ escapeEnd
  | none => text

end Theme

/-! ### Layout -/

/-- How many columns a line may have. -/
def width : Nat := 98

section layout
variable (setter : Typesetter) (theme : Theme)

/-- Lines behind indents: one for the first line and another for those after it. -/
def indented (first next : List Char) : List (List Char) → List (List Char)
  | [] => []
  | line :: lines => (first ++ line) :: lines.map (next ++ ·)

/-- A text behind indents, in as many lines as it needs. -/
def paragraph (first next : List Char) (text : String) : List (List Char) :=
  indented first next
    (setter.wrap (width - setter.measure first) (width - setter.measure next) text.toList)

/-- The indent of a line of the message. -/
def messageIndent (mark : Char) : List Char :=
  "  ".toList ++ theme.paint .alarm [mark] ++ " ".toList

/-- The indent of a line of a cause. -/
def causeIndent (mark : String) : List Char :=
  theme.paint .alarm mark.toList

/-- The causes; the last one closes the frame. -/
def causeLines : List String → List (List Char)
  | [] => []
  | [cause] => paragraph setter (causeIndent theme "  ╰─▶ ") (causeIndent theme "      ") cause
  | cause :: causes =>
    paragraph setter (causeIndent theme "  ├─▶ ") (causeIndent theme "  │   ") cause
      ++ causeLines causes

/-- The help behind its label, if there is any. -/
def helpLines (kind : ErrorKind) : List (List Char) :=
  match help? kind with
  | some help =>
    paragraph setter (theme.paint .accent "  help: ".toList) "        ".toList help
  | none => []

/-- The lines of a report. -/
def lines (report : Report) : List (List Char) :=
  [theme.paint .alarm report.kind.name.toList, []]
    ++ paragraph setter (messageIndent theme '×') (messageIndent theme '│') report.message
    ++ causeLines setter theme report.causes
    ++ helpLines setter theme report.kind

/-- Lines, each with a newline after it. -/
def unlines (lines : List (List Char)) : List Char :=
  lines.flatMap (· ++ ['\n'])

/-- The report as it is drawn with a theme. -/
def draw (report : Report) : String :=
  String.ofList (unlines (report.lines setter theme))

end layout

/-- The report without paint. -/
def plain (report : Report) : String :=
  report.draw .standard .plain

/-- The report with paint. -/
def coloured (report : Report) : String :=
  report.draw .standard .coloured

end Report

end CellQuery
