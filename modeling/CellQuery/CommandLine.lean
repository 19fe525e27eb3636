import CellQuery.Fixture
import CellQuery.Report.Basic
import CellQuery.Root.Run
import CellQuery.Value.Structure

/-! # The command line

    `[FIXTURE] [--call NAME] [--max-depth N] [--max-iterations N] [--debug-ast]`

    * The fixture is a path, or `-` for standard input, which is the default.
    * An option takes its value from the next argument, or after `=`, and is given
      at most once.  The next argument is no value if it starts with a hyphen,
      unless it is a hyphen alone.
    * `--` ends the options.

    `Options.parse?` reads the arguments, `evaluate` does the work and `respond` says
    what is printed and with which status the program ends; reading files, printing
    and the words for what goes wrong outside of a call are left to the caller.

    Help is left out: `-h` and `--help` are rejected like any option that does not exist,
    where a program with help would print it and end with status 0. -/

namespace CellQuery.CommandLine

/-! ### Arguments -/

/-- What the arguments ask for, as far as they have been read. -/
structure Draft where
  fixture : Option String
  call : Option String
  maxDepth : Option Nat
  maxIterations : Option Nat
  debugAst : Bool

/-- What the arguments ask for. -/
structure Options where
  /-- The path of the fixture. -/
  fixture : String
  /-- The name of the only calls to evaluate. -/
  call : Option String
  limits : Limits
  /-- Show each expression before anything is evaluated. -/
  debugAst : Bool

/-- A number of 64 bits: decimal digits, perhaps behind a plus sign. -/
def number? (text : String) : Option Nat :=
  let digits :=
    match text.toList with
    | '+' :: rest => rest
    | chars => chars
  if digits.isEmpty || digits.any (!·.isDigit) then none
  else
    let n := Nat.ofDigitChars 10 digits 0
    if n < UInt64.size then some n else none

/-- A text up to the first equals sign, and what follows that sign. -/
def splitValue (text : List Char) : List Char × Option (List Char) :=
  match text.dropWhile (· != '=') with
  | [] => (text, none)
  | _ :: value => (text.takeWhile (· != '='), some value)

/-- A setting that has not been made before. -/
def setOnce {α : Type} : Option α → Option α → Option (Option α)
  | none, some a => some (some a)
  | _, _ => none

/-- An option with its value. -/
def Draft.setOption? (draft : Draft) (name value : String) : Option Draft :=
  if name = "--call" then
    (setOnce draft.call (some value)).map fun call => { draft with call }
  else if name = "--max-depth" then
    (setOnce draft.maxDepth (number? value)).map fun maxDepth => { draft with maxDepth }
  else if name = "--max-iterations" then
    (setOnce draft.maxIterations (number? value)).map fun maxIterations =>
      { draft with maxIterations }
  else none

/-- A flag. -/
def Draft.setFlag? (draft : Draft) (name : String) : Option Draft :=
  if name = "--debug-ast" && !draft.debugAst then some { draft with debugAst := true } else none

/-- The path of the fixture. -/
def Draft.setFixture? (draft : Draft) (path : String) : Option Draft :=
  if path.isEmpty then none
  else (setOnce draft.fixture (some path)).map fun fixture => { draft with fixture }

/-- The argument starts like an option. -/
def hasHyphen (argument : String) : Bool :=
  argument.toList.head? = some '-' && argument != "-"

/-- Only paths follow. -/
def parsePaths (draft : Draft) : List String → Option Draft
  | [] => some draft
  | path :: rest => (draft.setFixture? path).bind fun draft => parsePaths draft rest

/-- The names of the options that take a value. -/
def takesValue (name : String) : Bool :=
  name = "--call" || name = "--max-depth" || name = "--max-iterations"

/-- The arguments, one after another. -/
def parseArguments (draft : Draft) : List String → Option Draft
  | [] => some draft
  | argument :: rest =>
    if argument = "--" then parsePaths draft rest
    else if !hasHyphen argument then
      (draft.setFixture? argument).bind fun draft => parseArguments draft rest
    else
      match splitValue argument.toList with
      | (name, some value) =>
        (draft.setOption? (String.ofList name) (String.ofList value)).bind fun draft =>
          parseArguments draft rest
      | (_, none) =>
        if takesValue argument then
          -- The value is the next argument.
          match rest with
          | [] => none
          | value :: rest =>
            if hasHyphen value then none
            else (draft.setOption? argument value).bind fun draft => parseArguments draft rest
        else (draft.setFlag? argument).bind fun draft => parseArguments draft rest

/-- What the arguments ask for, unless they are to be rejected. -/
def Options.parse? (arguments : List String) : Option Options :=
  (parseArguments ⟨none, none, none, none, false⟩ arguments).map fun draft =>
    let standard : Limits := {}
    { fixture := draft.fixture.getD "-"
      call := draft.call
      limits := ⟨draft.maxDepth.getD standard.maxDepth, draft.maxIterations⟩
      debugAst := draft.debugAst }

/-- The path stands for standard input: its only component is a hyphen. -/
def Options.readsInput (options : Options) : Bool :=
  match options.fixture.toList.splitOn '/' with
  | [] => false
  | first :: rest => first = ['-'] && rest.all fun segment => segment = [] || segment = ['.']

/-! ### Work -/

/-- Why nothing was evaluated. -/
inductive Failure where
  /-- The text is not a fixture. -/
  | badFixture (e : DecodeError)
  /-- No call has the name. -/
  | noSuchCall (name : String)

/-- What is printed, and whether every call succeeded. -/
structure Output where
  stdout : String
  stderr : String
  succeeded : Bool

/-- The calls to evaluate. -/
def selectCalls (root : Root) : Option String → Except Failure Root
  | none => .ok root
  | some name =>
    let selected := root.select name
    if selected.calls.isEmpty then .error (.noSuchCall name) else .ok selected

/-- A call with its expression over many lines. -/
def debugText (call : Call) : String :=
  "=== " ++ call.name ++ " ===\n" ++ call.result.outlineText ++ "\n"

/-- The line for the result of a call. -/
def resultLine (call : CallResult Memory.Error) : String :=
  match call.result with
  | .ok v => call.name ++ " = " ++ v.text ++ "\n"
  | _ => call.name ++ " failed\n"

/-- The report of a call that failed. -/
def resultReport (call : CallResult Memory.Error) : String :=
  match call.result with
  | .error e => (Report.ofError e).coloured
  | _ => ""

/-- The call succeeded. -/
def succeeded (call : CallResult Memory.Error) : Bool :=
  match call.result with
  | .ok _ => true
  | _ => false

/-- Evaluates the calls of the fixture that a text holds. -/
def evaluate (options : Options) (text : String) : Except Failure Output := do
  match Fixture.decodeJson text with
  | .error e => .error (.badFixture e)
  | .ok fixture =>
    let root ← selectCalls fixture.root options.call
    let debug := if options.debugAst then String.join (root.calls.map debugText) else ""
    let host := Memory.host (fixture.data options.limits)
    let (results, _) := root.run host options.limits [] fixture.state
    .ok
      { stdout := debug ++ String.join (results.map resultLine)
        stderr := String.join (results.map resultReport)
        succeeded := results.all succeeded }

/-- What a caller of the program gets to see. -/
structure Response where
  stdout : String
  /-- The reports of the calls that failed, for standard error. -/
  reports : String
  /-- Why nothing was evaluated, which standard error tells instead. -/
  failure : Option Failure
  /-- 0 if every call succeeded, 1 if one failed or nothing was evaluated. -/
  status : UInt32

/-- The response to the text of a fixture. -/
def respond (options : Options) (text : String) : Response :=
  match evaluate options text with
  | .error failure => ⟨"", "", some failure, 1⟩
  | .ok output => ⟨output.stdout, output.stderr, none, if output.succeeded then 0 else 1⟩

end CellQuery.CommandLine
