import CellQuery.CommandLine

/-! # The program

    Reads the fixture, prints what the evaluation of its calls yields and sets the
    exit status: 0 if every call succeeded, 1 if one failed or nothing could be
    evaluated, 2 if the arguments were rejected. -/

namespace CellQuery.CommandLine

/-- How the program is called. -/
def usage : String :=
  "Usage: cellquery [FIXTURE] [--call NAME] [--max-depth N] [--max-iterations N] [--debug-ast]"

/-- A word on why nothing was evaluated. -/
def Failure.message : Failure → String
  | badFixture _ => "invalid fixture"
  | noSuchCall name => "no call named `" ++ name ++ "` in the fixture"

/-- The text of the fixture. -/
def Options.readFixture (options : Options) : IO String := do
  if options.readsInput then (← IO.getStdin).readToEnd else IO.FS.readFile options.fixture

/-- Reads, evaluates and prints. -/
def run (arguments : List String) : IO UInt32 := do
  match Options.parse? arguments with
  | none =>
    IO.eprintln usage
    return 2
  | some options =>
    match ← options.readFixture.toBaseIO with
    | .error _ =>
      IO.eprintln ("cannot read fixture " ++ options.fixture)
      return 1
    | .ok text =>
      let response := respond options text
      IO.print response.stdout
      IO.eprint response.reports
      if let some failure := response.failure then
        IO.eprintln failure.message
      return response.status

end CellQuery.CommandLine

/-- The entry point. -/
def main (arguments : List String) : IO UInt32 :=
  CellQuery.CommandLine.run arguments
