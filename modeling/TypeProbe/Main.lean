import TypeProbe.Command.Request

/-!
# The command

Reads the command line and the file it names, and writes the report on it.
-/

namespace TypeProbe

/-- How the command is used. -/
def usageText : String :=
  "Usage: type-probe <FILE> <tokens|nodes|types> [--start <OFFSET>] [--end <OFFSET>] " ++
    "[--no-color]\n" ++
    "       type-probe --request <JSON> [--no-color]"

/-- The version of the command. -/
def versionText : String := "type-probe 0.1.0"

/-- Reads a file as a text, if that is possible. -/
def readText? (path : String) : IO (Option String) := do
  match ← (IO.FS.readFile path).toBaseIO with
  | .ok text => return some text
  | .error _ => return none

/-- Answers the request of a command line. -/
def answerCommandLine (c : CommandLine) : IO UInt32 := do
  let refused := (← IO.getEnv "NO_COLOR").isSome
  let colors := c.colors refused (← (← IO.getStdout).isTty)
  match Request.ofCommandLine c with
  | .error e =>
    IO.eprintln s!"Error: {e.message}"
    return 1
  | .ok request =>
    let text ← readText? request.path
    match request.answer fun _ => text with
    | none => return 1
    | some (.error e) =>
      IO.eprintln s!"Error: {e.message}"
      return 1
    | some (.ok lines) =>
      IO.print (outputText colors lines)
      return 0

end TypeProbe

/-- The command. -/
def main (words : List String) : IO UInt32 := do
  match TypeProbe.CommandLine.ofWords words with
  | .ok c => TypeProbe.answerCommandLine c
  | .error .help =>
    IO.println TypeProbe.usageText
    return 0
  | .error .version =>
    IO.println TypeProbe.versionText
    return 0
  | .error _ =>
    IO.eprintln TypeProbe.usageText
    return 2
