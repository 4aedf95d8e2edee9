import MatrixCalc.Command

/-!
# Entry point

The command reads the workspace file, and prints the results or writes them to a file.  It exits
with 0 if it succeeds, with 1 if it fails, with 2 if the arguments are wrong and with 101 if a
computation breaks down.
-/

namespace MatrixCalc

/-- How the command is used. -/
def usage : String :=
  "Usage: matrixcalc [OPTIONS] <INPUT> [OUTPUT]\n\n" ++
  "Arguments:\n" ++
  "  <INPUT>   Input .json workspace file (variables and equations)\n" ++
  "  [OUTPUT]  Output .json file; results are printed when omitted\n\n" ++
  "Options:\n" ++
  "  -e, --eval <EXPR>  Extra statement to run after the workspace's own equations\n" ++
  "  -h, --help         Print help\n" ++
  "  -V, --version      Print version\n"

/-- Ends with a message. -/
def fail (message : String) : IO UInt32 := do
  IO.eprintln ("Error: " ++ message)
  return 1

/-- Carries out an answer. -/
def Answer.perform : Answer → IO UInt32
  | report text => do
    IO.print text
    return 0
  | failure message => fail message
  | file path text => do
    try
      IO.FS.writeFile path text
      return 0
    catch e =>
      fail (Answer.uncreatable path (toString e))

/-- Evaluates the workspace in the text of the input file. -/
def Invocation.evaluate (invocation : Invocation) (text : String) : IO UInt32 :=
  match invocation.breakdown? text with
  | some cause => do
    IO.eprintln cause.message
    return 101
  | none => (invocation.answer text).perform

/-- Evaluates a workspace. -/
def Invocation.perform (invocation : Invocation) : IO UInt32 := do
  let text ← try
      pure (Except.ok (← IO.FS.readFile invocation.input))
    catch e =>
      pure (.error (Answer.unreadable invocation.input (toString e)))
  match text with
  | .ok text => invocation.evaluate text
  | .error message => fail message

end MatrixCalc

open MatrixCalc in
/-- The command. -/
def main (args : List String) : IO UInt32 := do
  match Request.ofArguments args with
  | .evaluate invocation => invocation.perform
  | .help =>
    IO.print usage
    return 0
  | .version =>
    IO.println "matrixcalc 0.1.0"
    return 0
  | .misuse =>
    IO.eprint usage
    return 2
