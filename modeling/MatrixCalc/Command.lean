import MatrixCalc.Workspace

/-!
# The command

`Request.ofArguments` reads the arguments `INPUT [OUTPUT] [-e STATEMENT]…` from left to right;
`Invocation.answer` says what the command does once the input file has been read: print a report,
write a result file, or fail with a message.  Reading and writing files is left to the caller.
There is no answer if a computation breaks down (`Invocation.breakdown?`).
-/

namespace MatrixCalc

/-- A workspace to evaluate. -/
structure Invocation where
  /-- The path of the workspace file. -/
  input : String
  /-- The path of the result file; without one the results are printed. -/
  output : Option String := none
  /-- Statements to process behind those of the workspace. -/
  further : List String := []
deriving DecidableEq

/-- What the arguments of the command ask for. -/
inductive Request where
  /-- Evaluate a workspace. -/
  | evaluate (invocation : Invocation)
  /-- Say how the command is used. -/
  | help
  /-- Say which version this is. -/
  | version
  /-- Nothing that the command does. -/
  | misuse
deriving DecidableEq

namespace Request

/-- One argument. -/
inductive Argument where
  /-- A path. -/
  | path (path : String)
  /-- The end of the options. -/
  | endOfOptions
  /-- A further statement. -/
  | statement (text : String)
  /-- The next argument is a further statement. -/
  | statementFollows
  | help
  | version
  | unknown
deriving DecidableEq

/-- The argument with the letters behind a single hyphen. -/
def shortOption : List Char → Argument
  | ['e'] => .statementFollows
  | 'e' :: '=' :: text => .statement (String.ofList text)
  | 'e' :: text => .statement (String.ofList text)
  | 'h' :: _ => .help
  | 'V' :: _ => .version
  | _ => .unknown

/-- The argument with the given word and value behind two hyphens. -/
def longOption (word : String) (value : Option String) : Argument :=
  match value with
  | none =>
    if word = "eval" then .statementFollows
    else if word = "help" then .help
    else if word = "version" then .version
    else .unknown
  | some value => if word = "eval" then .statement value else .unknown

/-- What an argument in front of the end of the options is. -/
def argument (text : String) : Argument :=
  match text.toList with
  | ['-', '-'] => .endOfOptions
  | '-' :: '-' :: rest =>
    let word := String.ofList (rest.takeWhile (· != '='))
    match rest.dropWhile (· != '=') with
    | [] => longOption word none
    | _ :: value => longOption word (some (String.ofList value))
  | '-' :: letter :: rest => shortOption (letter :: rest)
  | _ => .path text

/-- The text can be the value of an option: it does not look like an option itself. -/
def isValue (text : String) : Bool :=
  match argument text with
  | .path _ => true
  | _ => false

/-- The request of the paths, in order. -/
def ofPaths (paths further : List String) : Request :=
  match paths with
  | [input] => evaluate ⟨input, none, further⟩
  | [input, output] => evaluate ⟨input, some output, further⟩
  | _ => misuse

/-- The request of the arguments behind the end of the options. -/
def ofRest (paths further : List String) (rest : List String) : Request :=
  if rest.contains "" then misuse else ofPaths (paths ++ rest) further

/-- The request of the arguments behind those that gave `paths` and `further`. -/
def ofArgumentsFrom (paths further : List String) : List String → Request
  | [] => ofPaths paths further
  | text :: rest =>
    match argument text with
    | .path path =>
      if path = "" ∨ 2 ≤ paths.length then misuse
      else ofArgumentsFrom (paths ++ [path]) further rest
    | .endOfOptions => ofRest paths further rest
    | .statement statement => ofArgumentsFrom paths (further ++ [statement]) rest
    | .statementFollows =>
      match rest with
      | [] => misuse
      | statement :: rest =>
        if isValue statement then ofArgumentsFrom paths (further ++ [statement]) rest else misuse
    | .help => help
    | .version => version
    | .unknown => misuse

/-- The request of a list of arguments. -/
def ofArguments (arguments : List String) : Request := ofArgumentsFrom [] [] arguments

end Request

/-- What the command does in the end. -/
inductive Answer where
  /-- Print a report. -/
  | report (text : String)
  /-- Write a result file. -/
  | file (path text : String)
  /-- Fail. -/
  | failure (message : String)
deriving DecidableEq

namespace Answer

/-- What happened while something else was attempted; the cause may be left open. -/
def during (attempt cause : String) : String :=
  if cause.isEmpty then attempt else attempt ++ ": " ++ cause

/-- The message about an input file that cannot be read. -/
def unreadable (path cause : String) : String := during ("Reading " ++ path) cause

/-- The message about a result file that cannot be created. -/
def uncreatable (path cause : String) : String :=
  during ("Writing JSON results: Creating " ++ path) cause

end Answer

/-- The breakdown that ends the command before it has an answer. -/
def Invocation.breakdown? (invocation : Invocation) (text : String) : Option Breakdown :=
  match Workspace.load text with
  | (.error _, _) => none
  | (.ok workspace, _) =>
    match workspace.run invocation.further with
    | (.error e, _) => e.breakdown?
    | (.ok _, _) => none

/-- What the command does with the text of the input file, unless it breaks down. -/
def Invocation.answer (invocation : Invocation) (text : String) : Answer :=
  match Workspace.load text with
  | (.error e, _) => .failure (Answer.during "Parsing input JSON" e.message)
  | (.ok workspace, _) =>
    match workspace.run invocation.further with
    | (.error e, _) => .failure (Answer.during "Evaluating workspace equations" e.message)
    | (.ok results, _) =>
      match invocation.output with
      | none => .report results.report
      | some path => .file path results.document

end MatrixCalc
