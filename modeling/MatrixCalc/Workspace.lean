import MatrixCalc.Json.Printer
import MatrixCalc.Json.Reader
import MatrixCalc.Session
import MatrixCalc.Value

/-!
# Workspaces

A `Workspace` is a document that gives variables their values and lists statements.  Running it
defines the variables in a new session, processes the statements and then any further ones, and
collects the values of all names as `Results`.

* `Workspace.load` : reads a workspace from a text.
* `Workspace.run` : the results, or the statement that failed.
* `Results.report`, `Results.document` : the results as a report and as a document.
-/

namespace MatrixCalc

/-- The values of names. -/
abbrev Results := Bindings Value

namespace Results

/-- The results for a reader, one line for a scalar, one for the head and each row of a matrix. -/
def report (results : Results) : String :=
  String.join ((results.entries.flatMap fun entry => entry.2.report entry.1).map (· ++ "\n"))

/-- The results as a document. -/
def document (results : Results) : String :=
  (Json.object (results.entries.map fun entry => (entry.1, entry.2.toJson))).pretty

end Results

/-- The values of variables, and statements. -/
structure Workspace where
  /-- What the variables hold at first. -/
  definitions : Bindings Value := {}
  /-- The statements in order. -/
  statements : List String := []

namespace Workspace

/-! ### Loading -/

/-- Why a text gives no workspace. -/
inductive LoadError where
  /-- The text is not a workspace document. -/
  | notAWorkspace
  /-- The rows of a matrix differ in length. -/
  | ragged (name : String) (defect : Matrix.Ragged)
deriving DecidableEq

/-- The error in words. -/
def LoadError.message : LoadError → String
  | notAWorkspace => "Failed to parse JSON"
  | ragged name defect => s!"variable `{name}`: {defect.message}"

section Reading

-- What a numeral means as a double is left to `read`.
variable (read : Json.Numeral → Option Float)

/-- The values that an object gives to names; of a name that occurs again the last value counts. -/
def variablesOf? (document : Json) : Option (Bindings Value) := do
  let values ← (← document.fields?).mapM fun field => (Value.ofJson? read field.2).map (field.1, ·)
  return values.foldl (fun table entry => table.insert entry.1 entry.2) {}

/-- The statements that an array lists. -/
def statementsOf? (document : Json) : Option (List String) := do
  (← document.items?).mapM Json.text?

/-- The workspace with the given parts; a missing part is empty. -/
def ofParts? (definitions statements : Option Json) : Option Workspace := do
  let definitions ← match definitions with
    | some document => variablesOf? read document
    | none => some {}
  let statements ← match statements with
    | some document => statementsOf? document
    | none => some []
  return { definitions, statements }

/-- The only field of a name, if there is one; a second one is a defect. -/
def onlyField? (name : String) (fields : List (String × Json)) : Option (Option Json) :=
  match fields.filter (·.1 == name) with
  | [] => some none
  | [field] => some (some field.2)
  | _ => none

/-- The workspace that a document describes: an object with the fields `variables` and `equations`,
or an array of the two.  Other fields are ignored. -/
def ofJson? : Json → Option Workspace
  | .object fields => do
    ofParts? read (← onlyField? "variables" fields) (← onlyField? "equations" fields)
  | .array [] => some {}
  | .array [definitions] => ofParts? read (some definitions) none
  | .array [definitions, statements] => ofParts? read (some definitions) (some statements)
  | _ => none

/-- The defect of a value, if it is a ragged matrix. -/
def raggedIn? : Value → Option Matrix.Ragged
  | .matrix rows =>
    match Matrix.ofRows rows with
    | .ok _ => none
    | .error defect => some defect
  | _ => none

/-- The first matrix whose rows differ in length. -/
def firstRagged? : List (String × Value) → Option (String × Matrix.Ragged)
  | [] => none
  | (name, value) :: rest =>
    match raggedIn? value with
    | some defect => some (name, defect)
    | none => firstRagged? rest

/-- The workspace in a text, and what loading it reported. -/
def loadWith (text : String) : Except LoadError Workspace × List Event :=
  let start := Event.fileRead text.utf8ByteSize
  match (Json.ofString? text).bind (ofJson? read) with
  | none => (.error .notAWorkspace, [start])
  | some workspace =>
    match firstRagged? workspace.definitions.entries with
    | some (name, defect) => (.error (.ragged name defect), [start])
    | none =>
      (.ok workspace,
        [start, .loaded workspace.definitions.entries.length workspace.statements.length])

end Reading

/-- The workspace in a text, whose doubles are read from their leading digits. -/
def load (text : String) : Except LoadError Workspace × List Event :=
  loadWith Json.Numeral.toFloat? text

/-! ### Running -/

/-- Why a workspace has no results. -/
inductive Failure where
  /-- The rows of a matrix differ in length. -/
  | ragged (defect : Matrix.Ragged)
  /-- A variable cannot be defined. -/
  | definition (cause : Error)
  /-- A statement failed; statements are counted from one. -/
  | statement (number : Nat) (text : String) (cause : Error)
deriving DecidableEq

/-- The failure in words. -/
def Failure.message : Failure → String
  | ragged defect => defect.message
  | definition cause => cause.message
  | statement number text cause => s!"statement {number}: `{text}`: {cause.message}"

/-- The breakdown that the failure stands for, if it is one. -/
def Failure.breakdown? : Failure → Option Breakdown
  | statement _ _ cause => cause.breakdown?
  | _ => none

/-- Gives a variable the value of a document. -/
def define (s : Session) (name : String) : Value → Except Failure Session
  | .matrix rows =>
    match Matrix.ofRows rows with
    | .error defect => .error (.ragged defect)
    | .ok m => (@Session.define s .matrix name m).mapError .definition
  | .double x => (@Session.define s .double name x).mapError .definition
  | .integer n => (@Session.define s .integer name n).mapError .definition

/-- Gives variables their values. -/
def defineAll (s : Session) : List (String × Value) → Except Failure Session
  | [] => .ok s
  | (name, value) :: rest =>
    match define s name value with
    | .ok s => defineAll s rest
    | .error e => .error e

/-- Processes statements, the first of which has the given number; `events` is what has been
reported before. -/
def processAll (s : Session) (events : List Event) (number : Nat) :
    List String → Except Failure Session × List Event
  | [] => (.ok s, events)
  | text :: rest =>
    match s.process text with
    | ⟨.ok _, s, more⟩ => processAll s (events ++ more) (number + 1) rest
    | ⟨.error e, _, more⟩ => (.error (.statement number text e), events ++ more)

/-- The value of a variable; a sequence has none. -/
def valueOf? (store : Store) : Variable → Option Value
  | ⟨.matrix, cell⟩ => some (.matrix (store.read cell).toRows)
  | ⟨.double, cell⟩ => some (.double (store.read cell))
  | ⟨.integer, cell⟩ => some (.integer (store.read cell))
  | ⟨.sequence, _⟩ => none

/-- The values of all names of a session. -/
def results (s : Session) : Results :=
  ⟨s.scope.entries.filterMap fun entry => (valueOf? s.store entry.2).map (entry.1, ·)⟩

/-- What is reported about the names that have no value. -/
def skipped (s : Session) : List Event :=
  s.scope.entries.filterMap fun entry =>
    if (valueOf? s.store entry.2).isNone then some (.skipped entry.1) else none

/-- The results of a workspace and further statements, and what running them reported. -/
def run (workspace : Workspace) (further : List String) :
    Except Failure Results × List Event :=
  match defineAll {} workspace.definitions.entries with
  | .error e => (.error e, [])
  | .ok s =>
    match processAll s [] 1 (workspace.statements ++ further) with
    | (.error e, events) => (.error e, events)
    | (.ok s, events) =>
      let count := workspace.statements.length + further.length
      (.ok (results s), events ++ .processed count :: skipped s)

end Workspace

end MatrixCalc
