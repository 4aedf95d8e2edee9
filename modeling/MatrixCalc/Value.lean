import MatrixCalc.Json.Basic
import MatrixCalc.Decimal.Layout

/-!
# Values of documents

A `Value` is what a workspace file gives a variable, and what a result file says of one.  In a
document it is an object with one field, whose name tells the kind: `matrix`, `double` or `integer`.
-/

namespace MatrixCalc

/-- A value outside of a session. -/
inductive Value where
  /-- A matrix, row by row. -/
  | matrix (rows : List (List Float))
  /-- A double. -/
  | double (x : Float)
  /-- An integer. -/
  | integer (n : Int64)

namespace Value

/-! ### Documents -/

/-- The value that a document describes; `read` reads doubles. -/
def ofJson? (read : Json.Numeral → Option Float) : Json → Option Value
  | .object [("matrix", rows)] => do
    let rows ← (← rows.items?).mapM Json.items?
    return matrix (← rows.mapM fun row => row.mapM (Json.float? read))
  | .object [("double", x)] => (x.float? read).map double
  | .object [("integer", n)] => n.int64?.map integer
  | _ => none

/-- A double in a document; one that is not finite is written as nothing. -/
def floatToJson (x : Float) : Json :=
  if x.isFinite then .number (Layout.json.write x) else .null

/-- The document that describes a value. -/
def toJson : Value → Json
  | matrix rows => .object [("matrix", .array (rows.map fun row => .array (row.map floatToJson)))]
  | double x => .object [("double", floatToJson x)]
  | integer n => .object [("integer", .number (toString n.toInt))]

/-! ### Reports -/

/-- A row of a matrix in a report: columns of at least ten characters, four places each. -/
def rowText (row : List Float) : String :=
  "  " ++ " ".intercalate (row.map fun x => alignRight 10 (fixedPoint 4 x))

/-- The lines of a report about a value. -/
def report (name : String) : Value → List String
  | matrix rows =>
    let cols := (rows.head?.map List.length).getD 0
    s!"{name} = [{rows.length}x{cols}]" :: rows.map rowText
  | double x => [s!"{name} = {Layout.plain.write x}"]
  | integer n => [s!"{name} = {n.toInt}"]

end Value

end MatrixCalc
