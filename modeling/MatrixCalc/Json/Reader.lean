import MatrixCalc.Json.Basic
import MatrixCalc.Json.Lexeme

/-!
# Reading documents

`Json.ofLexemes?` builds the tree of a list of lexemes.  What is read but not complete yet is a list
of `Frame`s, the innermost first, so that the work is one walk along the lexemes whatever the depth.
`Json.ofString?` reads a text that holds exactly one document.
-/

namespace MatrixCalc

namespace Json

/-- An array or object that is still open. -/
inductive Frame where
  /-- The values so far, last one first. -/
  | array (done : List Json)
  /-- The named values so far, last one first, and the name of the next one. -/
  | object (done : List (Option String × Json)) (name : Option String)

/-- The value of a string. -/
def ofText : Option String → Json
  | some text => string text
  | none => garbled

/-- The value of an object, from its named values, last one first. -/
def ofFields (done : List (Option String × Json)) : Json :=
  match done.reverse.mapM fun field => field.1.map (·, field.2) with
  | some fields => object fields
  | none => garbled

mutual

/-- Reads on where a value must follow. -/
def readValue (stack : List Frame) : List Lexeme → Option Json
  | .null :: rest => readAfter stack null rest
  | .bool value :: rest => readAfter stack (bool value) rest
  | .number numeral :: rest => readAfter stack (number numeral) rest
  | .string text :: rest => readAfter stack (ofText text) rest
  | .openArray :: .closeArray :: rest => readAfter stack (array []) rest
  | .openArray :: rest => readValue (.array [] :: stack) rest
  | .openObject :: .closeObject :: rest => readAfter stack (object []) rest
  | .openObject :: .string name :: .colon :: rest => readValue (.object [] name :: stack) rest
  | _ => none

/-- Reads on behind a value. -/
def readAfter (stack : List Frame) (value : Json) : List Lexeme → Option Json
  | [] =>
    match stack with
    | [] => some value
    | _ :: _ => none
  | .closeArray :: rest =>
    match stack with
    | .array done :: stack => readAfter stack (array (value :: done).reverse) rest
    | _ => none
  | .closeObject :: rest =>
    match stack with
    | .object done name :: stack => readAfter stack (ofFields ((name, value) :: done)) rest
    | _ => none
  | .comma :: .string next :: .colon :: rest =>
    match stack with
    | .object done name :: stack =>
      readValue (.object ((name, value) :: done) next :: stack) rest
    | _ => none
  | .comma :: rest =>
    match stack with
    | .array done :: stack => readValue (.array (value :: done) :: stack) rest
    | _ => none
  | _ => none

end

/-- The document that a list of lexemes is. -/
def ofLexemes? (lexemes : List Lexeme) : Option Json := readValue [] lexemes

/-- The document that a text is. -/
def ofString? (text : String) : Option Json := (Lexeme.ofString? text).bind ofLexemes?

end Json

end MatrixCalc
