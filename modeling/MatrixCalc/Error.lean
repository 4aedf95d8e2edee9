import MatrixCalc.Builtin
import MatrixCalc.Cell
import MatrixCalc.Token

/-!
# Errors

Every failure of compiling or performing a statement is a constructor that names its cause, and
`Error.message` is the only place that words it.  Compiling fails with `malformed`, `unbound` or
`reserved`; performing fails with `shape` or `numeric`.

A `Breakdown` is different: it is not handed to the caller, but takes the whole program down with
it, or keeps it busy forever.  It stands among the reasons why a computation has no result, as
`Error.breakdown`.
-/

namespace MatrixCalc

/-- Why a text is not a statement. -/
inductive Malformed where
  -- characters
  | strayPoint
  | secondPoint (numeral : String)
  | emptyExponent (numeral : String)
  | numeralRunsOn (numeral : String) (next : Char)
  | integerTooLarge (numeral : String)
  | nothingToTranspose
  | wrongClosing (closing opening : Symbol)
  | closingWithoutOpening (closing : Symbol)
  | unterminated (opening : Symbol)
  | strangeCharacter (c : Char)
  -- macro declarations
  | expectedWord (what : String) (found : Option String)
  | expectedSymbol (s : Symbol) (found : Option String)
  | repeatedParameter (parameter name : String)
  | emptyBody (name : String)
  | assignmentInBody (name : String)
  -- macro invocations
  | unterminatedInvocation
  | wrongArgumentCount (name : String) (expected found : Nat)
  | emptyMacroArgument (name : String)
  | expansionTooDeep
  -- assignments
  | noAssignment
  | severalAssignments
  | emptyValue
  | emptyTarget
  | targetNotAWord (found : String)
  | targetNotAddressed
  | targetNotAMatrix (name : String) (kind : Kind)
  | nothingToAssign
  | declarationInside
  -- operators
  | nestedTooDeeply
  | unmatchedClosing (closing : Symbol)
  | missingLeftOperand (s : Symbol)
  | missingRightOperand (s : Symbol)
  | nothingToNegate
  | unexpectedIn (context : String) (found : String)
  | unexpected (found : String)
  | uncalledFunction (f : Builtin)
  -- calls, indices and literals
  | emptyArgument (f : Builtin)
  | emptyIndex
  | tooManyIndices
  | emptyRow
  | emptyElement
  | openRangeInLiteral (found : String)
  | literalHeights (row : Nat)
  | literalWidth (row width expected : Nat)
  -- ranges and lists of indices
  | rangeWithoutStart
  | rangeWithoutEnd
  | doubleColon
  | boundNotAnInteger (kind : Kind)
  | notListable (found : String)
  -- operand kinds
  | notDefinedFor (what : String) (kinds : List Kind)
  | notBinary (s : Symbol)
  | notUnary (s : Symbol)
  | transposeOf (kind : Kind)
  | axisNotLiteral (name : String)
  | wrongArity (f : Builtin) (found : Nat)
  | cannotCopy (source target : Kind)
  | cannotInsert (source : Kind)
  | notAnIndex (kind : Kind)
deriving DecidableEq

/-- Rows and columns. -/
structure Shape where
  /-- The number of rows. -/
  rows : Nat
  /-- The number of columns. -/
  cols : Nat
deriving DecidableEq

/-- The shape in words. -/
def Shape.text (s : Shape) : String := s!"{s.rows}x{s.cols}"

/-- What an index counts. -/
inductive Axis where
  | element
  | row
  | column
deriving DecidableEq

/-- The axis in words. -/
def Axis.text : Axis → String
  | element => "element"
  | row => "row"
  | column => "column"

/-- Why shapes do not fit. -/
inductive ShapeMismatch where
  /-- A 1x1 operand was most likely meant as a scalar. -/
  | singleElement (what : String) (single other : Shape)
  | unequal (what : String) (left right : Shape)
  | product (left right : Shape)
  | notSquare (what : String) (found : Shape)
  | negativeDimension (n : Int64)
  | outOfBounds (axis : Axis) (index : Int64) (size : Nat)
  | notSingle (found : Shape)
  | insertCount (found expected : Nat)
  | insertShape (found expected : Shape)
  | literalHeights (row expected found : Nat)
  | literalWidth (row width expected : Nat)
  | dotOfMatrix
  | dotLengths (left right : Nat)
  | rightHandSide (system right : Shape)
deriving DecidableEq

/-- Arithmetic on two numbers. -/
inductive Arith where
  | add
  | subtract
  | multiply
  | divide
  | power
  | atan2
deriving DecidableEq

/-- The arithmetic in words. -/
def Arith.text : Arith → String
  | add => "Add"
  | subtract => "Subtract"
  | multiply => "Multiply"
  | divide => "Divide"
  | power => "Power"
  | atan2 => "Atan2"

/-- Why a matrix has no singular value decomposition.  Nothing guards against this. -/
inductive Breakdown where
  /-- There are no entries. -/
  | noEntries
  /-- The rounds that make the matrix diagonal do not come to an end in any time that counts. -/
  | endless
  /-- A singular value is not a number, so that the values have no order. -/
  | unordered
deriving DecidableEq

/-- Why a computation has no result. -/
inductive NumericFailure where
  | integerDivision (a b : Int64)
  | notIntegral (op : Arith)
  | zeroStep
  | singularInverse
  | singularSystem
  /-- The exponent of a vector norm is below one. -/
  | vectorNorm (p : Float)
  /-- The exponent of a matrix norm is neither one nor two. -/
  | matrixNorm (p : Float)
  /-- The computation breaks down.  This is not reported. -/
  | breakdown (cause : Breakdown)
deriving DecidableEq

/-- A failure of compiling or performing a statement. -/
inductive Error where
  /-- The text is not a statement. -/
  | malformed (cause : Malformed)
  /-- A word names nothing. -/
  | unbound (name : String)
  /-- A name cannot be bound. -/
  | reserved (name : String)
  /-- Shapes do not fit. -/
  | shape (cause : ShapeMismatch)
  /-- A computation has no result. -/
  | numeric (cause : NumericFailure)
deriving DecidableEq

/-- The end of everything that waits for a computation that breaks down. -/
@[match_pattern]
abbrev Error.breakdown (cause : Breakdown) : Error := numeric (.breakdown cause)

/-- The breakdown, if it is one. -/
def Error.breakdown? : Error → Option Breakdown
  | breakdown cause => some cause
  | _ => none

/-- The cause in words. -/
def Malformed.message : Malformed → String
  | strayPoint => "unexpected '.'"
  | secondPoint numeral => s!"unexpected '.' in number {numeral}"
  | emptyExponent numeral => s!"malformed exponent in {numeral}"
  | numeralRunsOn numeral next => s!"malformed numeric literal {numeral}{next}"
  | integerTooLarge numeral => s!"bad integer {numeral}: number too large to fit in target type"
  | nothingToTranspose => "transpose with nothing to transpose"
  | wrongClosing closing opening => s!"{closing.quoted} does not close {opening.quoted}"
  | closingWithoutOpening closing =>
    s!"{closing.quoted} with no matching {closing.opener.quoted}"
  | unterminated opening => s!"unterminated {opening.quoted}"
  | strangeCharacter c => s!"unexpected character {c}"
  | expectedWord what none => s!"expected {what}"
  | expectedWord what (some found) => s!"expected {what}, found {found}"
  | expectedSymbol s none => s!"expected {s.quoted}"
  | expectedSymbol s (some found) => s!"expected {s.quoted}, found {found}"
  | repeatedParameter parameter name => s!"parameter `{parameter}` appears twice in macro `{name}`"
  | emptyBody name => s!"macro `{name}` has an empty body"
  | assignmentInBody name => s!"macro `{name}` body contains an assignment"
  | unterminatedInvocation => "unterminated macro invocation"
  | wrongArgumentCount name expected found =>
    s!"macro `{name}` expects {expected} arguments, got {found}"
  | emptyMacroArgument name => s!"empty argument in invocation of macro `{name}`"
  | expansionTooDeep => "macro expansion nested too deeply; is a macro recursive?"
  | noAssignment => "expected an assignment"
  | severalAssignments => "only one '=' is allowed per statement"
  | emptyValue => "nothing to the right of '='"
  | emptyTarget => "nothing to the left of '='"
  | targetNotAWord found => s!"cannot assign to {found}"
  | targetNotAddressed => "expected `name` or `name(indices)` to the left of '='"
  | targetNotAMatrix name kind =>
    s!"cannot assign into elements of `{name}`, a {kind.text}"
  | nothingToAssign => "nothing to assign"
  | declarationInside => "`macro` may only start a declaration"
  | nestedTooDeeply => "expression nested too deeply"
  | unmatchedClosing closing => s!"unmatched {closing.quoted}"
  | missingLeftOperand s => s!"{s.quoted} is missing its left operand"
  | missingRightOperand s => s!"{s.quoted} is missing its right operand"
  | nothingToNegate => "'-' with nothing to negate"
  | unexpectedIn context found => s!"{context}: unexpected {found}"
  | unexpected found => s!"unexpected {found}"
  | uncalledFunction f => s!"`{f.name}` must be called with arguments"
  | emptyArgument f => s!"empty argument in call to `{f.name}`"
  | emptyIndex => "empty index"
  | tooManyIndices => "matrices take at most two indices"
  | emptyRow => "empty row in matrix literal"
  | emptyElement => "empty element in matrix literal"
  | openRangeInLiteral found => s!"open-ended range in matrix literal: {found}"
  | literalHeights row => s!"blocks in row {row} of the matrix literal have different heights"
  | literalWidth row width expected =>
    s!"row {row} of the matrix literal is {width} wide, expected {expected}"
  | rangeWithoutStart => "a range needs a start before ':'"
  | rangeWithoutEnd => "a range with a step needs an end after ':'"
  | doubleColon => "unexpected '::'"
  | boundNotAnInteger kind => s!"range bounds must be integers, found a {kind.text}"
  | notListable found => s!"only integers and ranges can be listed side by side, found {found}"
  | notDefinedFor what kinds =>
    s!"{what} is not defined for " ++ " and ".intercalate (kinds.map Kind.text)
  | notBinary s => s!"{s.quoted} is not a binary operator"
  | notUnary s => s!"{s.quoted} is not a unary operator"
  | transposeOf kind => s!"transpose only makes sense for a matrix, not a {kind.text}"
  | axisNotLiteral name => s!"{name}(A,d) expects d to be 0 for rows or 1 for columns"
  | wrongArity f found =>
    s!"{f.name} expects [" ++ ", ".intercalate (f.arities.map toString) ++
      s!"] arguments, got {found}"
  | cannotCopy source target => s!"cannot assign a {source.text} to a {target.text}"
  | cannotInsert source => s!"cannot assign a {source.text} to a submatrix"
  | notAnIndex kind =>
    s!"expected an integer or integer sequence as an index, found a {kind.text}"

/-- The cause in words. -/
def ShapeMismatch.message : ShapeMismatch → String
  | singleElement what single other =>
    s!"Trying to {what} a {single.text} matrix to every element in a {other.text} matrix; " ++
      "use a scalar instead"
  | unequal what left right => s!"cannot {what} {left.text} and {right.text}"
  | product left right => s!"cannot multiply {left.text} by {right.text}"
  | notSquare what found => s!"{what} requires a square matrix, not {found.text}"
  | negativeDimension n => s!"negative matrix dimension {n.toInt}"
  | outOfBounds axis index size =>
    s!"{axis.text} index {index.toInt} is out of bounds for size {size}"
  | notSingle found => s!"Attempting to assign a {found.text} matrix to a double"
  | insertCount found expected => s!"cannot insert {found} elements into {expected} positions"
  | insertShape found expected =>
    s!"cannot insert a {found.text} matrix into a {expected.text} block"
  | literalHeights row expected found =>
    s!"row {row} of the matrix literal mixes heights {expected} and {found}"
  | literalWidth row width expected =>
    s!"row {row} of the matrix literal is {width} wide, expected {expected}"
  | dotOfMatrix => "Both inputs to dot() must be vectors"
  | dotLengths left right => s!"dot() of vectors with {left} and {right} elements"
  | rightHandSide system right =>
    s!"cannot solve {system.text} system with {right.text} right-hand side"

/-- The last words of a program that breaks down; one that does not come to an end has none. -/
def Breakdown.message : Breakdown → String
  | noEntries => "Cannot compute the SVD of an empty matrix."
  | endless => ""
  | unordered => "Singular value was NaN"

/-- The cause in words. -/
def NumericFailure.message : NumericFailure → String
  | integerDivision a b => s!"integer division {a.toInt} / {b.toInt} is undefined"
  | notIntegral op => s!"{op.text} is not an integer operation"
  | zeroStep => "range step must not be zero"
  | singularInverse => "Inverse failed! matrix is singular"
  | singularSystem => "Solver failed! matrix is singular"
  | vectorNorm p => s!"normP needs p >= 1, got {Layout.plain.write p}"
  | matrixNorm p =>
    s!"normP of a matrix supports p = 1 or 2, got {Layout.plain.write p}"
  | breakdown cause => cause.message

/-- The error in words. -/
def Error.message : Error → String
  | malformed cause => s!"syntax error: {cause.message}"
  | unbound name => s!"unknown variable `{name}`"
  | reserved name => s!"reserved name `{name}`"
  | shape cause => s!"shape mismatch: {cause.message}"
  | breakdown cause => cause.message
  | numeric cause => s!"numeric failure: {cause.message}"

end MatrixCalc
