/-!
# Built-in functions and reserved names

`Builtin` lists the functions of the statement language, `Builtin.table` their names.  A name may
be bound to a variable or a macro iff it is `bindable`: an identifier that is neither the word
`macro` nor the name of a function.

* `Builtin.ofName?_name` : every function is found under its name.
* `Builtin.isReserved_name` : the name of a function is reserved.
-/

namespace MatrixCalc

/-- A built-in function. -/
inductive Builtin where
  | inv
  | pinv
  | rref
  | det
  | trace
  | normF
  | normP
  | max
  | min
  | sum
  | abs
  | sin
  | cos
  | atan
  | exp
  | log
  | sqrt
  | atan2
  | pow
  | eye
  | diag
  | zeros
  | ones
  | kron
  | dot
  | solve
deriving DecidableEq

namespace Builtin

/-- The name under which a function is called. -/
def name : Builtin → String
  | inv => "inv"
  | pinv => "pinv"
  | rref => "rref"
  | det => "det"
  | trace => "trace"
  | normF => "normF"
  | normP => "normP"
  | max => "max"
  | min => "min"
  | sum => "sum"
  | abs => "abs"
  | sin => "sin"
  | cos => "cos"
  | atan => "atan"
  | exp => "exp"
  | log => "log"
  | sqrt => "sqrt"
  | atan2 => "atan2"
  | pow => "pow"
  | eye => "eye"
  | diag => "diag"
  | zeros => "zeros"
  | ones => "ones"
  | kron => "kron"
  | dot => "dot"
  | solve => "solve"

/-- Every function. -/
def all : List Builtin :=
  [inv, pinv, rref, det, trace, normF, normP, max, min, sum, abs, sin, cos, atan, exp, log, sqrt,
   atan2, pow, eye, diag, zeros, ones, kron, dot, solve]

/-- The function of a name. -/
def ofName? (name : String) : Option Builtin := all.find? fun f => f.name == name

/-- The argument counts that a function takes. -/
def arities : Builtin → List Nat
  | max | min | sum => [1, 2]
  | normP | atan2 | pow | zeros | ones | kron | dot | solve => [2]
  | _ => [1]

theorem ofName?_name (f : Builtin) : ofName? f.name = some f := by
  cases f <;> decide +kernel

end Builtin

/-- The word that starts a macro declaration. -/
def macroKeyword : String := "macro"

/-- The name has a meaning of its own in the language. -/
def isReserved (name : String) : Bool := name == macroKeyword || (Builtin.ofName? name).isSome

theorem Builtin.isReserved_name (f : Builtin) : isReserved f.name = true := by
  simp [isReserved, Builtin.ofName?_name]

/-- The character may start a word. -/
def isWordStart (c : Char) : Bool := c.isAlpha || c == '_'

/-- The character may stand inside a word. -/
def isWordPart (c : Char) : Bool := c.isAlphanum || c == '_'

/-- The text is an identifier: a letter or underscore, then letters, digits and underscores, all
of them ASCII. -/
def isIdentifier (name : String) : Bool :=
  match name.toList with
  | [] => false
  | first :: rest => isWordStart first && rest.all isWordPart

/-- The name may be bound to a variable or a macro. -/
def bindable (name : String) : Bool := !isReserved name && isIdentifier name

end MatrixCalc
