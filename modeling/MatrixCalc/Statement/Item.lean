import MatrixCalc.Bindings
import MatrixCalc.Draft
import MatrixCalc.Token.Group

/-!
# Items

An `Item` is a token whose meaning is settled: words have become variables or functions, literals
have become intermediate variables.
-/

namespace MatrixCalc

/-- A token with its meaning. -/
inductive Item where
  /-- An operator, bracket or separator. -/
  | symbol (s : Symbol)
  /-- A function. -/
  | function (f : Builtin)
  /-- A variable. -/
  | value (v : Variable)
deriving DecidableEq

namespace Item

instance : HasSymbol Item where
  symbol?
    | symbol s => some s
    | _ => none

/-- The item as a message names it. -/
def describe (s : Store) : Item → String
  | symbol s => s.quoted
  | function f => s!"function `{f.name}`"
  | value v => v.describe s

/-- The item of a token, given what is bound. -/
def ofToken (scope : Bindings Variable) : Token → Build Item
  | .symbol s => pure (symbol s)
  | .word name =>
    match scope.find? name, Builtin.ofName? name with
    | some v, _ => pure (value v)
    | none, some f => pure (function f)
    | none, none =>
      if name = macroKeyword then Build.fail .declarationInside else throw (.unbound name)
  | .integer n => do return value (← Build.integerLiteral n)
  | .double x => do return value (← Build.doubleLiteral x)

/-- The items of a list of tokens. -/
def ofTokens (scope : Bindings Variable) : List Token → Build (List Item)
  | [] => pure []
  | t :: ts => do
    let item ← ofToken scope t
    return item :: (← ofTokens scope ts)

/-- The variable that an item is; `context` says what asks for it. -/
def operand (context : String) : Item → Build Variable
  | value v => pure v
  | other => do Build.fail (.unexpectedIn context (other.describe (← get).store))

end Item

end MatrixCalc
