import MatrixCalc.Symbol
import MatrixCalc.Decimal.Layout

/-!
# Tokens

A statement is a list of tokens: symbols, words and literals.  Words are not looked up here; what
they name is decided when a statement is compiled.
-/

namespace MatrixCalc

/-- A token of a statement. -/
inductive Token where
  /-- An operator, bracket or separator. -/
  | symbol (s : Symbol)
  /-- An identifier. -/
  | word (name : String)
  /-- A whole literal. -/
  | integer (value : Int64)
  /-- A literal with a point or an exponent. -/
  | double (value : Float)

/-- Tokens of every stage carry symbols. -/
class HasSymbol (τ : Type) where
  /-- The symbol that a token is, if it is one. -/
  symbol? : τ → Option Symbol

export HasSymbol (symbol?)

/-- What a token does to the nesting of brackets. -/
def bracketRole {τ : Type} [HasSymbol τ] (t : τ) : Symbol.Role :=
  match symbol? t with
  | some s => s.role
  | none => .neutral

/-- The token is the given symbol. -/
def isSymbol {τ : Type} [HasSymbol τ] (s : Symbol) (t : τ) : Bool := symbol? t == some s

namespace Token

instance : HasSymbol Token where
  symbol?
    | symbol s => some s
    | _ => none

/-- The token as a message names it. -/
def describe : Token → String
  | symbol s => s.quoted
  | word name => s!"word `{name}`"
  | integer value => toString value.toInt
  | double value => Layout.plain.write value

end Token

end MatrixCalc
