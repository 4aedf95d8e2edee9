/-!
# Symbols

The operators, brackets and separators of the statement language, with their spelling.  `minus`
and `neg` are two symbols of one spelling: the first joins two operands, the second negates one.

* `Symbol.role_eq_opening_iff`, `Symbol.role_eq_closing_iff` : exactly four symbols are brackets.
-/

namespace MatrixCalc

/-- A lexical symbol. -/
inductive Symbol where
  | plus
  | minus
  | neg
  | times
  | divideRight
  | divideLeft
  | power
  | elementTimes
  | elementDivide
  | elementPower
  | transpose
  | assign
  | parenLeft
  | parenRight
  | bracketLeft
  | bracketRight
  | comma
  | colon
  | semicolon
deriving DecidableEq

namespace Symbol

/-- How the symbol is written. -/
def spelling : Symbol → String
  | plus => "+"
  | minus => "-"
  | neg => "-"
  | times => "*"
  | divideRight => "/"
  | divideLeft => "\\"
  | power => "^"
  | elementTimes => ".*"
  | elementDivide => "./"
  | elementPower => ".^"
  | transpose => "'"
  | assign => "="
  | parenLeft => "("
  | parenRight => ")"
  | bracketLeft => "["
  | bracketRight => "]"
  | comma => ","
  | colon => ":"
  | semicolon => ";"

/-- The symbol as a message names it. -/
def quoted (s : Symbol) : String := "'" ++ s.spelling ++ "'"

/-- What a symbol does to the nesting of brackets. -/
inductive Role where
  | opening
  | closing
  | neutral
deriving DecidableEq

/-- Brackets of both shapes open and close groups. -/
def role : Symbol → Role
  | parenLeft | bracketLeft => .opening
  | parenRight | bracketRight => .closing
  | _ => .neutral

/-- The opening bracket of the same shape. -/
def opener : Symbol → Symbol
  | bracketRight => bracketLeft
  | _ => parenLeft

/-- An operand ends with this symbol, so a minus sign behind it subtracts. -/
def endsOperand : Symbol → Bool
  | parenRight | bracketRight | transpose => true
  | _ => false

theorem role_eq_opening_iff (s : Symbol) : s.role = .opening ↔ s = parenLeft ∨ s = bracketLeft := by
  cases s <;> decide

theorem role_eq_closing_iff (s : Symbol) :
    s.role = .closing ↔ s = parenRight ∨ s = bracketRight := by
  cases s <;> decide

end Symbol

end MatrixCalc
