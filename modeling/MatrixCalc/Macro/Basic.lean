import MatrixCalc.Error
import MatrixCalc.Token.Group

/-!
# Macros

A macro declaration `name(a, b) = body` gives a name to a list of tokens with parameters.
`Macro.ofTokens` reads a declaration, `Macro.toTokens` writes it, and `Macro.instantiate` puts
arguments in the places of the parameters.
-/

namespace MatrixCalc

/-- A macro. -/
structure Macro where
  /-- The word that invokes it. -/
  name : String
  /-- The parameters, in the order of the arguments. -/
  params : List String
  /-- The tokens that an invocation stands for. -/
  body : List Token

namespace Macro

/-- Reads the word at the front. -/
def readWord (what : String) : List Token → Except Malformed (String × List Token)
  | .word name :: rest => .ok (name, rest)
  | t :: _ => .error (.expectedWord what (some t.describe))
  | [] => .error (.expectedWord what none)

/-- Reads the given symbol at the front. -/
def readSymbol (s : Symbol) : List Token → Except Malformed (List Token)
  | t :: rest => if isSymbol s t then .ok rest else .error (.expectedSymbol s (some t.describe))
  | [] => .error (.expectedSymbol s none)

/-- Reads the parameters that follow `known`, up to the closing bracket. -/
def readParams (name : String) (known : List String) :
    List Token → Except Malformed (List String × List Token)
  | .word param :: rest =>
    if param ∈ known then .error (.repeatedParameter param name)
    else match rest with
      | t :: rest =>
        if isSymbol .comma t then readParams name (known ++ [param]) rest
        else (readSymbol .parenRight (t :: rest)).map fun rest => (known ++ [param], rest)
      | [] => .error (.expectedSymbol .parenRight none)
  | t :: _ => .error (.expectedWord "a parameter name" (some t.describe))
  | [] => .error (.expectedWord "a parameter name" none)

/-- Reads a declaration, without the word that announces it. -/
def ofTokens (tokens : List Token) : Except Malformed Macro := do
  let (name, rest) ← readWord "a macro name" tokens
  let rest ← readSymbol .parenLeft rest
  let (params, rest) ← match rest with
    | .symbol .parenRight :: rest => pure ([], rest)
    | rest => readParams name [] rest
  let body ← readSymbol .assign rest
  if body.isEmpty then throw (.emptyBody name)
  if body.any (isSymbol .assign) then throw (.assignmentInBody name)
  return ⟨name, params, body⟩

/-- Writes a declaration, without the word that announces it. -/
def toTokens (m : Macro) : List Token :=
  .word m.name :: .symbol .parenLeft ::
    ((m.params.map fun param => [Token.word param]).intersperse [.symbol .comma]).flatten ++
    .symbol .parenRight :: .symbol .assign :: m.body

/-- Cuts the inside of an invocation into its arguments. -/
def arguments (m : Macro) (inside : List Token) : Except Malformed (List (List Token)) :=
  let args := if inside.isEmpty then [] else splitTop .comma 0 inside
  if args.length ≠ m.params.length then
    .error (.wrongArgumentCount m.name m.params.length args.length)
  else if args.any List.isEmpty then .error (.emptyMacroArgument m.name)
  else .ok args

/-- Tokens in round brackets. -/
def parenthesize (tokens : List Token) : List Token :=
  .symbol .parenLeft :: tokens ++ [.symbol .parenRight]

/-- An argument as it stands in a body: in brackets, unless it is a single token. -/
def embed : List Token → List Token
  | [t] => [t]
  | tokens => parenthesize tokens

/-- What a token of the body becomes: a parameter becomes its argument. -/
def substitute (bound : List (String × List Token)) : Token → List Token
  | .word name =>
    match bound.lookup name with
    | some arg => embed arg
    | none => [.word name]
  | t => [t]

/-- The tokens an invocation stands for.  All parameters are replaced at once, and the whole is
in brackets, so the operators around the invocation do not reach into it. -/
def instantiate (m : Macro) (args : List (List Token)) : List Token :=
  parenthesize (m.body.flatMap (substitute (m.params.zip args)))

end Macro

end MatrixCalc
