import MatrixCalc.Bindings
import MatrixCalc.Logged
import MatrixCalc.Macro.Basic

/-!
# Macro expansion

An invocation is the name of a macro directly followed by an opening bracket.  `expand` replaces
the invocations of a list of tokens from left to right; each replacement is expanded before the
scan goes on behind it, and it does not join with what stands around it to form new invocations.
Replacements nested deeper than `maxExpansionDepth` are refused, so expansion ends whatever the
macros are.
-/

namespace MatrixCalc

/-- How deep expansions may nest. -/
def maxExpansionDepth : Nat := 24

namespace Macro

/-- Replaces the invocations in a list of tokens; `expandInner` expands what an invocation stands
for. -/
def replaceCalls (table : Bindings Macro) (expandInner : List Token → Logged (List Token)) :
    List Token → Logged (List Token)
  | [] => pure []
  | .word name :: .symbol .parenLeft :: tokens =>
    match table.find? name with
    | none => do
      return .word name :: (← replaceCalls table expandInner (.symbol .parenLeft :: tokens))
    | some m =>
      match _cut : untilClose 0 tokens with
      | none => throw (.malformed .unterminatedInvocation)
      | some (inside, _, rest) => do
        let args ← Logged.ofExcept ((m.arguments inside).mapError .malformed)
        Logged.record (.expanding m.name)
        let expansion ← expandInner (m.instantiate args)
        return expansion ++ (← replaceCalls table expandInner rest)
  | t :: tokens => do return t :: (← replaceCalls table expandInner tokens)
termination_by tokens => tokens.length
decreasing_by
  · simp
  · have := length_of_untilClose _cut
    simp only [List.length_cons]
    omega
  · simp

/-- Expands a list of tokens in which `allowance - 1` further expansions may nest. -/
def expandWithin (table : Bindings Macro) : Nat → List Token → Logged (List Token)
  | 0, _ => throw (.malformed .expansionTooDeep)
  | allowance + 1, tokens => replaceCalls table (expandWithin table allowance) tokens

/-- Replaces every invocation in a list of tokens, those that a replacement brings in included. -/
def expand (table : Bindings Macro) (tokens : List Token) : Logged (List Token) :=
  if table.isEmpty then pure tokens else expandWithin table (maxExpansionDepth + 1) tokens

end Macro

end MatrixCalc
