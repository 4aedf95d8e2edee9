import MatrixCalc.Json.Numeral

/-!
# Words of a document

A `Lexeme` is a bracket, a separator or a value without parts.  `Lexeme.ofString?` cuts the text of
a document into lexemes.  Blanks between them are space, tab, line feed and carriage return; a
string holds no character below the space.
-/

namespace MatrixCalc

/-- A bracket, a separator or a value without parts. -/
inductive Json.Lexeme where
  | openArray
  | closeArray
  | openObject
  | closeObject
  | comma
  | colon
  | null
  | bool (value : Bool)
  /-- A number, by its numeral. -/
  | number (numeral : String)
  /-- A string; one with half of a surrogate pair has no text. -/
  | string (text : Option String)
deriving DecidableEq

namespace Json.Lexeme

/-! ### Strings -/

/-- The value of a hexadecimal digit. -/
def hexDigit? (c : Char) : Option Nat :=
  if c.isDigit then some (c.toNat - '0'.toNat)
  else if 'a' ≤ c ∧ c ≤ 'f' then some (c.toNat - 'a'.toNat + 10)
  else if 'A' ≤ c ∧ c ≤ 'F' then some (c.toNat - 'A'.toNat + 10)
  else none

/-- The number that four hexadecimal digits spell. -/
def hex? (a b c d : Char) : Option Nat := do
  return ((← hexDigit? a) * 16 + (← hexDigit? b)) * 256 + (← hexDigit? c) * 16 + (← hexDigit? d)

/-- The character that a short escape means. -/
def escaped? : Char → Option Char
  | '"' => some '"'
  | '\\' => some '\\'
  | '/' => some '/'
  | 'b' => some '\x08'
  | 'f' => some '\x0c'
  | 'n' => some '\n'
  | 'r' => some '\r'
  | 't' => some '\t'
  | _ => none

/-- The code points and surrogates up to the closing quote, behind those in `units`, and the text
that follows. -/
def stringUnits (units : List Nat) : List Char → Option (List Nat × List Char)
  | [] => none
  | '"' :: rest => some (units.reverse, rest)
  | '\\' :: 'u' :: a :: b :: c :: d :: rest =>
    match hex? a b c d with
    | some unit => stringUnits (unit :: units) rest
    | none => none
  | '\\' :: c :: rest =>
    match escaped? c with
    | some c => stringUnits (c.toNat :: units) rest
    | none => none
  | c :: rest => if c < ' ' ∨ c = '\\' then none else stringUnits (c.toNat :: units) rest

/-- The unit is the first half of a surrogate pair. -/
def isHighSurrogate (unit : Nat) : Bool := 0xD800 ≤ unit && unit < 0xDC00

/-- The unit is the second half of a surrogate pair. -/
def isLowSurrogate (unit : Nat) : Bool := 0xDC00 ≤ unit && unit < 0xE000

/-- The characters of a string, if its surrogates come in pairs. -/
def pairUp? : List Nat → Option (List Char)
  | [] => some []
  | [unit] =>
    if isHighSurrogate unit || isLowSurrogate unit then none else some [Char.ofNat unit]
  | unit :: next :: rest =>
    if isHighSurrogate unit then
      if isLowSurrogate next then
        (pairUp? rest).map
          (Char.ofNat (0x10000 + (unit - 0xD800) * 0x400 + (next - 0xDC00)) :: ·)
      else none
    else if isLowSurrogate unit then none
    else (pairUp? (next :: rest)).map (Char.ofNat unit :: ·)

/-! ### Cutting a text -/

/-- The character can occur in a numeral. -/
def isNumeralPart (c : Char) : Bool := c.isDigit || c ∈ ['-', '+', '.', 'e', 'E']

/-- The first lexeme of a text, and the text that follows; the text does not start with a blank. -/
def first? : List Char → Option (Lexeme × List Char)
  | '[' :: rest => some (openArray, rest)
  | ']' :: rest => some (closeArray, rest)
  | '\x7b' :: rest => some (openObject, rest)
  | '\x7d' :: rest => some (closeObject, rest)
  | ',' :: rest => some (comma, rest)
  | ':' :: rest => some (colon, rest)
  | 'n' :: 'u' :: 'l' :: 'l' :: rest => some (null, rest)
  | 't' :: 'r' :: 'u' :: 'e' :: rest => some (bool true, rest)
  | 'f' :: 'a' :: 'l' :: 's' :: 'e' :: rest => some (bool false, rest)
  | '"' :: rest =>
    (stringUnits [] rest).map fun (units, rest) =>
      (string ((pairUp? units).map String.ofList), rest)
  | cs =>
    let numeral := String.ofList (cs.takeWhile isNumeralPart)
    if (Numeral.ofString? numeral).isSome then
      some (number numeral, cs.dropWhile isNumeralPart)
    else none

/-- The character may stand between lexemes. -/
def isSpace (c : Char) : Bool := c = ' ' || c = '\t' || c = '\n' || c = '\r'

theorem length_of_stringUnits {units units' : List Nat} {cs rest : List Char}
    (h : stringUnits units cs = some (units', rest)) : rest.length < cs.length := by
  fun_induction stringUnits units cs <;>
    simp_all only [Option.some.injEq, Prod.mk.injEq, List.length_cons, forall_const, reduceCtorEq]
      <;> omega

theorem ofString?_empty : Numeral.ofString? "" = none := by rfl

theorem length_of_first? {cs rest : List Char} {lexeme : Lexeme}
    (h : first? cs = some (lexeme, rest)) : rest.length < cs.length := by
  unfold first? at h
  split at h
  case h_10 body =>
    cases hu : stringUnits [] body with
    | none => simp [hu] at h
    | some answer =>
      obtain ⟨units, after⟩ := answer
      have := length_of_stringUnits hu
      simp only [hu, Option.map_some, Option.some.injEq, Prod.mk.injEq] at h
      obtain ⟨-, rfl⟩ := h
      simp only [List.length_cons]
      omega
  case h_11 =>
    dsimp only at h
    split at h
    · rename_i numeral
      simp only [Option.some.injEq, Prod.mk.injEq] at h
      obtain ⟨-, rfl⟩ := h
      cases cs with
      | nil => simp [ofString?_empty] at numeral
      | cons c cs =>
        by_cases part : isNumeralPart c
        · have := (List.dropWhile_sublist isNumeralPart (l := cs)).length_le
          simp only [List.dropWhile_cons, part, if_true, List.length_cons]
          omega
        · simp [part, ofString?_empty] at numeral
    · simp at h
  all_goals
    simp only [Option.some.injEq, Prod.mk.injEq] at h
    obtain ⟨-, rfl⟩ := h
    simp only [List.length_cons]
    omega

/-- The lexemes of a text, behind those in `done`. -/
def cut (done : List Lexeme) (cs : List Char) : Option (List Lexeme) :=
  match cs with
  | [] => some done.reverse
  | c :: rest =>
    if isSpace c then cut done rest
    else match _cut : first? (c :: rest) with
      | none => none
      | some (lexeme, after) => cut (lexeme :: done) after
termination_by cs.length
decreasing_by
  · simp
  · exact length_of_first? _cut

/-- The lexemes of a text. -/
def ofString? (text : String) : Option (List Lexeme) := cut [] text.toList

end Json.Lexeme

end MatrixCalc
