import MatrixCalc.Error
import MatrixCalc.Text.Blank

/-!
# From text to tokens

```text
word    ::= [A-Za-z_] [A-Za-z0-9_]*
integer ::= [0-9]+
double  ::= [0-9]* '.' [0-9]* exponent?  |  [0-9]+ exponent
exponent ::= [eE] [+-]? [0-9]+
symbol  ::= = + - * / \ ^ .* ./ .^ ' ( ) [ ] : , ;
```

Blanks separate tokens and are dropped.  Two decisions depend on what came before: a minus sign
behind an operand subtracts, elsewhere it negates, and then it is part of a number that follows
directly; a quote must stand behind an operand.  Brackets are matched by shape, so the tokens of
every accepted text are properly nested.

* `Token.step_length_lt` : a token uses up at least one character.
-/

namespace MatrixCalc

/-- The digits at the front, and the rest. -/
def spanDigits (cs : List Char) : List Char × List Char :=
  (cs.takeWhile Char.isDigit, cs.dropWhile Char.isDigit)

theorem spanDigits_length_le (cs : List Char) : (spanDigits cs).2.length ≤ cs.length :=
  (List.dropWhile_sublist _).length_le

/-! ### Numerals -/

/-- A numeral as it is written. -/
structure Numeral where
  /-- The digits before the point. -/
  whole : List Char
  /-- The digits behind the point, if there is a point. -/
  fraction : Option (List Char)
  /-- The mark, the sign if there is one, and the digits of the exponent. -/
  exponent : Option (Char × Option Char × List Char)

namespace Numeral

/-- The text of the numeral. -/
def text (n : Numeral) : String :=
  let fraction := match n.fraction with
    | some digits => '.' :: digits
    | none => []
  let exponent := match n.exponent with
    | some (mark, some sign, digits) => mark :: sign :: digits
    | some (mark, none, digits) => mark :: digits
    | none => []
  String.ofList (n.whole ++ fraction ++ exponent)

/-- The exact value. -/
def decimal (n : Numeral) : Decimal :=
  let fraction := n.fraction.getD []
  let scale : Int := match n.exponent with
    | some (_, some '-', digits) => -natural digits
    | some (_, _, digits) => natural digits
    | none => 0
  ⟨natural (n.whole ++ fraction), scale - fraction.length⟩

/-- The token of the numeral: whole without a point and an exponent, otherwise the nearest
double. -/
def token (n : Numeral) : Except Malformed Token :=
  if n.fraction.isNone && n.exponent.isNone then
    let value := natural n.whole
    if value < Nat.pow 2 63 then .ok (.integer (Int64.ofNat value))
    else .error (.integerTooLarge n.text)
  else .ok (.double n.decimal.toFloat)

/-- Behind a point these characters make it an operator. -/
def startsElementwise : List Char → Bool
  | '*' :: _ | '/' :: _ | '^' :: _ => true
  | _ => false

/-- Reads the digits and the point.  A point in front of `*`, `/` or `^` is not part of the
numeral. -/
def readMantissa (first : Char) (rest : List Char) : Except Malformed (Numeral × List Char) :=
  let (digits, rest) := spanDigits rest
  match first, rest with
  | '.', '.' :: behind =>
    if startsElementwise behind then .ok (⟨[], some digits, none⟩, '.' :: behind)
    else .error (.secondPoint (String.ofList ('.' :: digits)))
  | '.', rest => .ok (⟨[], some digits, none⟩, rest)
  | first, '.' :: behind =>
    if startsElementwise behind then .ok (⟨first :: digits, none, none⟩, '.' :: behind)
    else
      let (fraction, rest) := spanDigits behind
      .ok (⟨first :: digits, some fraction, none⟩, rest)
  | first, rest => .ok (⟨first :: digits, none, none⟩, rest)

/-- Splits off the sign of an exponent. -/
def splitSign : List Char → Option Char × List Char
  | '+' :: rest => (some '+', rest)
  | '-' :: rest => (some '-', rest)
  | rest => (none, rest)

/-- Reads the exponent, if there is one. -/
def readExponent (n : Numeral) : List Char → Except Malformed (Numeral × List Char)
  | mark :: rest =>
    if mark = 'e' ∨ mark = 'E' then
      let (sign, rest) := splitSign rest
      let (digits, rest) := spanDigits rest
      let n := { n with exponent := some (mark, sign, digits) }
      if digits.isEmpty then .error (.emptyExponent n.text) else .ok (n, rest)
    else .ok (n, mark :: rest)
  | [] => .ok (n, [])

/-- A numeral must not run on into a word or a second point. -/
def checkEnd (n : Numeral) : List Char → Except Malformed Unit
  | [] => .ok ()
  | c :: rest =>
    if isWordPart c then .error (.numeralRunsOn n.text c)
    else if c = '.' ∧ ¬ startsElementwise rest then .error (.secondPoint n.text)
    else .ok ()

/-- Reads the numeral that starts with the digit or point `first`. -/
def read (first : Char) (rest : List Char) : Except Malformed (Token × List Char) := do
  let (n, rest) ← readMantissa first rest
  let (n, rest) ← readExponent n rest
  n.checkEnd rest
  return (← n.token, rest)

theorem readMantissa_length_le {first : Char} {cs rest : List Char} {n : Numeral}
    (h : readMantissa first cs = .ok (n, rest)) : rest.length ≤ cs.length := by
  have digits := spanDigits_length_le cs
  unfold readMantissa at h
  generalize spanDigits cs = cut at h digits
  obtain ⟨taken, left⟩ := cut
  dsimp only at h digits
  split at h
  · split at h <;> simp at h
    obtain ⟨-, rfl⟩ := h
    exact digits
  · simp at h
    obtain ⟨-, rfl⟩ := h
    exact digits
  · rename_i behind _
    split at h <;> simp at h
    · obtain ⟨-, rfl⟩ := h
      exact digits
    · obtain ⟨-, rfl⟩ := h
      have fraction := spanDigits_length_le behind
      simp only [List.length_cons] at digits
      omega
  · simp at h
    obtain ⟨-, rfl⟩ := h
    exact digits

theorem splitSign_length_le (cs : List Char) : (splitSign cs).2.length ≤ cs.length := by
  unfold splitSign
  split <;> simp

theorem readExponent_length_le {n n' : Numeral} {cs rest : List Char}
    (h : readExponent n cs = .ok (n', rest)) : rest.length ≤ cs.length := by
  match cs with
  | [] => simp [readExponent] at h; simp [h]
  | mark :: cs =>
    have sign := splitSign_length_le cs
    have digits := spanDigits_length_le (splitSign cs).2
    simp only [readExponent] at h
    split at h
    · split at h
      · simp at h
      · simp at h
        obtain ⟨-, rfl⟩ := h
        simp only [List.length_cons]
        omega
    · simp at h
      simp [h.2]

theorem read_length_le {first : Char} {cs rest : List Char} {t : Token}
    (h : read first cs = .ok (t, rest)) : rest.length ≤ cs.length := by
  simp only [read, bind, Except.bind] at h
  split at h
  · simp at h
  · rename_i mantissa hm
    split at h
    · simp at h
    · rename_i exponent he
      split at h
      · simp at h
      · split at h
        · simp at h
        · simp [pure, Except.pure] at h
          obtain ⟨-, rfl⟩ := h
          exact Nat.le_trans (readExponent_length_le he) (readMantissa_length_le hm)

end Numeral

/-! ### Tokens -/

/-- What stands directly before the next token. -/
inductive Preceding where
  /-- The start of the text or an operator. -/
  | operator
  /-- The end of an operand. -/
  | operand
deriving DecidableEq

namespace Token

/-- What a token is to the one behind it. -/
def preceding : Token → Preceding
  | symbol s => if s.endsOperand then .operand else .operator
  | _ => .operand

/-- The token with its sign changed; only numbers have one. -/
def negated : Token → Token
  | integer value => integer (-value)
  | double value => double (-value)
  | other => other

/-- Reads what follows a point. -/
def readPoint : List Char → Except Malformed (Token × List Char)
  | '*' :: rest => .ok (symbol .elementTimes, rest)
  | '/' :: rest => .ok (symbol .elementDivide, rest)
  | '^' :: rest => .ok (symbol .elementPower, rest)
  | c :: rest => if c.isDigit then Numeral.read '.' (c :: rest) else .error .strayPoint
  | [] => .error .strayPoint

/-- The text starts with a numeral. -/
def startsNumeral : List Char → Bool
  | '.' :: c :: _ => c.isDigit
  | c :: _ => c.isDigit
  | [] => false

/-- Reads what follows a minus sign. -/
def readMinus (before : Preceding) (rest : List Char) : Except Malformed (Token × List Char) :=
  match before, rest with
  | .operand, rest => .ok (symbol .minus, rest)
  | .operator, first :: rest =>
    if startsNumeral (first :: rest) then
      (Numeral.read first rest).map fun (t, rest) => (t.negated, rest)
    else .ok (symbol .neg, first :: rest)
  | .operator, [] => .ok (symbol .neg, [])

/-- Checks a closing bracket against the innermost open one. -/
def close (closing : Symbol) : List Symbol → Except Malformed (List Symbol)
  | [] => .error (.closingWithoutOpening closing)
  | opening :: opened =>
    if opening = closing.opener then .ok opened else .error (.wrongClosing closing opening)

/-- The symbols written as one character whose reading does not depend on the context. -/
def simpleSymbol? : Char → Option Symbol
  | '+' => some .plus
  | '*' => some .times
  | '/' => some .divideRight
  | '\\' => some .divideLeft
  | '^' => some .power
  | '=' => some .assign
  | ',' => some .comma
  | ':' => some .colon
  | ';' => some .semicolon
  | _ => none

/-- Reads the token that starts with `c`.  `opened` are the open brackets, innermost first; the
answer holds the token, the text behind it and the brackets open there. -/
def step (before : Preceding) (opened : List Symbol) (c : Char) (rest : List Char) :
    Except Malformed (Token × List Char × List Symbol) :=
  if c = '-' then (readMinus before rest).map fun (t, rest) => (t, rest, opened)
  else if c = '.' then (readPoint rest).map fun (t, rest) => (t, rest, opened)
  else if c = '\x27' then
    if before = .operand then .ok (symbol .transpose, rest, opened)
    else .error .nothingToTranspose
  else if c = '(' then .ok (symbol .parenLeft, rest, .parenLeft :: opened)
  else if c = '[' then .ok (symbol .bracketLeft, rest, .bracketLeft :: opened)
  else if c = ')' then
    (close .parenRight opened).map fun opened => (symbol .parenRight, rest, opened)
  else if c = ']' then
    (close .bracketRight opened).map fun opened => (symbol .bracketRight, rest, opened)
  else if c.isDigit then (Numeral.read c rest).map fun (t, rest) => (t, rest, opened)
  else if isWordStart c then
    .ok (word (String.ofList (c :: rest.takeWhile isWordPart)), rest.dropWhile isWordPart, opened)
  else match simpleSymbol? c with
    | some s => .ok (symbol s, rest, opened)
    | none => .error (.strangeCharacter c)

theorem readPoint_length_le {cs rest : List Char} {t : Token}
    (h : readPoint cs = .ok (t, rest)) : rest.length ≤ cs.length := by
  unfold readPoint at h
  split at h
  iterate 3
    · simp at h
      simp [h.2]
  · split at h
    · exact Numeral.read_length_le h
    · simp at h
  · simp at h

theorem readMinus_length_le {before : Preceding} {cs rest : List Char} {t : Token}
    (h : readMinus before cs = .ok (t, rest)) : rest.length ≤ cs.length := by
  unfold readMinus at h
  split at h
  · simp at h
    simp [h.2]
  · rename_i first cs
    split at h
    · cases hread : Numeral.read first cs with
      | error e => simp [hread, Except.map] at h
      | ok answer =>
        simp [hread, Except.map] at h
        have := Numeral.read_length_le hread
        rw [← h.2]
        simp only [List.length_cons]
        omega
    · simp at h
      simp [← h.2]
  · simp at h
    simp [h.2]

/-- A token uses up at least its first character. -/
theorem step_length_le {before : Preceding} {opened opened' : List Symbol} {c : Char}
    {cs rest : List Char} {t : Token}
    (h : step before opened c cs = .ok (t, rest, opened')) : rest.length ≤ cs.length := by
  have dropped := (List.dropWhile_sublist isWordPart (l := cs)).length_le
  have mapped : ∀ {α β : Type} {x : Except Malformed α} {f : α → β} {b : β},
      x.map f = .ok b → ∃ a, x = .ok a ∧ f a = b := by
    intro α β x f b hx
    cases x <;> simp [Except.map] at hx
    exact ⟨_, rfl, hx⟩
  unfold step at h
  repeat' split at h
  all_goals first
    | (obtain ⟨⟨t', rest'⟩, hread, heq⟩ := mapped h
       simp only [Prod.mk.injEq] at heq
       obtain ⟨rfl, rfl, rfl⟩ := heq
       first
         | exact readMinus_length_le hread
         | exact readPoint_length_le hread
         | exact Numeral.read_length_le hread)
    | (obtain ⟨opened', -, heq⟩ := mapped h
       simp only [Prod.mk.injEq] at heq
       simp [← heq.2.1])
    | (simp at h; done)
    | (simp at h; simp [← h.2.1]; done)
    | (simp at h; rw [← h.2.1]; exact dropped)

/-- The tokens of a text, given what stands before it and which brackets are open there. -/
def readFrom (before : Preceding) (opened : List Symbol) :
    List Char → Except Malformed (List Token)
  | [] =>
    match opened with
    | [] => .ok []
    | opening :: _ => .error (.unterminated opening)
  | c :: rest =>
    if isBlank c then readFrom before opened rest
    else
      match _used : step before opened c rest with
      | .error cause => .error cause
      | .ok (t, behind, opened) => (readFrom t.preceding opened behind).map (t :: ·)
termination_by cs => cs.length
decreasing_by
  · simp
  · have := step_length_le _used
    simp only [List.length_cons]
    omega

/-- The tokens of a text. -/
def tokenize (text : String) : Except Error (List Token) :=
  match readFrom .operator [] text.toList with
  | .ok tokens => .ok tokens
  | .error cause => .error (.malformed cause)

end Token

end MatrixCalc
