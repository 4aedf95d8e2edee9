import MatrixCalc.Decimal.Double

/-!
# Numerals of documents

A `Numeral` is a number as a document writes it: sign, digits, fraction and exponent.  As an integer
it is exact.  As a double it is read from the leading digits that fit into 64 bits, scaled by one
power of ten: `0.1` and every numeral of at most fifteen digits with a small exponent read as the
nearest double, longer ones may be off by a last bit.  A magnitude beyond the doubles is not read at
all, one below them is zero.
-/

namespace MatrixCalc

/-- A number as a document writes it. -/
structure Json.Numeral where
  /-- The numeral starts with a minus sign. -/
  negative : Bool
  /-- The digits in front of the point. -/
  whole : List Char
  /-- The digits behind the point; without a point there are none. -/
  fraction : List Char
  /-- The exponent, if one is written. -/
  exponent : Option Int
deriving DecidableEq

namespace Json.Numeral

/-! ### Reading a numeral -/

/-- The part of a numeral behind the point: one digit or more. -/
def fraction? : List Char → Option (List Char × List Char)
  | '.' :: rest =>
    match rest.span Char.isDigit with
    | ([], _) => none
    | parts => some parts
  | rest => some ([], rest)

/-- The digits of an exponent, which end the numeral. -/
def exponentDigits? (digits : List Char) : Option Nat :=
  if digits.isEmpty || !digits.all Char.isDigit then none else some (natural digits)

/-- The exponent that ends a numeral, if one is written. -/
def exponent? : List Char → Option (Option Int)
  | [] => some none
  | mark :: rest =>
    if mark = 'e' ∨ mark = 'E' then
      match rest with
      | '+' :: digits => (exponentDigits? digits).map fun n => some (n : Int)
      | '-' :: digits => (exponentDigits? digits).map fun n => some (-(n : Int))
      | digits => (exponentDigits? digits).map fun n => some (n : Int)
    else none

/-- The numeral that follows a sign. -/
def unsigned? (negative : Bool) (cs : List Char) : Option Numeral := do
  let (whole, rest) := cs.span Char.isDigit
  if whole.isEmpty ∨ (whole.head? = some '0' ∧ whole.length ≠ 1) then none
  let (fraction, rest) ← fraction? rest
  return ⟨negative, whole, fraction, ← exponent? rest⟩

/-- The numeral that a text is: no leading zeros, and digits on both sides of a point. -/
def ofString? (text : String) : Option Numeral :=
  match text.toList with
  | '-' :: rest => unsigned? true rest
  | cs => unsigned? false cs

/-! ### Values -/

/-- The numeral as an integer of 64 bits.  A fraction or an exponent makes a numeral a double, and
so does the sign of `-0`. -/
def toInt64? (n : Numeral) : Option Int64 :=
  if n.fraction.isEmpty ∧ n.exponent.isNone then
    let magnitude := natural n.whole
    if n.negative then
      if magnitude = 0 ∨ Nat.pow 2 63 < magnitude then none
      else some (Int64.ofInt (-(magnitude : Int)))
    else if magnitude < Nat.pow 2 63 then some (Int64.ofInt magnitude) else none
  else none

/-- Appends digits to a number while the result fits into 64 bits; the answer is the number and the
digits that are left over. -/
def append (value : Nat) : List Char → Nat × List Char
  | [] => (value, [])
  | c :: cs =>
    let next := 10 * value + digitValue c
    if next < Nat.pow 2 64 then append next cs else (value, c :: cs)

/-- The digits that count, and the power of ten they are scaled by. -/
def significand (n : Numeral) : Decimal :=
  let (value, omitted) := append 0 n.whole
  let (value, rest) := append value n.fraction
  ⟨value, omitted.length - (n.fraction.length - rest.length : Nat) + n.exponent.getD 0⟩

/-- A power of ten as a double. -/
def powerOfTen (n : Nat) : Float := Decimal.toFloat ⟨1, n⟩

/-- A double divided by `10 ^ n`, in steps of at most `10 ^ 308`. -/
def scaleDown (x : Float) (n : Nat) : Float :=
  if _small : n ≤ 308 then x / powerOfTen n
  else if x == 0.0 then x
  else scaleDown (x / powerOfTen 308) (n - 308)
termination_by n

/-- A double multiplied by `10 ^ n`, unless that is beyond the doubles. -/
def scaleUp (x : Float) (n : Nat) : Option Float :=
  if x == 0.0 then some x
  else if n ≤ 308 then
    let y := x * powerOfTen n
    if y.isInf then none else some y
  else none

/-- The numeral as a double. -/
def toFloat? (n : Numeral) : Option Float :=
  let ⟨value, exponent⟩ := n.significand
  let magnitude :=
    if exponent < 0 then some (scaleDown (Float.ofNat value) exponent.natAbs)
    else scaleUp (Float.ofNat value) exponent.toNat
  magnitude.map fun x => if n.negative then -x else x

end Json.Numeral

end MatrixCalc
