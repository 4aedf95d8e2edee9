/-!
# Decimals

A `Decimal` is `coefficient * 10 ^ exponent`.  Every double is a dyadic `m * 2 ^ q`, and a dyadic
is a finite decimal, so number text is exact integer arithmetic: `ofDyadic` changes the base,
`roundDiv` rounds a quotient to the nearest integer, and `significant` and `places` cut a decimal
to a number of digits.
-/

namespace MatrixCalc

/-- The value of a digit. -/
def digitValue (c : Char) : Nat := c.toNat - '0'.toNat

/-- The number that digits spell. -/
def natural (digits : List Char) : Nat := digits.foldl (fun n c => 10 * n + digitValue c) 0

/-- Which neighbour takes a value exactly half-way between two grid points. -/
inductive Tie where
  /-- The even neighbour. -/
  | toEven
  /-- The larger neighbour. -/
  | up
deriving DecidableEq

/-- `num / den` rounded to the nearest natural number. -/
def roundDiv (tie : Tie) (num den : Nat) : Nat :=
  let quotient := num / den
  let twice := 2 * (num % den)
  if twice < den then quotient
  else if den < twice then quotient + 1
  else match tie with
    | .up => quotient + 1
    | .toEven => quotient + quotient % 2

/-- The number `coefficient * 10 ^ exponent`. -/
structure Decimal where
  /-- The digits, read as one natural number. -/
  coefficient : Nat
  /-- The power of ten that scales them. -/
  exponent : Int
deriving DecidableEq

namespace Decimal

/-- The digits of the coefficient, most significant first. -/
def digits (d : Decimal) : List Char := Nat.toDigits 10 d.coefficient

/-- The number of digits of the coefficient. -/
def length (d : Decimal) : Nat := d.digits.length

/-- The power of ten of the leading digit. -/
def leading (d : Decimal) : Int := d.exponent + d.length - 1

/-- The dyadic `m * 2 ^ q` as a decimal: a negative power of two is a power of five over a power
of ten. -/
def ofDyadic (m : Nat) (q : Int) : Decimal :=
  if 0 ≤ q then ⟨m * Nat.pow 2 q.toNat, 0⟩ else ⟨m * Nat.pow 5 (-q).toNat, q⟩

/-- Rounded to exactly `n` significant digits, ties to even; trailing zeros are kept. -/
def significant (d : Decimal) (n : Nat) : Decimal :=
  if d.coefficient = 0 then ⟨0, 0⟩
  else if d.length ≤ n then
    ⟨d.coefficient * Nat.pow 10 (n - d.length), d.exponent - (n - d.length : Nat)⟩
  else
    let drop := d.length - n
    let rounded := roundDiv .toEven d.coefficient (Nat.pow 10 drop)
    if rounded = Nat.pow 10 n then ⟨Nat.pow 10 (n - 1), d.exponent + drop + 1⟩
    else ⟨rounded, d.exponent + drop⟩

/-- Rounded to `n` places after the point, ties to even: the value in units of `10 ^ -n`. -/
def places (d : Decimal) (n : Nat) : Nat :=
  let shift := d.exponent + n
  if 0 ≤ shift then d.coefficient * Nat.pow 10 shift.toNat
  else roundDiv .toEven d.coefficient (Nat.pow 10 (-shift).toNat)

/-- Without trailing zeros; zero itself becomes `0 * 10 ^ 0`. -/
def trim (d : Decimal) : Decimal :=
  if d.coefficient = 0 then ⟨0, 0⟩
  else if d.coefficient % 10 = 0 then trim ⟨d.coefficient / 10, d.exponent + 1⟩
  else d
termination_by d.coefficient
decreasing_by omega

end Decimal

end MatrixCalc
