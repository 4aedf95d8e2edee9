import MatrixCalc.Decimal.Basic

/-!
# Doubles and decimals

`Magnitude` decodes the bits of a double, `Magnitude.shortest` finds the decimal with the fewest
digits that reads back as the same double, and `Decimal.toFloat` reads a decimal: the nearest
double, ties to even, overflowing to infinity.
-/

namespace MatrixCalc

/-- A double without its sign. -/
inductive Magnitude where
  /-- Not a number. -/
  | nan
  /-- Too large for a double. -/
  | infinite
  /-- The dyadic `m * 2 ^ q`.  At a power of two (`narrow`) the doubles below lie twice as close
  as the doubles above. -/
  | finite (m : Nat) (q : Int) (narrow : Bool)
deriving DecidableEq

namespace Magnitude

/-- The sign bit and the magnitude of a double. -/
def ofFloat (x : Float) : Bool × Magnitude :=
  let bits : Nat := x.toBits.toNat
  let fraction : Nat := bits % Nat.pow 2 52
  let exponent : Nat := bits / Nat.pow 2 52 % Nat.pow 2 11
  (bits / Nat.pow 2 63 = 1,
    if exponent = 2047 then if fraction = 0 then .infinite else .nan
    else if exponent = 0 then .finite fraction (-1074) false
    else .finite (fraction + Nat.pow 2 52) ((exponent : Int) - 1075) (fraction = 0 && 1 < exponent))

/-- The neighbours of `value` on the grid of multiples of `unit` that lie inside the interval
from `low` to `high`, and of two the nearer one; the ends count iff `closed`. -/
def gridPoint? (tie : Tie) (closed : Bool) (low value high unit : Nat) : Option Nat :=
  let inside (n : Nat) : Bool :=
    if closed then low ≤ n * unit && n * unit ≤ high else low < n * unit && n * unit < high
  let down := value / unit
  let up := down + 1
  match inside down, inside up with
  | true, true =>
    let below := value - down * unit
    let above := up * unit - value
    if below < above then some down
    else if above < below then some up
    else match tie with
      | .up => some up
      | .toEven => some (down + down % 2)
  | true, false => some down
  | false, true => some up
  | false, false => none

/-- The shortest decimal that reads back as the double `m * 2 ^ q`, and of those the nearest to
it.  The doubles that read back lie between the midpoints to the two neighbouring doubles, ends
included iff `m` is even; the grids of 1, 2, … 17 digits are tried in turn.  All quantities are
scaled by four to keep the midpoints whole. -/
def shortest (tie : Tie) (m : Nat) (q : Int) (narrow : Bool) : Decimal :=
  let value := Decimal.ofDyadic (4 * m) (q - 2)
  let low := Decimal.ofDyadic (4 * m - if narrow then 1 else 2) (q - 2)
  let high := Decimal.ofDyadic (4 * m + 2) (q - 2)
  let candidate (n : Nat) : Option Decimal :=
    let drop := value.length - (n + 1)
    (gridPoint? tie (m % 2 = 0) low.coefficient value.coefficient high.coefficient
      (Nat.pow 10 drop)).map fun c => ⟨c, value.exponent + drop⟩
  (((List.range 17).findSome? candidate).getD value).trim

end Magnitude

namespace Decimal

/-- The double nearest to a decimal.  Beyond 310 digits before the point or 330 zeros behind it
the answer is infinity or zero, whatever the digits. -/
def toFloat (d : Decimal) : Float :=
  if d.coefficient = 0 then 0.0
  else if 310 < d.leading then Float.ofBits (UInt64.ofNat (2047 * Nat.pow 2 52))
  else if d.leading < -330 then 0.0
  else Float.ofScientific d.coefficient (d.exponent < 0) d.exponent.natAbs

end Decimal

end MatrixCalc
