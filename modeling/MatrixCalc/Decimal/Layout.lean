import MatrixCalc.Decimal.Double

/-!
# Number text

A `Layout` holds the choices of a number format: which magnitudes are written positionally, how an
exponent looks, what stands for the values that are not numbers.  `Layout.write` applies it to the
shortest digits of a double.  Three layouts are in use: `Layout.plain` in messages and reports,
`Layout.scientific` for exact values, `Layout.json` in result files.  `fixedPoint` writes a matrix
cell of a report.
-/

namespace MatrixCalc

/-- The choices of a number format. -/
structure Layout where
  /-- The value that is not a number. -/
  nan : String
  /-- Positive infinity. -/
  infinity : String
  /-- Negative infinity. -/
  negativeInfinity : String
  /-- Magnitudes whose leading digit has this power of ten are written positionally. -/
  positional : Int → Bool
  /-- Written behind a positional whole number. -/
  wholeSuffix : String
  /-- The mark of a nonnegative exponent; a negative one is marked by `e` alone. -/
  exponentMark : String
  /-- Which of two equally near shortest decimals is written. -/
  tie : Tie

namespace Layout

/-- Always positional, whole numbers without a point. -/
def plain : Layout where
  nan := "NaN"
  infinity := "inf"
  negativeInfinity := "-inf"
  positional _ := true
  wholeSuffix := ""
  exponentMark := "e"
  tie := .up

/-- Always with an exponent, written without a plus sign. -/
def scientific : Layout := { plain with positional _ := false }

/-- Positional from `0.00001` up to sixteen digits before the point, always with a point;
otherwise with a signed exponent.  What is not a finite number is `null`. -/
def json : Layout where
  nan := "null"
  infinity := "null"
  negativeInfinity := "null"
  positional leading := -5 ≤ leading && leading ≤ 15
  wholeSuffix := ".0"
  exponentMark := "e+"
  tie := .toEven

/-- Digits with the point after the first one and an exponent. -/
def withExponent (layout : Layout) (digits : List Char) (leading : Int) : String :=
  let mantissa := match digits with
    | first :: second :: rest => first :: '.' :: second :: rest
    | short => short
  let mark := if 0 ≤ leading then layout.exponentMark else "e"
  String.ofList mantissa ++ mark ++ toString leading

/-- Digits with the point at its place. -/
def positionally (layout : Layout) (digits : List Char) (leading : Int) : String :=
  if leading < 0 then
    "0." ++ String.ofList (List.replicate (-leading - 1).toNat '0' ++ digits)
  else
    let whole := leading.toNat + 1
    if digits.length ≤ whole then
      String.ofList (digits ++ List.replicate (whole - digits.length) '0') ++ layout.wholeSuffix
    else
      String.ofList (digits.take whole) ++ "." ++ String.ofList (digits.drop whole)

/-- The text of a nonnegative decimal, all digits of its coefficient shown. -/
def decimal (layout : Layout) (d : Decimal) : String :=
  if layout.positional d.leading then layout.positionally d.digits d.leading
  else layout.withExponent d.digits d.leading

/-- The text of a double, given how its finite magnitude becomes a decimal. -/
def writeWith (layout : Layout) (toDecimal : Nat → Int → Bool → Decimal) (x : Float) : String :=
  match Magnitude.ofFloat x with
  | (_, .nan) => layout.nan
  | (false, .infinite) => layout.infinity
  | (true, .infinite) => layout.negativeInfinity
  | (negative, .finite m q narrow) =>
    (if negative then "-" else "") ++ layout.decimal (toDecimal m q narrow)

/-- The text of a double in the fewest digits that read back as the same double. -/
def write (layout : Layout) (x : Float) : String :=
  layout.writeWith (Magnitude.shortest layout.tie) x

/-- The text of a double in exactly `n` significant digits, rounded from its exact value. -/
def writeDigits (layout : Layout) (n : Nat) (x : Float) : String :=
  layout.writeWith (fun m q _ => (Decimal.ofDyadic m q).significant n) x

end Layout

/-- A double with `n` places after the point, rounded from its exact value. -/
def fixedPoint (n : Nat) (x : Float) : String :=
  match Magnitude.ofFloat x with
  | (_, .nan) => Layout.plain.nan
  | (false, .infinite) => Layout.plain.infinity
  | (true, .infinite) => Layout.plain.negativeInfinity
  | (negative, .finite m q _) =>
    let units := (Decimal.ofDyadic m q).places n
    let fraction := Nat.toDigits 10 (units % Nat.pow 10 n)
    (if negative then "-" else "") ++ toString (units / Nat.pow 10 n) ++ "." ++
      String.ofList (List.replicate (n - fraction.length) '0' ++ fraction)

/-- Text moved to the right edge of a column of the given width. -/
def alignRight (width : Nat) (text : String) : String :=
  String.ofList (List.replicate (width - text.length) ' ') ++ text

end MatrixCalc
