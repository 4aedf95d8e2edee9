/-!
# Rotations of the plane

A `Rotation` is a cosine and a sine.  Rotations are chosen so that they clear one of two numbers
(`Rotation.clearingFirst?`, `Rotation.clearingSecond?`), and they turn pairs of numbers and pairs of
vectors.  `PairDecomposition` takes an upper triangle of two rows apart by two rotations.
-/

namespace MatrixCalc

/-- The absolute value of a number and its sign; zero has the sign `1`. -/
def polar (x : Float) : Float × Float := if 0.0 ≤ x then (x, 1.0) else (-x, -1.0)

/-- The length of the vector with the given entries, of which the first is the longer and none is
negative: the square root of the sum of squares, corrected once by what was lost in rounding.  An
entry that is smaller by a factor of `2 ^ 54` is only added. -/
def hypotenuseOrdered (long short : Float) : Float :=
  if short ≤ long * 5.551115123125783e-17 then long + short
  else
    let length := (long * long + short * short).sqrt
    let excess :=
      if length ≤ 2.0 * short then
        let delta := length - short
        long * (2.0 * delta - long) + (delta - 2.0 * (long - short)) * delta
      else
        let delta := length - long
        2.0 * delta * (long - 2.0 * short) + ((4.0 * delta - short) * short + delta * delta)
    length - excess / (2.0 * length)

/-- The length of the vector with the given entries. -/
def hypotenuse (x y : Float) : Float :=
  if x.abs < y.abs then hypotenuseOrdered y.abs x.abs else hypotenuseOrdered x.abs y.abs

/-- A rotation of the plane. -/
structure Rotation where
  /-- The cosine of the angle. -/
  cos : Float
  /-- The sine of the angle. -/
  sin : Float

namespace Rotation

/-- The rotation that moves nothing. -/
def identity : Rotation := ⟨1.0, 0.0⟩

/-- The rotation back. -/
def inverse (r : Rotation) : Rotation := ⟨r.cos, -r.sin⟩

/-- The point that a point is turned to. -/
def turn (r : Rotation) (x y : Float) : Float × Float :=
  (x * r.cos - r.sin * y, r.sin * x + y * r.cos)

/-- Two vectors, turned entry by entry. -/
def turnVectors (r : Rotation) (a b : List Float) : List Float × List Float :=
  (List.zipWith (fun x y => (r.turn x y).1) a b, List.zipWith (fun x y => (r.turn x y).2) a b)

/-- The rotation that turns a point to the first axis, and its place there, which keeps the sign of
`x`; none if the point is on the axis. -/
def clearingSecond? (x y : Float) : Option (Rotation × Float) :=
  if y == 0.0 then none
  else
    let (magnitude, sign) := polar x
    let length := (magnitude * magnitude + y * y).sqrt
    some (⟨magnitude / length, -(sign * y) / length⟩, sign * length)

/-- The rotation that turns a point to the second axis, and its place there, which keeps the sign of
`y`; none if the point is on the axis. -/
def clearingFirst? (x y : Float) : Option (Rotation × Float) :=
  if x == 0.0 then none
  else
    let (magnitude, sign) := polar y
    let length := (magnitude * magnitude + x * x).sqrt
    some (⟨magnitude / length, sign * x / length⟩, sign * length)

/-- The rotation whose cosine and sine are in the proportion of `c` and `s`, and their common
length, which has the sign of `c`. -/
def along (c s : Float) : Rotation × Float :=
  let (magnitude, sign) := polar c
  let length := (magnitude * magnitude + s * s).sqrt
  if 0.0 < length then (⟨magnitude / length, s / (sign * length)⟩, sign * length)
  else (identity, 0.0)

end Rotation

/-- An upper triangle of two rows as a product of a rotation, two values and a rotation. -/
structure PairDecomposition where
  /-- The rotation on the side of the rows. -/
  left : Rotation
  /-- The value that is nearer to the lower corner of the triangle. -/
  first : Float
  /-- The other value. -/
  second : Float
  /-- The rotation on the side of the columns. -/
  right : Rotation

/-- The decomposition of the triangle with the diagonal `a`, `c` and `b` beside `a`. -/
def PairDecomposition.of (a b c : Float) : PairDecomposition :=
  let sum := hypotenuse (a + c) b + hypotenuse (a - c) b
  let first := a * c * 2.0 / sum
  let second := 0.5 * sum
  let (right, rightSign) := Rotation.along (a * b) (first * first - a * a)
  let first := first * rightSign
  let second := second * rightSign
  let (left, leftSign) :=
    Rotation.along ((a * right.cos + b * right.sin) / first) (c * right.sin / first)
  ⟨left, first * leftSign, second * leftSign, right⟩

end MatrixCalc
