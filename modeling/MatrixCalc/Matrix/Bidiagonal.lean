import MatrixCalc.Matrix.Arithmetic
import MatrixCalc.Matrix.Rotation

/-!
# Bidiagonal form

A matrix with no more columns than rows is brought to the form of a diagonal and the entries to the
right of it.  A `Reflection` clears a column below the diagonal, the next one clears the row behind
the neighbour of the diagonal, and so on.  `Bidiagonal.ofColumns` keeps the two lines of entries and
the orthogonal vectors on both sides that lead back to the matrix.
-/

namespace MatrixCalc

/-- The sum of the products of the entries of two vectors, added in some order. -/
abbrev Dot := List Float → List Float → Float

namespace Dot

/-- The products are added one by one. -/
def inOrder : Dot := fun a b => sumFloats (List.zipWith (· * ·) a b)

/-- The products are added in eight lanes. -/
def inLanes : Dot := fun a b => laneSum (List.zipWith (· * ·) a b)

end Dot

/-! ### Reflections -/

/-- A reflection that sends a given vector to the first axis, up to the sign of the image. -/
structure Reflection where
  /-- The unit vector across the mirror. -/
  axis : List Float
  /-- The first entry of the image of the given vector; the others are zero. -/
  image : Float

namespace Reflection

/-- The reflection that sends a vector to the first axis.  The axis is brought to length one twice,
since the first time is not exact for short vectors. -/
def ofVector : List Float → Reflection
  | [] => ⟨[], 0.0⟩
  | first :: rest =>
    let square := sumOfSquares (first :: rest)
    let length := square.sqrt
    let (magnitude, sign) := polar first
    let moved := (first + sign * length) :: rest
    let factor := (square + magnitude * length) * 2.0
    if factor == 0.0 then ⟨moved, sign * length⟩
    else
      let axis := moved.map (· / factor.sqrt)
      let scale := (sumOfSquares axis).sqrt
      ⟨axis.map (· / scale), -(sign * length)⟩

/-- The sign of the image. -/
def sign (r : Reflection) : Float := (polar r.image).2

/-- The image of any vector, multiplied by the sign of the image of the given one: then the given
vector goes to its length. -/
def apply (r : Reflection) (dot : Dot) (v : List Float) : List Float :=
  let factor := dot r.axis v * (r.sign * -2.0)
  List.zipWith (fun x y => factor * x + r.sign * y) r.axis v

/-- Orthogonal vectors of the given length: the reflections, from the last to the first, are applied
to the first unit vectors.  The reflection with the number `i` moves the vectors from `i` on, and
in them the entries from `i + shift` on. -/
def product (dot : Dot) (count length shift : Nat) (reflections : List Reflection) :
    Array (List Float) :=
  reflections.zipIdx.foldr
    (fun (r, i) vectors => vectors.mapIdx fun j v =>
      if j < i then v else v.take (i + shift) ++ r.apply dot (v.drop (i + shift)))
    ((Array.range count).map fun j =>
      (List.range length).map fun i => if i = j then 1.0 else 0.0)

end Reflection

/-! ### The form -/

/-- Rows as columns, or columns as rows; each has `length` entries. -/
def transposeVectors (length : Nat) (vectors : List (List Float)) : List (List Float) :=
  (List.range length).map fun i => vectors.map (·.getD i 0.0)

/-- The reflections that clear a column and the row beside it, in turn; the last column has no row
beside it.  The first argument is the number of columns. -/
def clearingReflections (dotLeft dotRight : Dot) :
    Nat → List (List Float) → List (Reflection × Option Reflection)
  | n + 1, first :: others =>
    let left := Reflection.ofVector first
    match others, transposeVectors first.length (others.map (left.apply dotLeft)) with
    | _ :: _, top :: below =>
      let right := Reflection.ofVector top
      (left, some right) ::
        clearingReflections dotLeft dotRight n
          (transposeVectors n (below.map (right.apply dotRight)))
    | _, _ => [(left, none)]
  | _, _ => []

/-- A matrix as a diagonal, the entries to the right of it, and orthogonal vectors on both sides. -/
structure Bidiagonal where
  /-- The entries on the diagonal. -/
  diagonal : Array Float
  /-- The entries to the right of the diagonal. -/
  beside : Array Float
  /-- A vector on the side of the rows for each entry of the diagonal. -/
  left : Array (List Float)
  /-- A vector on the side of the columns for each entry of the diagonal. -/
  right : Array (List Float)

namespace Bidiagonal

/-- The bidiagonal form of a matrix given by its columns, which are no longer than it has rows.  The
entries of the form are never negative. -/
def ofColumns (dotLeft dotRight : Dot) (rows : Nat) (columns : List (List Float)) : Bidiagonal :=
  let count := columns.length
  let steps := clearingReflections dotLeft dotRight count columns
  let lefts := steps.map (·.1)
  let rights := steps.filterMap (·.2)
  { diagonal := (lefts.map fun r => r.image.abs).toArray
    beside := (rights.map fun r => r.image.abs).toArray
    left := Reflection.product dotLeft count rows 0 lefts
    right := Reflection.product dotRight count count 1 rights }

/-- An entry of the diagonal. -/
def entry (b : Bidiagonal) (i : Nat) : Float := b.diagonal.getD i 0.0

/-- An entry to the right of the diagonal. -/
def next (b : Bidiagonal) (i : Nat) : Float := b.beside.getD i 0.0

/-- Overwrites an entry of the diagonal. -/
def setEntry (b : Bidiagonal) (i : Nat) (x : Float) : Bidiagonal :=
  { b with diagonal := b.diagonal.setIfInBounds i x }

/-- Overwrites an entry to the right of the diagonal. -/
def setNext (b : Bidiagonal) (i : Nat) (x : Float) : Bidiagonal :=
  { b with beside := b.beside.setIfInBounds i x }

/-- Vectors, two of them turned. -/
def turnPair (r : Rotation) (vectors : Array (List Float)) (i j : Nat) : Array (List Float) :=
  let (a, b) := r.turnVectors (vectors.getD i []) (vectors.getD j [])
  (vectors.setIfInBounds i a).setIfInBounds j b

/-- Turns two vectors on the side of the rows. -/
def turnLeft (b : Bidiagonal) (r : Rotation) (i j : Nat) : Bidiagonal :=
  { b with left := turnPair r b.left i j }

/-- Turns two vectors on the side of the columns. -/
def turnRight (b : Bidiagonal) (r : Rotation) (i j : Nat) : Bidiagonal :=
  { b with right := turnPair r b.right i j }

end Bidiagonal

end MatrixCalc
