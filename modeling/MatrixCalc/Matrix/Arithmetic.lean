import MatrixCalc.Matrix.Basic

/-!
# Matrix arithmetic

Sums, products and reductions.  Two operands that must have one shape are checked by `checkShape`;
a 1x1 operand is never widened, since it was most likely meant as a scalar.
-/

namespace MatrixCalc

/-- The sum of numbers from left to right, starting at `-0`, which is the sum of none. -/
def sumFloats (values : List Float) : Float := values.foldl (· + ·) (-0.0)

/-- Adds numbers to eight partial sums in turn, as long as eight numbers are left. -/
def addInLanes (sums : List Float) : List Float → List Float × List Float
  | a :: b :: c :: d :: e :: f :: g :: h :: rest =>
    addInLanes (List.zipWith (· + ·) sums [a, b, c, d, e, f, g, h]) rest
  | rest => (sums, rest)

/-- The sum of numbers in eight lanes: groups of eight numbers go to eight partial sums, which are
paired and added up, and the numbers left over follow one by one. -/
def laneSum (values : List Float) : Float :=
  let (sums, rest) := addInLanes (List.replicate 8 0.0) values
  let paired := (List.zipWith (· + ·) (sums.take 4) (sums.drop 4)).foldl (· + ·) 0.0
  rest.foldl (· + ·) paired

/-- The sum of squares. -/
def sumOfSquares (values : List Float) : Float := laneSum (values.map fun x => x * x)

/-- Which values a reduction keeps. -/
inductive Reduction where
  | max
  | min
  | sum
deriving DecidableEq

namespace Reduction

/-- The larger of two numbers; a number wins over what is not one, the second of two equal ones
over the first, so that zeros of either sign follow the order in which they come. -/
def larger (a b : Float) : Float := if a.isNaN || a ≤ b then b else a

/-- The smaller of two numbers; a number wins over what is not one, the second of two equal ones
over the first. -/
def smaller (a b : Float) : Float := if a.isNaN || b ≤ a then b else a

/-- The reduction of a list of numbers. -/
def fold : Reduction → List Float → Float
  | max, values => values.foldl larger (-1.0 / 0.0)
  | min, values => values.foldl smaller (1.0 / 0.0)
  | sum, values => sumFloats values

end Reduction

namespace Matrix

/-! ### Shapes -/

/-- Checks that two operands of the operation `what` have one shape. -/
def checkShape (what : String) (a b : Matrix) : Except ShapeMismatch Unit :=
  if a.shape = b.shape then .ok ()
  else if a.size = 1 then .error (.singleElement what a.shape b.shape)
  else if b.size = 1 then .error (.singleElement what b.shape a.shape)
  else .error (.unequal what a.shape b.shape)

/-- Checks that the operand of the operation `what` is square. -/
def checkSquare (what : String) (m : Matrix) : Except ShapeMismatch Unit :=
  if m.rows = m.cols then .ok () else .error (.notSquare what m.shape)

/-- Two matrices of one shape, entry by entry. -/
def entrywise (what : String) (f : Float → Float → Float) (a b : Matrix) :
    Except ShapeMismatch Matrix :=
  (checkShape what a b).map fun _ => zipWith f a b

/-! ### Products -/

/-- A product of matrices that all have more than five rows and columns. -/
def isLargeProduct (a b : Matrix) : Bool := 5 < a.rows && 5 < a.cols && 5 < b.cols

/-- The entry of a product: the products of the entries of a row and a column, added in order.
A large product adds all of them to zero, so that its zeros are positive; a small one starts with
the first of them.  Without products the entry is zero. -/
def rowTimesColumn (a b : Matrix) (i j : Nat) : Float :=
  let term (k : Nat) := a.entry i k * b.entry k j
  match a.cols with
  | 0 => 0.0
  | inner + 1 =>
    let first := if a.isLargeProduct b then 0.0 + term 0 else term 0
    (List.range inner).foldl (fun acc k => acc + term (k + 1)) first

/-- The product of matrices whose inner dimensions agree. -/
def timesUnchecked (a b : Matrix) : Matrix := ofFn a.rows b.cols (rowTimesColumn a b)

/-- The matrix product. -/
def times (a b : Matrix) : Except ShapeMismatch Matrix :=
  if a.cols = b.rows then .ok (timesUnchecked a b)
  else do
    checkShape "multiply" a b
    throw (.product a.shape b.shape)

/-- Every entry of the first operand times the second operand, block by block. -/
def kron (a b : Matrix) : Matrix :=
  ofFn (a.rows * b.rows) (a.cols * b.cols) fun i j =>
    a.entry (i / b.rows) (j / b.cols) * b.entry (i % b.rows) (j % b.cols)

/-- The sum of the products of the entries of two vectors. -/
def dot (a b : Matrix) : Except ShapeMismatch Float :=
  if !a.isVector || !b.isVector then .error .dotOfMatrix
  else if a.size ≠ b.size then .error (.dotLengths a.size b.size)
  else .ok (sumFloats (List.zipWith (· * ·) a.columnwise b.columnwise))

/-! ### Reductions -/

/-- The reduction of all entries, column by column. -/
def reduce (how : Reduction) (m : Matrix) : Float := how.fold m.columnwise

/-- The reduction of each row, as a column. -/
def reduceRows (how : Reduction) (m : Matrix) : Matrix :=
  ofFn m.rows 1 fun i _ => how.fold (m.row i)

/-- The reduction of each column, as a row. -/
def reduceCols (how : Reduction) (m : Matrix) : Matrix :=
  ofFn 1 m.cols fun _ j => how.fold (m.column j)

/-- The sum of the diagonal. -/
def trace (m : Matrix) : Float := sumFloats m.diagonal

/-- The square root of the sum of squares, the squares summed within each column first. -/
def normF (m : Matrix) : Float :=
  ((List.range m.cols).foldl (fun sum j => sum + sumOfSquares (m.column j)) 0.0).sqrt

/-- The norm of a vector with exponent `p`. -/
def vectorNorm (p : Float) (m : Matrix) : Float :=
  (sumFloats (m.columnwise.map fun x => x.abs.pow p)).pow (1.0 / p)

/-- The largest sum of absolute values in a column, at least zero: a column without entries, whose
sum is `-0`, does not replace it. -/
def maxColumnSum (m : Matrix) : Float :=
  (List.range m.cols).foldl
    (fun largest j =>
      let sum := sumFloats ((m.column j).map Float.abs)
      if largest < sum then sum else largest)
    0.0

/-- A vector becomes a diagonal matrix, a matrix becomes its diagonal as a column. -/
def diag (m : Matrix) : Matrix :=
  if m.isVector then
    let values := m.columnwise.toArray
    ofFn m.size m.size fun i j => if i = j then values.getD i 0.0 else 0.0
  else ofFn (min m.rows m.cols) 1 fun i _ => m.entry i i

end Matrix

end MatrixCalc
