import MatrixCalc.Matrix.SingularValues
import MatrixCalc.Operation.Address
import MatrixCalc.Operation.Literal

/-!
# Terms

A `Term` says how one value is computed from cells.  `Term.eval` reads the cells of a store and
changes none; a failure is an error about shapes or numbers, or a breakdown.
-/

namespace MatrixCalc

/-- Arithmetic on two matrices. -/
inductive MatrixArith where
  | add
  | subtract
  | multiply
  | elementMultiply
  | elementDivide
  | elementPower
deriving DecidableEq

/-- A function of one number, applied to a matrix entry by entry. -/
inductive ElementFn where
  | negate
  | abs
  | sin
  | cos
  | atan
  | exp
  | log
  | sqrt
  | reciprocal
  | identity
  /-- The reduced echelon form of a 1x1 matrix. -/
  | echelon
deriving DecidableEq

/-- A function of one integer. -/
inductive IntegerFn where
  | negate
  | abs
  | identity
deriving DecidableEq

/-- A matrix computed from a matrix. -/
inductive MatrixFn where
  | transpose
  | inverse
  | pseudoInverse
  | rref
  | diag
  | identity
deriving DecidableEq

/-- A number computed from a matrix. -/
inductive MatrixMeasure where
  | determinant
  | trace
  | normF
  | reduction (how : Reduction)
deriving DecidableEq

/-- What is written into a submatrix. -/
inductive Source where
  /-- The entries of a matrix, row by row. -/
  | matrix (cell : Cell .matrix)
  /-- One number, everywhere. -/
  | scalar (operand : Scalar)
deriving DecidableEq

/-! ### Functions of plain values -/

/-- Arithmetic on doubles. -/
def Arith.apply : Arith → Float → Float → Float
  | add, a, b => a + b
  | subtract, a, b => a - b
  | multiply, a, b => a * b
  | divide, a, b => a / b
  | power, a, b => a.pow b
  | atan2, a, b => a.atan2 b

/-- Arithmetic on integers: modulo `2 ^ 64`, a quotient is cut towards zero.  A quotient that is
no 64-bit integer is an error, and so are powers and angles. -/
def Arith.applyInteger : Arith → Int64 → Int64 → Except NumericFailure Int64
  | add, a, b => .ok (a + b)
  | subtract, a, b => .ok (a - b)
  | multiply, a, b => .ok (a * b)
  | divide, a, b =>
    if b = 0 ∨ (a = Int64.minValue ∧ b = -1) then .error (.integerDivision a b) else .ok (a / b)
  | power, _, _ => .error (.notIntegral .power)
  | atan2, _, _ => .error (.notIntegral .atan2)

/-- Arithmetic on matrices. -/
def MatrixArith.apply : MatrixArith → Matrix → Matrix → Except ShapeMismatch Matrix
  | add, a, b => Matrix.entrywise "add" (· + ·) a b
  | subtract, a, b => Matrix.entrywise "subtract" (· - ·) a b
  | multiply, a, b => Matrix.times a b
  | elementMultiply, a, b => Matrix.entrywise "element-wise multiply" (· * ·) a b
  | elementDivide, a, b => Matrix.entrywise "element-wise divide" (· / ·) a b
  | elementPower, a, b => Matrix.entrywise "element-wise raise" Float.pow a b

/-- The function of a number. -/
def ElementFn.apply : ElementFn → Float → Float
  | negate, x => -x
  | abs, x => x.abs
  | sin, x => x.sin
  | cos, x => x.cos
  | atan, x => x.atan
  | exp, x => x.exp
  | log, x => x.log
  | sqrt, x => x.sqrt
  | reciprocal, x => 1.0 / x
  | identity, x => x
  | echelon, x => if x == 0.0 then 0.0 else 1.0

/-- The function of an integer, modulo `2 ^ 64`. -/
def IntegerFn.apply : IntegerFn → Int64 → Int64
  | negate, n => -n
  | abs, n => if n < 0 then -n else n
  | identity, n => n

/-- The function of a matrix. -/
def MatrixFn.apply : MatrixFn → Matrix → Except Error Matrix
  | transpose, m => .ok m.transpose
  | inverse, m => m.inverse
  | pseudoInverse, m => m.pseudoInverse.mapError Error.breakdown
  | rref, m => .ok m.rref
  | diag, m => .ok m.diag
  | identity, m => .ok (Matrix.identity m.rows m.cols)

/-- The measure of a matrix. -/
def MatrixMeasure.apply : MatrixMeasure → Matrix → Except ShapeMismatch Float
  | determinant, m => (m.checkSquare "det").map fun _ => m.determinant
  | trace, m => .ok m.trace
  | normF, m => .ok m.normF
  | reduction how, m => .ok (m.reduce how)

/-- The reduction of the rows, as a column, or of the columns, as a row. -/
def Reduction.along (how : Reduction) (rows : Bool) (m : Matrix) : Matrix :=
  if rows then m.reduceRows how else m.reduceCols how

/-- Checks a dimension. -/
def dimension (n : Int64) : Except ShapeMismatch Nat :=
  if n < 0 then .error (.negativeDimension n) else .ok n.toInt.toNat

/-! ### Terms -/

/-- How a value of a kind is computed from cells. -/
inductive Term : Kind → Type where
  /-- Arithmetic on integers. -/
  | integerArith (op : Arith) (a b : Cell .integer) : Term .integer
  /-- A function of an integer. -/
  | integerUnary (f : IntegerFn) (a : Cell .integer) : Term .integer
  /-- The integer itself. -/
  | integer (a : Cell .integer) : Term .integer
  /-- Arithmetic on numbers. -/
  | scalarArith (op : Arith) (a b : Scalar) : Term .double
  /-- A function of a number. -/
  | scalarUnary (f : ElementFn) (a : Scalar) : Term .double
  /-- A measure of a matrix. -/
  | measure (f : MatrixMeasure) (a : Cell .matrix) : Term .double
  /-- The norm with a given exponent. -/
  | normP (a : Cell .matrix) (p : Scalar) : Term .double
  /-- The product of two vectors. -/
  | dot (a b : Cell .matrix) : Term .double
  /-- The element at an address. -/
  | element (m : Cell .matrix) (address : Address) : Term .double
  /-- The number itself. -/
  | scalar (a : Scalar) : Term .double
  /-- The only element of a 1x1 matrix. -/
  | onlyElement (m : Cell .matrix) : Term .double
  /-- Arithmetic on matrices. -/
  | matrixArith (op : MatrixArith) (a b : Cell .matrix) : Term .matrix
  /-- Arithmetic on each entry and one number, which may be the first operand. -/
  | broadcast (op : Arith) (m : Cell .matrix) (s : Scalar) (scalarFirst : Bool) : Term .matrix
  /-- The solution of a system. -/
  | solve (a b : Cell .matrix) : Term .matrix
  /-- A function of each entry. -/
  | elementwise (f : ElementFn) (a : Cell .matrix) : Term .matrix
  /-- A function of a matrix. -/
  | matrixUnary (f : MatrixFn) (a : Cell .matrix) : Term .matrix
  /-- The reduction of rows or columns. -/
  | reduceAlong (how : Reduction) (rows : Bool) (a : Cell .matrix) : Term .matrix
  /-- A matrix of equal entries. -/
  | filled (rows cols : Cell .integer) (value : Float) : Term .matrix
  /-- An identity matrix. -/
  | eye (n : Cell .integer) : Term .matrix
  /-- A product block by block. -/
  | kron (a b : Cell .matrix) : Term .matrix
  /-- The submatrix at an address. -/
  | submatrix (m : Cell .matrix) (address : Address) : Term .matrix
  /-- A matrix with the places of an address overwritten. -/
  | inserted (m : Cell .matrix) (source : Source) (address : Address) : Term .matrix
  /-- A bracket literal. -/
  | literal (rows : Literal) : Term .matrix
  /-- The matrix itself. -/
  | matrix (m : Cell .matrix) : Term .matrix
  /-- The sequence itself. -/
  | sequence (a : Cell .sequence) : Term .sequence

/-- A matrix with the places of an address overwritten by a source. -/
def Source.insertInto (s : Store) (source : Source) (m : Matrix) (address : Address) :
    Except Error Matrix := do
  let selection ← address.select s m.shape
  match source with
  | .matrix cell =>
    let block := s.read cell
    (address.checkFit selection block).mapError Error.shape
    return m.insert selection block.entries.toList
  | .scalar operand =>
    return m.insert selection (List.replicate selection.places.length (s.readScalar operand))

/-- The value of a term for the contents of a store. -/
def Term.eval (s : Store) : {kind : Kind} → Term kind → Except Error kind.Content
  | _, integerArith op a b => (op.applyInteger (s.read a) (s.read b)).mapError Error.numeric
  | _, integerUnary f a => .ok (f.apply (s.read a))
  | _, integer a => .ok (s.read a)
  | _, scalarArith op a b => .ok (op.apply (s.readScalar a) (s.readScalar b))
  | _, scalarUnary f a => .ok (f.apply (s.readScalar a))
  | _, measure f a => (f.apply (s.read a)).mapError Error.shape
  | _, normP a p => (Matrix.normP (s.readScalar p) (s.read a)).mapError Error.numeric
  | _, dot a b => (Matrix.dot (s.read a) (s.read b)).mapError Error.shape
  | _, element m address =>
    (address.select s (s.read m).shape).map fun selection =>
      ((s.read m).extract selection).entry 0 0
  | _, scalar a => .ok (s.readScalar a)
  | _, onlyElement m =>
    let value := s.read m
    if value.shape = ⟨1, 1⟩ then .ok (value.entry 0 0)
    else .error (.shape (.notSingle value.shape))
  | _, matrixArith op a b => (op.apply (s.read a) (s.read b)).mapError Error.shape
  | _, broadcast op m operand scalarFirst =>
    let x := s.readScalar operand
    .ok ((s.read m).map fun y => if scalarFirst then op.apply x y else op.apply y x)
  | _, solve a b => Matrix.solve (s.read a) (s.read b)
  | _, elementwise f a => .ok ((s.read a).map f.apply)
  | _, matrixUnary f a => f.apply (s.read a)
  | _, reduceAlong how rows a => .ok (how.along rows (s.read a))
  | _, filled rows cols value => do
    let rows ← (dimension (s.read rows)).mapError Error.shape
    let cols ← (dimension (s.read cols)).mapError Error.shape
    return Matrix.fill rows cols value
  | _, eye n => do
    let n ← (dimension (s.read n)).mapError Error.shape
    return Matrix.identity n n
  | _, kron a b => .ok (Matrix.kron (s.read a) (s.read b))
  | _, submatrix m address =>
    (address.select s (s.read m).shape).map (s.read m).extract
  | _, inserted m source address => source.insertInto s (s.read m) address
  | _, literal rows => rows.layOut s
  | _, matrix m => .ok (s.read m)
  | _, sequence a => .ok (s.read a)

end MatrixCalc
