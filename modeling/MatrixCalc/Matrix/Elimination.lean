import MatrixCalc.Matrix.Basic

/-!
# Elimination

Determinants, inverses and square systems by elimination with partial pivoting, and the reduced
echelon form.  Determinants up to 3x3 and inverses up to 4x4 are written out in cofactors.
-/

namespace MatrixCalc

namespace Matrix

/-- Two rows exchanged. -/
def swapRows (m : Matrix) (a b : Nat) : Matrix :=
  ofFn m.rows m.cols fun i j => m.entry (if i = a then b else if i = b then a else i) j

/-- The first row from `k` on whose entry in column `k` has the largest absolute value. -/
def pivotRow (m : Matrix) (k : Nat) : Nat :=
  ((List.range (m.rows - k)).map (· + k)).foldl
    (fun best i => if (m.entry best k).abs < (m.entry i k).abs then i else best) k

/-- One step of the factorization: the factors of column `k` below the diagonal take its place,
and the rows below lose the multiples of row `k`. -/
def eliminateBelow (m : Matrix) (k : Nat) : Matrix :=
  let inverse := 1.0 / m.entry k k
  ofFn m.rows m.cols fun i j =>
    if i ≤ k ∨ j < k then m.entry i j
    else if j = k then m.entry i k * inverse
    else -(m.entry k j) * (m.entry i k * inverse) + m.entry i j

/-- A square matrix factored into a unit lower and an upper triangle, both kept in `factors`. -/
structure Factored where
  /-- The factors below the diagonal and the upper triangle. -/
  factors : Matrix
  /-- The row exchanges, first one first. -/
  swaps : List (Nat × Nat)
  /-- No column was without a pivot. -/
  regular : Bool

/-- The factorization by elimination with partial pivoting; a column without a pivot is passed
over. -/
def factor (m : Matrix) : Factored :=
  (List.range m.rows).foldl
    (fun f k =>
      let pivot := f.factors.pivotRow k
      if f.factors.entry pivot k == 0.0 then { f with regular := false }
      else if pivot = k then { f with factors := f.factors.eliminateBelow k }
      else
        { f with
          factors := (f.factors.swapRows k pivot).eliminateBelow k
          swaps := f.swaps ++ [(k, pivot)] })
    ⟨m, [], true⟩

namespace Factored

/-- The product of the diagonal, with the sign of the row exchanges. -/
def determinant (f : Factored) : Float :=
  let product := f.factors.diagonal.foldl (· * ·) 1.0
  product * if f.swaps.length % 2 = 0 then 1.0 else -1.0

/-- Solves for the unit lower triangle. -/
def solveLower (f : Factored) (b : Matrix) : Matrix :=
  (List.range f.factors.rows).foldl
    (fun b k => ofFn b.rows b.cols fun i j =>
      if i ≤ k then b.entry i j else -(b.entry k j) * f.factors.entry i k + b.entry i j) b

/-- Solves for the upper triangle. -/
def solveUpper (f : Factored) (b : Matrix) : Matrix :=
  (List.range f.factors.rows).reverse.foldl
    (fun b k => ofFn b.rows b.cols fun i j =>
      let solved := b.entry k j / f.factors.entry k k
      if i = k then solved
      else if k < i then b.entry i j
      else -solved * f.factors.entry i k + b.entry i j) b

/-- The solution of the factored system for the right-hand sides `b`; none if the diagonal has a
zero and there is a right-hand side. -/
def solve? (f : Factored) (b : Matrix) : Option Matrix :=
  if b.cols ≠ 0 ∧ f.factors.diagonal.any (· == 0.0) then none
  else
    let permuted := f.swaps.foldl (fun b swap => b.swapRows swap.1 swap.2) b
    some (f.solveUpper (f.solveLower permuted))

end Factored

/-! ### Cofactors -/

/-- The entries of a 3x3 determinant multiplied out, columns `a`, `b` and `c`. -/
def triple (a b c : Nat → Float) : Float :=
  a 0 * b 1 * c 2 - a 0 * b 2 * c 1 - b 0 * a 1 * c 2 + b 0 * a 2 * c 1 + c 0 * a 1 * b 2 -
    c 0 * a 2 * b 1

/-- The same determinant with the opposite sign, term by term: products that cancel leave a
positive zero in both. -/
def negatedTriple (a b c : Nat → Float) : Float :=
  -(a 0) * b 1 * c 2 + a 0 * b 2 * c 1 + b 0 * a 1 * c 2 - b 0 * a 2 * c 1 - c 0 * a 1 * b 2 +
    c 0 * a 2 * b 1

/-- An index that passes over `skipped`. -/
def passing (skipped k : Nat) : Nat := if k < skipped then k else k + 1

/-- The signed minor of a 4x4 matrix without row `i` and column `j`. -/
def cofactor (m : Matrix) (i j : Nat) : Float :=
  let column (k : Nat) (r : Nat) : Float := m.entry (passing i r) (passing j k)
  if (i + j) % 2 = 0 then triple (column 0) (column 1) (column 2)
  else negatedTriple (column 0) (column 1) (column 2)

/-- The determinant of a 3x3 matrix, along the first row. -/
def determinant3 (m : Matrix) : Float :=
  let e := m.entry
  e 0 0 * (e 1 1 * e 2 2 - e 2 1 * e 1 2) - e 0 1 * (e 1 0 * e 2 2 - e 2 0 * e 1 2) +
    e 0 2 * (e 1 0 * e 2 1 - e 2 0 * e 1 1)

/-- The determinant of a 2x2 matrix. -/
def determinant2 (m : Matrix) : Float :=
  m.entry 0 0 * m.entry 1 1 - m.entry 1 0 * m.entry 0 1

/-- The determinant of a square matrix; that of the empty matrix is one. -/
def determinant (m : Matrix) : Float :=
  match m.rows with
  | 0 => 1.0
  | 1 => m.entry 0 0
  | 2 => m.determinant2
  | 3 => m.determinant3
  | _ => m.factor.determinant

/-- The inverse of a 2x2 matrix. -/
def inverse2? (m : Matrix) : Option Matrix :=
  let det := m.determinant2
  if det == 0.0 then none
  else some <| ofFn 2 2 fun i j =>
    (if i = j then m.entry (1 - i) (1 - j) else -(m.entry i j)) / det

/-- The inverse of a 3x3 matrix. -/
def inverse3? (m : Matrix) : Option Matrix :=
  let det := m.determinant3
  let minor (r s c d : Nat) : Float := m.entry r c * m.entry s d - m.entry s c * m.entry r d
  if det == 0.0 then none
  else some <| ofFn 3 3 fun i j =>
    (match i, j with
      | 0, 0 => minor 1 2 1 2
      | 0, 1 => minor 0 2 2 1
      | 0, 2 => minor 0 1 1 2
      | 1, 0 => -(minor 1 2 0 2)
      | 1, 1 => minor 0 2 0 2
      | 1, 2 => minor 0 1 2 0
      | 2, 0 => minor 1 2 0 1
      | 2, 1 => minor 0 2 1 0
      | _, _ => minor 0 1 0 1) / det

/-- The inverse of a 4x4 matrix: the transposed cofactors over the determinant. -/
def inverse4? (m : Matrix) : Option Matrix :=
  let det := m.entry 0 0 * m.cofactor 0 0 + m.entry 1 0 * m.cofactor 1 0 +
    m.entry 2 0 * m.cofactor 2 0 + m.entry 3 0 * m.cofactor 3 0
  if det == 0.0 then none
  else
    let scale := 1.0 / det
    some (ofFn 4 4 fun i j => m.cofactor j i * scale)

/-- The inverse of a square matrix. -/
def inverse? (m : Matrix) : Option Matrix :=
  match m.rows with
  | 0 => some m
  | 1 => if m.entry 0 0 == 0.0 then none else some (m.map (1.0 / ·))
  | 2 => m.inverse2?
  | 3 => m.inverse3?
  | 4 => m.inverse4?
  | n =>
    let f := m.factor
    if f.regular then f.solve? (identity n n) else none

/-! ### Reduced echelon form -/

/-- Pivots up to this size count as zero. -/
def singularBound : Float := 1e-12

/-- The last row from `lead` on whose entry in a column has the largest absolute value; what is
not a number is largest of all. -/
def echelonPivot (m : Matrix) (lead col : Nat) : Nat :=
  let key (i : Nat) : UInt64 := (m.entry i col).abs.toBits
  ((List.range (m.rows - lead)).map (· + lead)).foldl
    (fun best i => if key i < key best then best else i) lead

/-- Clears a column above and below the row `lead`, whose entry there becomes one. -/
def clearColumn (m : Matrix) (lead col : Nat) : Matrix :=
  let pivot := m.entry lead col
  ofFn m.rows m.cols fun i j =>
    let leading := m.entry lead j / pivot
    let factor := m.entry i col
    if i = lead then leading
    else if factor != 0.0 then m.entry i j - factor * leading
    else m.entry i j

/-- Continues the reduction with the given columns, the next pivot going to row `lead`. -/
def echelonFrom (m : Matrix) (lead : Nat) : List Nat → Matrix
  | [] => m
  | col :: cols =>
    if m.rows ≤ lead then m
    else
      let pivot := m.echelonPivot lead col
      if (m.entry pivot col).abs ≤ singularBound then echelonFrom m lead cols
      else echelonFrom ((m.swapRows lead pivot).clearColumn lead col) (lead + 1) cols

/-- The reduced row echelon form, with partial pivoting. -/
def rref (m : Matrix) : Matrix := m.echelonFrom 0 (List.range m.cols)

end Matrix

end MatrixCalc
