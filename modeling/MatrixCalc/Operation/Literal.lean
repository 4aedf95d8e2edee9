import MatrixCalc.Matrix.Arithmetic
import MatrixCalc.Store

/-!
# Matrix literals

The rows of a bracket literal are stacked from top to bottom, the blocks of a row stand side by
side.  A scalar is a 1x1 block, a sequence of indices is a row.  `checkStatic` refuses a literal
whose blocks cannot fit whatever the variables hold; `layOut` builds it.
-/

namespace MatrixCalc

/-- The blocks of a bracket literal, row by row. -/
abbrev Literal := List (List Variable)

namespace Literal

/-! ### Before the contents are known -/

/-- The shape of a block, as far as it does not depend on what variables hold. -/
def staticShape (s : Store) (constant : Cell .integer → Option Int64) : Variable → Option Shape
  | ⟨.integer, _⟩ => some ⟨1, 1⟩
  | ⟨.double, _⟩ => some ⟨1, 1⟩
  | ⟨.sequence, cell⟩ => ((s.read cell).staticLength constant).map fun n => ⟨1, n⟩
  | ⟨.matrix, _⟩ => none

/-- The known heights are equal. -/
def sameHeights : List (Option Shape) → Option Nat → Bool
  | [], _ => true
  | none :: shapes, height => sameHeights shapes height
  | some shape :: shapes, none => sameHeights shapes (some shape.rows)
  | some shape :: shapes, some height =>
    shape.rows == height && sameHeights shapes (some shape.rows)

/-- The sum of the widths on top of `total`, if all are known and it is below `2 ^ 64`. -/
def staticWidth (total : Nat) : List (Option Shape) → Option Nat
  | [] => some total
  | none :: _ => none
  | some shape :: shapes =>
    if total + shape.cols < Nat.pow 2 64 then staticWidth (total + shape.cols) shapes else none

/-- Checks the rows from number `r` on; `width` is the known width of an earlier row. -/
def checkStaticFrom (s : Store) (constant : Cell .integer → Option Int64) (r : Nat)
    (width : Option Nat) : Literal → Except Malformed Unit
  | [] => .ok ()
  | row :: rows =>
    let shapes := row.map (staticShape s constant)
    if !sameHeights shapes none then .error (.literalHeights r)
    else match staticWidth 0 shapes, width with
      | some found, some expected =>
        if found = expected then checkStaticFrom s constant (r + 1) width rows
        else .error (.literalWidth r found expected)
      | some found, none => checkStaticFrom s constant (r + 1) (some found) rows
      | none, width => checkStaticFrom s constant (r + 1) width rows

/-- Refuses a literal whose blocks cannot fit, whatever its variables hold. -/
def checkStatic (s : Store) (constant : Cell .integer → Option Int64) (rows : Literal) :
    Except Malformed Unit :=
  checkStaticFrom s constant 0 none rows

/-! ### With the contents -/

/-- The block of a variable. -/
def block (s : Store) : Variable → Except NumericFailure Matrix
  | ⟨.matrix, cell⟩ => .ok (s.read cell)
  | ⟨.double, cell⟩ => .ok (Matrix.fill 1 1 (s.read cell))
  | ⟨.integer, cell⟩ => .ok (Matrix.fill 1 1 (s.read cell).toFloat)
  | ⟨.sequence, cell⟩ =>
    (s.runs (s.read cell) 0).map fun runs =>
      let values := ((Runs.toList runs).map Int64.toFloat).toArray
      Matrix.ofFn 1 values.size fun _ j => values.getD j 0.0

/-- The blocks of row `r` side by side. -/
def layRow (r : Nat) (blocks : List Matrix) : Except ShapeMismatch Matrix :=
  let height := (blocks.head?.map Matrix.rows).getD 0
  match blocks.find? fun b => b.rows != height with
  | some b => .error (.literalHeights r height b.rows)
  | none => .ok (blocks.foldl Matrix.beside (Matrix.fill height 0 0.0))

/-- The rows from number `r` on; `width` is the width of the rows before. -/
def layRows (r : Nat) (width : Option Nat) :
    List (List Matrix) → Except ShapeMismatch (List Matrix)
  | [] => .ok []
  | blocks :: rows => do
    let row ← layRow r blocks
    if row.cols ≠ width.getD row.cols then
      throw (.literalWidth r row.cols (width.getD row.cols))
    return row :: (← layRows (r + 1) (some row.cols) rows)

/-- The rows on top of each other. -/
def stack (rows : List Matrix) : Matrix :=
  rows.foldl Matrix.above (Matrix.fill 0 ((rows.head?.map Matrix.cols).getD 0) 0.0)

/-- The matrix that a literal stands for. -/
def layOut (s : Store) (rows : Literal) : Except Error Matrix := do
  let blocks ← (List.mapM (fun row : List Variable => row.mapM (block s)) rows).mapError
    Error.numeric
  let rows ← (layRows 0 none blocks).mapError Error.shape
  return stack rows

end Literal

end MatrixCalc
