import MatrixCalc.Matrix.Bidiagonal
import MatrixCalc.Matrix.Elimination

/-!
# Singular values

The singular value decomposition by rotations.  A matrix is brought to bidiagonal form, and rounds
of rotations (`Bidiagonal.sweep`) make the entries beside the diagonal smaller and smaller.  Entries
that are negligible are cleared (`Bidiagonal.delimit`), which splits the form into parts, and a part
of two rows is taken apart at once.  What is left on the diagonal are the singular values.

The entries are divided by the largest of them beforehand, so that squares of large or small entries
stay within the doubles.  From the decomposition come the spectral norm, the pseudo-inverse and the
least squares solution of a system that is not square; singular values up to `singularBound` count
as zero.

Not every matrix has a decomposition (`Breakdown`).  There is none without entries.  The rounds go on
as long as they can be counted, and entries that are not numbers never become negligible.  If the
rounds do end, the singular values are put in order, and values that are not numbers have none.

* `Matrix.singular_eq_noEntries_iff` : the decomposition of an empty matrix breaks down.
-/

namespace MatrixCalc

namespace Bidiagonal

/-! ### Clearing entries -/

/-- Entries up to this size are negligible beside entries of size one. -/
def negligible : Float := 1.1102230246251565e-15

/-- Moves an entry of row `i` to the right, out of the form: `x` stands above the entry `y` of the
diagonal in column `k + 1`, and there are `further` columns behind that one. -/
def driveRight (i : Nat) : Nat → Nat → Float → Float → Bidiagonal → Bidiagonal
  | further, k, x, y, b =>
    match Rotation.clearingFirst? x y with
    | none => b
    | some (r, length) =>
      let b := (b.setEntry (k + 1) length).turnLeft r i (k + 1)
      match further with
      | 0 => b
      | further + 1 =>
        let old := b.next (k + 1)
        driveRight i further (k + 1) (-r.sin * old) (b.entry (k + 2))
          (b.setNext (k + 1) (old * r.cos))

/-- Moves an entry of column `i + 1` upwards, out of the form: `y` stands beside the entry `x` of
the diagonal in row `k`. -/
def driveUp (i : Nat) : Nat → Float → Float → Bidiagonal → Bidiagonal
  | k, x, y, b =>
    match Rotation.clearingSecond? x y with
    | none => b
    | some (r, length) =>
      let b := (b.setEntry k length).turnRight r k (i + 1)
      match k with
      | 0 => b
      | k + 1 =>
        let old := b.next k
        driveUp i k (b.entry k) (r.sin * old) (b.setNext k (old * r.cos))

/-- Clears row `i`, whose entry on the diagonal is zero; the part ends with row `stop`. -/
def clearRow (b : Bidiagonal) (i stop : Nat) : Bidiagonal :=
  driveRight i (stop - i - 1) i (b.next i) (b.entry (i + 1)) (b.setNext i 0.0)

/-- Clears column `i + 1` above the diagonal, whose entry there is zero. -/
def clearColumn (b : Bidiagonal) (i : Nat) : Bidiagonal :=
  driveUp i i (b.entry i) (b.next i) (b.setNext i 0.0)

/-- Sets the entry `i` of the diagonal to zero and clears its row and column. -/
def dropEntry (b : Bidiagonal) (i stop : Nat) : Bidiagonal :=
  let b := (b.setEntry i 0.0).clearRow i stop
  match i with
  | 0 => b
  | i + 1 => b.clearColumn i

/-- The entry beside row `i` of the diagonal is negligible. -/
def splitsAt (b : Bidiagonal) (i : Nat) : Bool :=
  (b.next i).abs ≤ negligible * ((b.entry (i + 1)).abs + (b.entry i).abs)

/-- Clears what is negligible at the end of the form, up to the row `n`; the answer is the row at
which that ends. -/
def trimEnd : Nat → Bidiagonal → Bidiagonal × Nat
  | 0, b => (b, 0)
  | m + 1, b =>
    if b.next m == 0.0 || b.splitsAt m then trimEnd m (b.setNext m 0.0)
    else if (b.entry m).abs ≤ negligible then trimEnd m (b.dropEntry m (m + 1))
    else if (b.entry (m + 1)).abs ≤ negligible then
      trimEnd m ((b.setEntry (m + 1) 0.0).clearColumn m)
    else (b, m + 1)

/-- The first row of the part that ends with row `stop`; the rows in front of row `n` are looked
at. -/
def findStart (stop : Nat) : Nat → Bidiagonal → Bidiagonal × Nat
  | 0, b => (b, 0)
  | m + 1, b =>
    if b.splitsAt m then (b.setNext m 0.0, m + 1)
    else if (b.entry m).abs ≤ negligible then (b.dropEntry m stop, m + 1)
    else findStart stop m b

/-- The last part of the form, up to the row `n`, that is not diagonal: its first and last row.
Both are zero if there is no such part. -/
def delimit (b : Bidiagonal) (n : Nat) : Bidiagonal × Nat × Nat :=
  match trimEnd n b with
  | (b, 0) => (b, 0, 0)
  | (b, stop + 1) =>
    let (b, start) := findStart (stop + 1) stop b
    (b, start, stop + 1)

/-! ### Rounds of rotations -/

/-- The eigenvalue of the symmetric matrix of `a`, `b` and `c` that is nearer to `c`, with `b` off
the diagonal. -/
def nearerEigenvalue (a b c : Float) : Float :=
  let square := b * b
  if square == 0.0 then c
  else
    let half := (a - c) * 0.5
    c - square / (half + (polar half).2 * (half * half + square).sqrt)

/-- The shift of a round: an estimate of the square of the value that the part ends with. -/
def shift (b : Bidiagonal) (stop : Nat) : Float :=
  let d := b.entry (stop - 1)
  let e := b.entry stop
  let f := b.next (stop - 1)
  let g := b.next (stop - 2)
  nearerEigenvalue (d * d + g * g) (d * f) (e * e + f * f)

/-- Rotations of the rows and columns `k` and `k + 1` that move the bulge `(x, y)` down the form;
there are `further` rows behind those.  The first rotation of a round has no row in front of it. -/
def sweep (isFirst : Bool) : Nat → Nat → Float → Float → Bidiagonal → Bidiagonal
  | further, k, x, y, b =>
    match Rotation.clearingSecond? x y with
    | none => b
    | some (right, length) =>
      let (d, f) := right.turn (b.entry k) (b.next k)
      let (below, e) := right.turn 0.0 (b.entry (k + 1))
      let (left, first) := (Rotation.clearingSecond? d below).getD (Rotation.identity, d)
      let (f, e) := left.turn f e
      let (bulge, g) := left.turn 0.0 (if further = 0 then 0.0 else b.next (k + 1))
      let b := if isFirst then b else b.setNext (k - 1) length
      let b := (b.turnRight right k (k + 1)).turnLeft left k (k + 1)
      let b := ((b.setEntry k first).setEntry (k + 1) e).setNext k f
      match further with
      | 0 => b
      | further + 1 => sweep false further (k + 1) f bulge (b.setNext (k + 1) g)

/-- One round on the part from row `start` to row `stop`. -/
def round (b : Bidiagonal) (start stop : Nat) : Bidiagonal :=
  let d := b.entry start
  sweep true (stop - start - 1) start (d * d - b.shift stop) (d * b.next start) b

/-- Takes the part of the rows `i` and `i + 1` apart. -/
def solvePair (b : Bidiagonal) (i : Nat) : Bidiagonal :=
  let pair := PairDecomposition.of (b.entry i) (b.next i) (b.entry (i + 1))
  let b := ((b.setEntry i pair.first).setEntry (i + 1) pair.second).setNext i 0.0
  (b.turnLeft pair.left.inverse i (i + 1)).turnRight pair.right.inverse i (i + 1)

/-- Works on the part from row `start` to row `stop`, and then on those in front of it, until
nothing is left beside the diagonal; there is no result if the rounds are used up before. -/
def settle : Nat → Bidiagonal × Nat × Nat → Option Bidiagonal
  | rounds, (b, start, stop) =>
    if start = stop then some b
    else match rounds with
      | 0 => none
      | rounds + 1 =>
        if stop = start + 1 then settle rounds ((b.solvePair start).delimit start)
        else settle rounds ((b.round start stop).delimit stop)

/-- The rounds are counted with 64 bits, and nothing else bounds them. -/
def maxRounds : Nat := Nat.pow 2 64

/-- The form with nothing beside the diagonal. -/
def diagonalize (b : Bidiagonal) : Option Bidiagonal :=
  settle maxRounds (b.delimit (b.diagonal.size - 1))

end Bidiagonal

/-! ### The decomposition -/

/-- A singular value with its vectors. -/
structure Singular where
  /-- The singular value. -/
  value : Float
  /-- The unit vector on the side of the rows. -/
  left : List Float
  /-- The unit vector on the side of the columns. -/
  right : List Float

namespace Singular

/-- The part of the transposed matrix. -/
def transpose (part : Singular) : Singular := ⟨part.value, part.right, part.left⟩

/-- The part with a value that is not negative. -/
def positive (part : Singular) : Singular :=
  if part.value < 0.0 then ⟨-part.value, part.left.map (-·), part.right⟩ else part

/-- The singular value does not count as zero. -/
def counts (part : Singular) : Bool := Matrix.singularBound < part.value

/-- The parts of a decomposition, the largest value first.  The order is only asked for when there
are two of them. -/
def inOrder (parts : List Singular) : Except Breakdown (List Singular) :=
  if 2 ≤ parts.length ∧ parts.any (·.value.isNaN) then .error .unordered
  else .ok (parts.mergeSort fun a b => b.value ≤ a.value)

end Singular

namespace Matrix

/-- The largest absolute value of an entry. -/
def largestEntry (m : Matrix) : Float :=
  (m.columnwise.map Float.abs).foldl Reduction.larger 0.0

/-- The decomposition of a matrix with no more columns than rows, one part for each column. -/
def singularTall (dotLeft dotRight : Dot) (m : Matrix) : Option (List Singular) :=
  let scale := m.largestEntry
  let scaled := if scale == 0.0 then m else m.map (· / scale)
  let form := Bidiagonal.ofColumns dotLeft dotRight m.rows ((List.range m.cols).map scaled.column)
  form.diagonalize.map fun b => (List.range m.cols).map fun k =>
    Singular.positive ⟨b.entry k * scale, b.left.getD k [], b.right.getD k []⟩

/-- The singular value decomposition, the largest value first.  Products along the columns of the
matrix are added in lanes, those along its rows in order. -/
def singular (m : Matrix) : Except Breakdown (List Singular) :=
  if m.rows = 0 ∨ m.cols = 0 then .error .noEntries
  else
    let parts :=
      if m.cols ≤ m.rows then m.singularTall Dot.inLanes Dot.inOrder
      else (m.transpose.singularTall Dot.inOrder Dot.inLanes).map (·.map Singular.transpose)
    match parts with
    | none => .error .endless
    | some parts => Singular.inOrder parts

/-- **Exactly the empty matrices have no decomposition for want of entries.** -/
theorem singular_eq_noEntries_iff {m : Matrix} :
    m.singular = .error .noEntries ↔ m.rows = 0 ∨ m.cols = 0 := by
  refine ⟨fun failed => Decidable.byContradiction fun entries => ?_, fun empty => if_pos empty⟩
  rw [singular, if_neg entries] at failed
  dsimp only at failed
  split at failed
  · cases failed
  · unfold Singular.inOrder at failed
    split at failed <;> cases failed

/-- The largest singular value. -/
def spectralNorm (m : Matrix) : Except Breakdown Float :=
  m.singular.map fun parts => (parts.map Singular.value).foldl Reduction.larger 0.0

/-- The pseudo-inverse: the values that count are inverted, the others become zero. -/
def pseudoInverse (m : Matrix) : Except Breakdown Matrix :=
  m.singular.map fun parts =>
    let parts := parts.map fun part =>
      let factor := if part.counts then 1.0 / part.value else 0.0
      ((part.left.map (· * factor)).toArray, part.right.toArray)
    ofFn m.cols m.rows fun i j =>
      sumFloats (parts.map fun part => part.1.getD j 0.0 * part.2.getD i 0.0)

/-- The matrix `x` of least norm among those for which `a x` is nearest to `b`: every part whose
value counts contributes its right vector, as far as its left vector lies in a column of `b`. -/
def leastSquares (a b : Matrix) : Except Breakdown Matrix :=
  a.singular.map fun parts =>
    let columns := (Array.range b.cols).map fun j =>
      parts.map fun part =>
        if part.counts then Dot.inLanes part.left (b.column j) / part.value else 0.0
    let rights := parts.map fun part => part.right.toArray
    ofFn a.cols b.cols fun i j =>
      Dot.inLanes (rights.map (·.getD i 0.0)) (columns.getD j [])

/-- The norm of a matrix that is not a vector, or of a vector, with exponent `p`. -/
def normP (p : Float) (m : Matrix) : Except NumericFailure Float :=
  if m.isVector then
    if p < 1.0 then .error (.vectorNorm p) else .ok (m.vectorNorm p)
  else if p == 1.0 then .ok m.maxColumnSum
  else if p == 2.0 then m.spectralNorm.mapError .breakdown
  else .error (.matrixNorm p)

/-- The inverse of a square matrix. -/
def inverse (m : Matrix) : Except Error Matrix := do
  (m.checkSquare "inv").mapError Error.shape
  match m.inverse? with
  | some inverse => return inverse
  | none => throw (.numeric .singularInverse)

/-- The solution of `a x = b`; the least squares solution of least norm if `a` is not square. -/
def solve (a b : Matrix) : Except Error Matrix :=
  if a.rows ≠ b.rows then .error (.shape (.rightHandSide a.shape b.shape))
  else if a.rows = a.cols then
    match a.factor.solve? b with
    | some solution => .ok solution
    | none => .error (.numeric .singularSystem)
  else (leastSquares a b).mapError Error.breakdown

end Matrix

end MatrixCalc
