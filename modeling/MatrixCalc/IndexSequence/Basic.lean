import MatrixCalc.IndexSequence.Run

/-!
# Index sequences

An `IndexSequence` addresses rows, columns or elements of a matrix.  Its bounds are integer cells:
a sequence says which indices it means only for given contents of these cells, and an open one
only against the size of what it addresses.
-/

namespace MatrixCalc

/-- A sequence of indices whose bounds are integer cells. -/
inductive IndexSequence where
  /-- `1 0 2`: every index written out. -/
  | listed (cells : List (Cell .integer))
  /-- `a:b` or `a:s:b`: from `start` to `stop`, ends included. -/
  | progression (start : Cell .integer) (step : Option (Cell .integer)) (stop : Cell .integer)
  /-- `:` or `a:`: up to the last index of what is addressed, unless a last index is given. -/
  | span (start stop : Option (Cell .integer))
  /-- `2 3:5`: the parts one after another. -/
  | joined (parts : List IndexSequence)

namespace IndexSequence

/-- The sequence without indices. -/
def empty : IndexSequence := listed []

/-- The last index of something with `size` indices. -/
def lastIndex (size : Nat) : Int64 := Int64.ofInt (min size (Nat.pow 2 63 - 1) - 1)

mutual

/-- The runs of a sequence, given the contents of its bounds and the size of what it
addresses. -/
def runs (read : Cell .integer → Int64) (size : Nat) :
    IndexSequence → Except NumericFailure (List Run)
  | listed cells => .ok [.listed (cells.map read)]
  | progression start step stop =>
    (Run.ofProgression (read start) ((step.map read).getD 1) (read stop)).map ([·])
  | span start stop =>
    (Run.ofProgression ((start.map read).getD 0) 1 ((stop.map read).getD (lastIndex size))).map
      ([·])
  | joined parts => runsOfParts read size parts

/-- The runs of a list of sequences, one after another. -/
def runsOfParts (read : Cell .integer → Int64) (size : Nat) :
    List IndexSequence → Except NumericFailure (List Run)
  | [] => .ok []
  | part :: parts => do
    let first ← runs read size part
    let rest ← runsOfParts read size parts
    return first ++ rest

end

mutual

/-- The sequence means something only against the size of what it addresses. -/
def needsSize : IndexSequence → Bool
  | listed _ => false
  | progression _ _ _ => false
  | span _ stop => stop.isNone
  | joined parts => anyNeedsSize parts

/-- One of the sequences needs a size. -/
def anyNeedsSize : List IndexSequence → Bool
  | [] => false
  | part :: parts => needsSize part || anyNeedsSize parts

end

/-- The number of terms of a progression, if the step is not zero and the number is below
`2 ^ 64`. -/
def progressionLength (start step stop : Int64) : Option Nat :=
  if step = 0 then none
  else if (0 < step ∧ stop < start) ∨ (step < 0 ∧ start < stop) then some 0
  else
    let terms := ((stop.toInt - start.toInt).tdiv step.toInt + 1).toNat
    if terms < Nat.pow 2 64 then some terms else none

mutual

/-- The number of indices, as far as it follows from the bounds that are constants; none if it is
not below `2 ^ 64`. -/
def staticLength (constant : Cell .integer → Option Int64) : IndexSequence → Option Nat
  | listed cells => some cells.length
  | progression start step stop => do
    let start ← constant start
    let stop ← constant stop
    let step ← match step with
      | some step => constant step
      | none => some 1
    progressionLength start step stop
  | span start stop => do
    let start ← match start with
      | some start => constant start
      | none => some 0
    progressionLength start 1 (← constant (← stop))
  | joined parts => staticLengthOfParts constant 0 parts

/-- The number of indices of a list of sequences, on top of `total`. -/
def staticLengthOfParts (constant : Cell .integer → Option Int64) (total : Nat) :
    List IndexSequence → Option Nat
  | [] => some total
  | part :: parts => do
    let total := total + (← staticLength constant part)
    if total < Nat.pow 2 64 then staticLengthOfParts constant total parts else none

end

end IndexSequence

end MatrixCalc
