import MatrixCalc.Statement.Item

/-!
# Ranges and side-by-side lists

What is left of a list when its operators are resolved are variables and colons.  `Range.parse`
cuts them into single variables and ranges: `:` is everything, `a:` runs to the end, `a:b` and
`a:s:b` have both ends.  `Range.join` makes one sequence of integers and sequences that stand side
by side.
-/

namespace MatrixCalc

/-- A variable, or a range that has no variable yet. -/
inductive Range where
  /-- A variable. -/
  | value (v : Variable)
  /-- A range. -/
  | sequence (s : IndexSequence)

namespace Range

/-- The bound that a variable is. -/
def bound : Variable → Except Malformed (Cell .integer)
  | ⟨.integer, cell⟩ => .ok cell
  | v => .error (.boundNotAnInteger v.kind)

/-- Cuts variables and colons (`none`) into single variables and ranges. -/
def parse : List (Option Variable) → Except Malformed (List Range)
  | [] => .ok []
  | none :: [] => .ok [sequence (.span none none)]
  | none :: none :: rest => do return sequence (.span none none) :: (← parse (none :: rest))
  | none :: some _ :: _ => .error .rangeWithoutStart
  | some start :: none :: [] => do return [sequence (.span (some (← bound start)) none)]
  | some _ :: none :: none :: _ => .error .doubleColon
  | some start :: none :: some second :: none :: some stop :: rest => do
    let start ← bound start
    let step ← bound second
    let stop ← bound stop
    return sequence (.progression start (some step) stop) :: (← parse rest)
  | some start :: none :: some second :: none :: _ => do
    let _ ← bound start
    let _ ← bound second
    throw .rangeWithoutEnd
  | some start :: none :: some stop :: rest => do
    let start ← bound start
    let stop ← bound stop
    return sequence (.progression start none stop) :: (← parse rest)
  | some v :: rest => do return value v :: (← parse rest)

/-- The variable or colon that an item is. -/
def piece (s : Store) : Item → Except Malformed (Option Variable)
  | .value v => .ok (some v)
  | .symbol .colon => .ok none
  | other => .error (.unexpected (other.describe s))

/-- The variable of a single variable or a range. -/
def toVariable : Range → Build Variable
  | value v => pure v
  | sequence s => Build.sequenceVariable s

/-- The variables that a list without operators stands for, one for each range. -/
def handles (items : List Item) : Build (List Variable) := do
  let pieces ← Build.ofExcept (items.mapM (piece (← get).store))
  (← Build.ofExcept (parse pieces)).mapM toVariable

/-! ### Side by side -/

/-- Integers read so far, as a part of a sequence in front of others. -/
def flush (run : List (Cell .integer)) (parts : List IndexSequence) : List IndexSequence :=
  if run.isEmpty then parts else .listed run :: parts

/-- The parts of a list of integers and sequences; neighbouring integers form one part. -/
def parts (s : Store) (run : List (Cell .integer)) :
    List Variable → Except Malformed (List IndexSequence)
  | [] => .ok (flush run [])
  | ⟨.integer, cell⟩ :: rest => parts s (run ++ [cell]) rest
  | ⟨.sequence, cell⟩ :: rest => do
    return flush run (s.read cell :: (← parts s [] rest))
  | v :: _ => .error (.notListable (v.describe s))

/-- One sequence of its parts. -/
def ofParts : List IndexSequence → IndexSequence
  | [part] => part
  | parts => .joined parts

/-- The value of variables that stand side by side: none of nothing, a single one itself, and one
sequence of several. -/
def join : List Variable → Build (Option Variable)
  | [] => pure none
  | [v] => pure (some v)
  | items => do
    let parts ← Build.ofExcept (parts (← get).store [] items)
    return some (← Build.sequenceVariable (ofParts parts))

end Range

end MatrixCalc
