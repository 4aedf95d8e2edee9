import MatrixCalc.Logged
import MatrixCalc.Operation.Recipe

/-!
# Drafts

A `Draft` is a statement in the course of being compiled: the store with the cells allocated so
far, the operations emitted so far, and which integer cells hold literals.  A `Build` is a
computation on a draft.  It allocates cells and emits operations; it changes no cell.
-/

namespace MatrixCalc

/-- A statement in the course of being compiled. -/
structure Draft where
  /-- The cells; those of the draft have been added to the ones before it. -/
  store : Store
  /-- The number of intermediate variables. -/
  temporaries : Nat := 0
  /-- The integer cells that hold literals, with their values. -/
  constants : List (Cell .integer × Int64) := []
  /-- The operations emitted so far. -/
  program : Program := []
  /-- What has been reported. -/
  log : List Event := []

/-- The value of a cell that holds an integer literal. -/
def Draft.constant (d : Draft) (cell : Cell .integer) : Option Int64 := d.constants.lookup cell

/-- A computation on a draft; the draft survives a failure. -/
abbrev Build (α : Type) := EStateM Error Draft α

namespace Build

/-- The text is not a statement. -/
def fail {α : Type} (cause : Malformed) : Build α := throw (.malformed cause)

/-- A plain result. -/
def ofExcept {α : Type} : Except Malformed α → Build α
  | .ok value => pure value
  | .error cause => fail cause

/-- A value that must be there. -/
def ofOption {α : Type} (cause : Malformed) : Option α → Build α
  | some value => pure value
  | none => fail cause

/-- Goes on only if a condition holds. -/
def require (condition : Bool) (cause : Malformed) : Build Unit :=
  if condition then pure () else fail cause

/-- Records an event. -/
def record (e : Event) : Build Unit := modify fun d => { d with log := d.log ++ [e] }

/-- A computation that only reports. -/
def ofLogged {α : Type} (computation : Logged α) : Build α := fun d =>
  match computation d.log with
  | .ok value log => .ok value { d with log }
  | .error e log => .error e { d with log }

/-- A new cell. -/
def allocate {kind : Kind} (value : kind.Content) : Build (Cell kind) := fun d =>
  .ok (d.store.allocate value).2 { d with store := (d.store.allocate value).1 }

/-- A new intermediate variable. -/
def create {kind : Kind} (value : kind.Content) : Build (Cell kind) := fun d =>
  .ok (d.store.allocate value).2
    { d with store := (d.store.allocate value).1, temporaries := d.temporaries + 1 }

/-- An intermediate variable for an integer literal. -/
def integerLiteral (value : Int64) : Build Variable := do
  let cell ← @create .integer value
  modify fun d => { d with constants := (cell, value) :: d.constants }
  return ⟨.integer, cell⟩

/-- An intermediate variable for a double literal. -/
def doubleLiteral (value : Float) : Build Variable := do
  return ⟨.double, ← @create .double value⟩

/-- An intermediate variable for a sequence of indices. -/
def sequenceVariable (value : IndexSequence) : Build Variable := do
  return ⟨.sequence, ← @create .sequence value⟩

/-- The operation of a recipe, with an intermediate variable as its target. -/
def place (r : Except Malformed Recipe) : Build Operation := do
  let r ← ofExcept r
  return r.into (← create r.kind.blank)

/-- Adds an operation to the program; the answer is the variable that it writes. -/
def emit (op : Operation) : Build Variable := do
  record (.emitted op.name)
  modify fun d => { d with program := d.program ++ [op] }
  return op.output

/-- Emits the operation of a recipe. -/
def emitRecipe (r : Except Malformed Recipe) : Build Variable := do emit (← place r)

end Build

end MatrixCalc
