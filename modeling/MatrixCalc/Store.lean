import MatrixCalc.IndexSequence.Basic
import MatrixCalc.Matrix.Basic

/-!
# The store

A `Store` holds the contents of all cells.  Cells are only ever added: a handle stays good, and a
compiled statement that holds it sees whatever the cell holds when the statement is performed.

* `Store.read_write_self`, `Store.read_write_of_ne` : writing changes the cell that is written and
  no other.
* `Store.read_allocate_of_has` : allocating changes no cell.
-/

namespace MatrixCalc

/-- What a cell of a kind holds. -/
abbrev Kind.Content : Kind → Type
  | .matrix => Matrix
  | .double => Float
  | .integer => Int64
  | .sequence => IndexSequence

/-- What a new variable of a kind holds before anything is assigned to it. -/
def Kind.blank : (kind : Kind) → kind.Content
  | .matrix => Matrix.empty
  | .double => 0.0
  | .integer => 0
  | .sequence => IndexSequence.empty

/-- The contents of all cells, kind by kind. -/
structure Store where
  /-- What the matrix cells hold. -/
  matrices : Array Matrix := #[]
  /-- What the double cells hold. -/
  doubles : Array Float := #[]
  /-- What the integer cells hold. -/
  integers : Array Int64 := #[]
  /-- What the sequence cells hold. -/
  sequences : Array IndexSequence := #[]

namespace Store

/-- The contents of the cells of one kind. -/
def contents (s : Store) : (kind : Kind) → Array kind.Content
  | .matrix => s.matrices
  | .double => s.doubles
  | .integer => s.integers
  | .sequence => s.sequences

/-- The store with other contents of the cells of one kind. -/
def withContents (s : Store) : (kind : Kind) → Array kind.Content → Store
  | .matrix, matrices => { s with matrices }
  | .double, doubles => { s with doubles }
  | .integer, integers => { s with integers }
  | .sequence, sequences => { s with sequences }

/-- The number of cells of a kind. -/
def count (s : Store) (kind : Kind) : Nat := (s.contents kind).size

/-- The cell has been allocated. -/
def Has (s : Store) {kind : Kind} (cell : Cell kind) : Prop := cell.id < s.count kind

/-- What a cell holds. -/
def read (s : Store) {kind : Kind} (cell : Cell kind) : kind.Content :=
  (s.contents kind).getD cell.id kind.blank

/-- The store with a cell overwritten. -/
def write (s : Store) {kind : Kind} (cell : Cell kind) (value : kind.Content) : Store :=
  s.withContents kind ((s.contents kind).setIfInBounds cell.id value)

/-- The store with one more cell, and that cell. -/
def allocate (s : Store) {kind : Kind} (value : kind.Content) : Store × Cell kind :=
  (s.withContents kind ((s.contents kind).push value), ⟨s.count kind⟩)

/-- What a scalar operand holds, as a double. -/
def readScalar (s : Store) : Scalar → Float
  | .integer cell => (s.read cell).toFloat
  | .double cell => s.read cell

/-! ### Laws -/

@[simp] theorem contents_withContents (s : Store) (kind : Kind) (values : Array kind.Content) :
    (s.withContents kind values).contents kind = values := by
  cases kind <;> rfl

theorem contents_withContents_of_ne (s : Store) {kind other : Kind} (h : other ≠ kind)
    (values : Array kind.Content) :
    (s.withContents kind values).contents other = s.contents other := by
  cases kind <;> cases other <;> first | rfl | exact absurd rfl h

theorem read_write_self (s : Store) {kind : Kind} {cell : Cell kind} (h : s.Has cell)
    (value : kind.Content) : (s.write cell value).read cell = value := by
  have : cell.id < (s.contents kind).size := h
  simp [read, write, this]

theorem read_write_of_ne (s : Store) {kind other : Kind} {cell : Cell kind} {cell' : Cell other}
    (h : (⟨other, cell'⟩ : Variable) ≠ ⟨kind, cell⟩) (value : kind.Content) :
    (s.write cell value).read cell' = s.read cell' := by
  by_cases same : other = kind
  · subst same
    have : cell.id ≠ cell'.id := by
      intro eq
      obtain ⟨id⟩ := cell
      obtain ⟨id'⟩ := cell'
      dsimp only at eq
      exact h (by rw [eq])
    simp [read, write, Array.getElem?_setIfInBounds_ne this]
  · simp [read, write, contents_withContents_of_ne s same]

@[simp] theorem count_write (s : Store) {kind : Kind} (cell : Cell kind) (value : kind.Content)
    (other : Kind) : (s.write cell value).count other = s.count other := by
  by_cases same : other = kind
  · subst same
    simp [count, write]
  · simp [count, write, contents_withContents_of_ne s same]

theorem read_allocate_of_has (s : Store) {kind other : Kind} (value : kind.Content)
    {cell : Cell other} (h : s.Has cell) : (s.allocate value).1.read cell = s.read cell := by
  by_cases same : other = kind
  · subst same
    have bound : cell.id < (s.contents other).size := h
    simp [read, allocate, Array.getElem?_push_lt, bound]
  · simp [read, allocate, contents_withContents_of_ne s same]

theorem read_allocate_self (s : Store) {kind : Kind} (value : kind.Content) :
    (s.allocate value).1.read (s.allocate value).2 = value := by
  simp [read, allocate, count]

theorem count_allocate (s : Store) {kind : Kind} (value : kind.Content) (other : Kind) :
    (s.allocate value).1.count other = s.count other + if other = kind then 1 else 0 := by
  by_cases same : other = kind
  · subst same
    simp [count, allocate]
  · simp [count, allocate, contents_withContents_of_ne s same, same]

/-- The runs of a sequence for the contents of a store. -/
def runs (s : Store) (sequence : IndexSequence) (size : Nat) : Except NumericFailure (List Run) :=
  sequence.runs s.read size

end Store

/-! ### Variables in a store -/

namespace Variable

/-- The variable in words: the kind, and what a message shows of the contents. -/
def describe (s : Store) : Variable → String
  | ⟨.matrix, cell⟩ => s!"Matrix({(s.read cell).shape.text})"
  | ⟨.double, cell⟩ => s!"Double({Layout.plain.write (s.read cell)})"
  | ⟨.integer, cell⟩ => s!"Integer({(s.read cell).toInt})"
  | ⟨.sequence, _⟩ => "IntegerSequence"

end Variable

end MatrixCalc
