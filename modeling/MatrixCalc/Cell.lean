/-!
# Kinds, cells and variables

A variable is a handle to a cell of one of four kinds.  Two handles are the same variable iff they
name the same cell; what a cell holds is the matter of a `Store`.
-/

namespace MatrixCalc

/-- The kinds of value a name can be bound to. -/
inductive Kind where
  | matrix
  | double
  | integer
  | sequence
deriving DecidableEq

/-- The kind in words. -/
def Kind.text : Kind → String
  | matrix => "matrix"
  | double => "double"
  | integer => "integer"
  | sequence => "integer sequence"

/-- A cell of a given kind, by its number among the cells of that kind. -/
structure Cell (kind : Kind) where
  /-- The number of the cell. -/
  id : Nat
deriving DecidableEq

/-- A cell together with its kind. -/
structure Variable where
  /-- The kind of value held. -/
  kind : Kind
  /-- The cell that holds it. -/
  cell : Cell kind
deriving DecidableEq

/-- A cell of either scalar kind, read as a double. -/
inductive Scalar where
  | integer (cell : Cell .integer)
  | double (cell : Cell .double)
deriving DecidableEq

namespace Variable

/-- The variable as a scalar operand. -/
def scalar? : Variable → Option Scalar
  | ⟨.integer, cell⟩ => some (.integer cell)
  | ⟨.double, cell⟩ => some (.double cell)
  | _ => none

end Variable

/-- The variable that a scalar operand names. -/
def Scalar.toVariable : Scalar → Variable
  | .integer cell => ⟨.integer, cell⟩
  | .double cell => ⟨.double, cell⟩

end MatrixCalc
