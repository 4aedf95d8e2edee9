import MatrixCalc.Operation.Term

/-!
# Operations and programs

An `Operation` computes a term and writes it to one cell; a `Program` is a list of them.
Performing a program runs its operations in order and stops at the first failure.  It can be
performed again and again, each time with what the cells hold then.

* `Operation.perform_eq_ok_iff` : an operation that succeeds writes the value of its term.
* `Program.perform_append` : a program in two parts is its first part, then its second.
-/

namespace MatrixCalc

/-- A value computed and written to a cell. -/
structure Operation where
  /-- The name shown for the operation. -/
  name : String
  /-- The kind of value. -/
  {kind : Kind}
  /-- The cell that is written. -/
  target : Cell kind
  /-- How the value is computed. -/
  term : Term kind

namespace Operation

/-- The variable that is written. -/
def output (op : Operation) : Variable := ⟨op.kind, op.target⟩

/-- The store after the operation; on a failure nothing has been written. -/
def perform (op : Operation) (s : Store) : Except Error Store :=
  (op.term.eval s).map (s.write op.target)

theorem perform_eq_ok_iff {op : Operation} {s s' : Store} :
    op.perform s = .ok s' ↔ ∃ value, op.term.eval s = .ok value ∧ s' = s.write op.target value := by
  simp only [perform]
  cases op.term.eval s <;> simp [Except.map, eq_comm]

theorem perform_eq_error_iff {op : Operation} {s : Store} {e : Error} :
    op.perform s = .error e ↔ op.term.eval s = .error e := by
  simp only [perform]
  cases op.term.eval s <;> simp [Except.map]

end Operation

/-- Operations in the order in which they are performed. -/
abbrev Program := List Operation

namespace Program

/-- The store after a program, and the failure that ended it early. -/
def perform : Program → Store → Store × Option Error
  | [], s => (s, none)
  | op :: program, s =>
    match op.perform s with
    | .ok s => perform program s
    | .error e => (s, some e)

/-- The names of the operations. -/
def names (program : Program) : List String := program.map Operation.name

@[simp] theorem perform_nil (s : Store) : perform [] s = (s, none) := rfl

theorem perform_append (first second : Program) (s : Store) :
    perform (first ++ second) s =
      match perform first s with
      | (s, none) => perform second s
      | (s, some e) => (s, some e) := by
  induction first generalizing s with
  | nil => rfl
  | cons op first ih =>
    simp only [List.cons_append, perform]
    cases op.perform s with
    | ok s => exact ih s
    | error e => rfl

end Program

end MatrixCalc
