import MatrixCalc.Operation.Basic
import MatrixCalc.Proofs.Growth

/-!
# What an operation reads

A term reads its operands, and through an operand that is a sequence also the integer cells of the
sequence.

* `Store.reads` : the variables that a term reads, each as often as it reads it.
* `Store.Closed` : the cells of all sequences exist; allocating keeps that.
-/

namespace MatrixCalc

/-! ### Cells of sequences -/

namespace IndexSequence

mutual

/-- The integer cells of a sequence. -/
def cells : IndexSequence → List (Cell .integer)
  | listed cells => cells
  | progression start step stop => start :: step.toList ++ [stop]
  | span start stop => start.toList ++ stop.toList
  | joined parts => cellsOfParts parts

/-- The integer cells of a list of sequences. -/
def cellsOfParts : List IndexSequence → List (Cell .integer)
  | [] => []
  | part :: parts => cells part ++ cellsOfParts parts

end

theorem cellsOfParts_eq (parts : List IndexSequence) :
    cellsOfParts parts = parts.flatMap cells := by
  induction parts with
  | nil => rfl
  | cons part parts ih => simp [cellsOfParts, ih]

end IndexSequence

/-! ### Operands -/

/-- The variable that an index names. -/
def Index.toVariable : Index → Variable
  | single cell => ⟨.integer, cell⟩
  | sequence cell => ⟨.sequence, cell⟩

/-- The variables that an address names. -/
def Address.variables : Address → List Variable
  | flat index => [index.toVariable]
  | grid rows cols => [rows.toVariable, cols.toVariable]

/-- The variable that a source names. -/
def Source.toVariable : Source → Variable
  | matrix cell => ⟨.matrix, cell⟩
  | scalar operand => operand.toVariable

/-- The variables that a term names, each as often as it names it. -/
def Term.operands : {kind : Kind} → Term kind → List Variable
  | _, integerArith _ a b => [⟨.integer, a⟩, ⟨.integer, b⟩]
  | _, integerUnary _ a => [⟨.integer, a⟩]
  | _, integer a => [⟨.integer, a⟩]
  | _, scalarArith _ a b => [a.toVariable, b.toVariable]
  | _, scalarUnary _ a => [a.toVariable]
  | _, measure _ a => [⟨.matrix, a⟩]
  | _, normP a p => [⟨.matrix, a⟩, p.toVariable]
  | _, dot a b => [⟨.matrix, a⟩, ⟨.matrix, b⟩]
  | _, element m address => ⟨.matrix, m⟩ :: address.variables
  | _, scalar a => [a.toVariable]
  | _, onlyElement m => [⟨.matrix, m⟩]
  | _, matrixArith _ a b => [⟨.matrix, a⟩, ⟨.matrix, b⟩]
  | _, broadcast _ m s _ => [⟨.matrix, m⟩, s.toVariable]
  | _, solve a b => [⟨.matrix, a⟩, ⟨.matrix, b⟩]
  | _, elementwise _ a => [⟨.matrix, a⟩]
  | _, matrixUnary _ a => [⟨.matrix, a⟩]
  | _, reduceAlong _ _ a => [⟨.matrix, a⟩]
  | _, filled rows cols _ => [⟨.integer, rows⟩, ⟨.integer, cols⟩]
  | _, eye n => [⟨.integer, n⟩]
  | _, kron a b => [⟨.matrix, a⟩, ⟨.matrix, b⟩]
  | _, submatrix m address => ⟨.matrix, m⟩ :: address.variables
  | _, inserted m source address => ⟨.matrix, m⟩ :: source.toVariable :: address.variables
  | _, literal rows => rows.flatten
  | _, matrix m => [⟨.matrix, m⟩]
  | _, sequence a => [⟨.sequence, a⟩]

/-! ### Reach -/

/-- The integer cells that a content refers to; only a sequence refers to any. -/
def Kind.cellsOf : (kind : Kind) → kind.Content → List (Cell .integer)
  | .sequence, s => s.cells
  | .matrix, _ | .double, _ | .integer, _ => []

theorem Kind.cellsOf_of_ne {kind : Kind} (h : kind ≠ .sequence) (value : kind.Content) :
    kind.cellsOf value = [] := by
  cases kind
  case sequence => exact absurd rfl h
  all_goals rfl

theorem Kind.cellsOf_blank (kind : Kind) : kind.cellsOf kind.blank = [] := by
  cases kind <;> rfl

namespace Store

/-- A variable and, if it is a sequence, its integer cells. -/
def reach (s : Store) (v : Variable) : List Variable :=
  v :: (v.kind.cellsOf (s.read v.cell)).map (⟨.integer, ·⟩)

/-- The variables that a term reads. -/
def reads (s : Store) {kind : Kind} (t : Term kind) : List Variable := t.operands.flatMap s.reach

/-- The variables that a program reads. -/
def readsOf (s : Store) (program : Program) : List Variable :=
  program.flatMap fun op => s.reads op.term

/-- The cells of all sequences exist. -/
def Closed (s : Store) : Prop :=
  ∀ v : Variable, s.Has v.cell → ∀ c ∈ v.kind.cellsOf (s.read v.cell), s.Has c

variable {s s' : Store}

theorem mem_reach_self (s : Store) (v : Variable) : v ∈ s.reach v := by simp [reach]

theorem reach_of_kind {v : Variable} (h : v.kind ≠ .sequence) : s.reach v = [v] := by
  rw [reach, Kind.cellsOf_of_ne h]
  rfl

/-- Variables that are no sequences reach only themselves. -/
theorem flatMap_reach_of_kind {vs : List Variable} (h : ∀ v ∈ vs, v.kind ≠ .sequence) :
    vs.flatMap s.reach = vs := by
  induction vs with
  | nil => rfl
  | cons v vs ih =>
    rw [List.flatMap_cons, reach_of_kind (h v (by simp)), ih fun w mem => h w (by simp [mem])]
    rfl

theorem Closed.has_of_mem_reach (closed : s.Closed) {v w : Variable} (has : s.Has v.cell)
    (h : w ∈ s.reach v) : s.Has w.cell := by
  simp only [reach, List.mem_cons, List.mem_map] at h
  rcases h with rfl | ⟨c, mem, rfl⟩
  · exact has
  · exact closed v has c mem

/-- The reach of a variable that exists does not change. -/
theorem Extends.reach (h : s.Extends s') {v : Variable} (has : s.Has v.cell) :
    s'.reach v = s.reach v := by
  rw [Store.reach, Store.reach, h.read has]

theorem mem_reads_of_operand (s : Store) {kind : Kind} {t : Term kind} {v : Variable}
    (h : v ∈ t.operands) : v ∈ s.reads t :=
  List.mem_flatMap.2 ⟨v, h, s.mem_reach_self v⟩

theorem Extends.reads (h : s.Extends s') {kind : Kind} {t : Term kind}
    (has : ∀ v ∈ t.operands, s.Has v.cell) : s'.reads t = s.reads t :=
  List.flatMap_congr fun v operand => h.reach (has v operand)

theorem readsOf_append (s : Store) (first second : Program) :
    s.readsOf (first ++ second) = s.readsOf first ++ s.readsOf second := List.flatMap_append

/-! ### Closed stores -/

/-- A new cell that refers to cells of the store keeps it closed. -/
theorem Closed.allocate (closed : s.Closed) {kind : Kind} {value : kind.Content}
    (h : ∀ c ∈ kind.cellsOf value, s.Has c) : (s.allocate value).1.Closed := by
  have grown := s.extends_allocate value
  intro v has c mem
  rcases s.has_or_eq_of_allocate value has with old | last
  · rw [grown.read old] at mem
    exact grown.has (closed v old c mem)
  · obtain rfl : v = ⟨kind, (s.allocate value).2⟩ := last
    rw [read_allocate_self] at mem
    exact grown.has (h c mem)

theorem Closed.allocate_blank (closed : s.Closed) (kind : Kind) :
    (s.allocate kind.blank).1.Closed :=
  closed.allocate fun c mem => by
    rw [kind.cellsOf_blank] at mem
    cases mem

end Store

end MatrixCalc
