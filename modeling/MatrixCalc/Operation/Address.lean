import MatrixCalc.Store

/-!
# Addresses

An `Address` names places of a matrix: one index list counts all elements row by row, two index
lists name rows and columns.  Resolved against a shape it becomes a `Selection`, the list of the
places meant; reading and writing a submatrix go through it.

* `Address.lt_of_mem_resolve` : a resolved index is in bounds.
* `Address.mem_select` : every selected place lies inside of the matrix.
-/

namespace MatrixCalc

/-- One addressed dimension. -/
inductive Index where
  /-- A single index. -/
  | single (cell : Cell .integer)
  /-- The indices of a sequence. -/
  | sequence (cell : Cell .sequence)
deriving DecidableEq

/-- The index is a single one. -/
def Index.isSingle : Index → Bool
  | single _ => true
  | sequence _ => false

/-- The places of a matrix that a statement reads or writes. -/
inductive Address where
  /-- Elements, counted row by row. -/
  | flat (index : Index)
  /-- Rows and columns. -/
  | grid (rows cols : Index)
deriving DecidableEq

/-- A list of places of a matrix, row by row of the submatrix that they form. -/
structure Selection where
  /-- The shape of the submatrix. -/
  shape : Shape
  /-- The places, as pairs of a row and a column. -/
  places : List (Nat × Nat)
  /-- There is one place for every entry of the submatrix. -/
  length_places : places.length = shape.rows * shape.cols

namespace Index

/-- Checks an index against the size of what it addresses. -/
def check (axis : Axis) (size : Nat) (i : Int64) : Except Error Nat :=
  if i < 0 ∨ size ≤ i.toInt.toNat then .error (.shape (.outOfBounds axis i size))
  else .ok i.toInt.toNat

/-- The indices meant, all of them in bounds; the first that is not is an error. -/
def resolve (s : Store) (axis : Axis) (size : Nat) : Index → Except Error (List Nat)
  | single cell => (check axis size (s.read cell)).map ([·])
  | sequence cell =>
    match s.runs (s.read cell) size with
    | .error cause => .error (.numeric cause)
    | .ok runs => Runs.collect (check axis size) runs

end Index

namespace Address

/-- The address means a single place, whatever its cells hold. -/
def isSingle : Address → Bool
  | flat index => index.isSingle
  | grid rows cols => rows.isSingle && cols.isSingle

/-- The places of the elements with the given numbers, in a matrix with `cols` columns. -/
def flatSelection (cols : Nat) (indices : List Nat) : Selection where
  shape := ⟨1, indices.length⟩
  places := indices.map fun i => (i / cols, i % cols)
  length_places := by simp

/-- The places where the given rows and columns cross. -/
def gridSelection (rows cols : List Nat) : Selection where
  shape := ⟨rows.length, cols.length⟩
  places := rows.flatMap fun i => cols.map fun j => (i, j)
  length_places := by simp [List.length_flatMap, List.map_const']

/-- The places meant in a matrix of the given shape. -/
def select (s : Store) (shape : Shape) : Address → Except Error Selection
  | flat index =>
    (index.resolve s .element (shape.rows * shape.cols)).map (flatSelection shape.cols)
  | grid rows cols => do
    let rows ← rows.resolve s .row shape.rows
    let cols ← cols.resolve s .column shape.cols
    return gridSelection rows cols

/-! ### Bounds -/

theorem lt_of_check {axis : Axis} {size i : Nat} {n : Int64}
    (h : Index.check axis size n = .ok i) : i < size := by
  unfold Index.check at h
  split at h
  · simp at h
  · simp only [Except.ok.injEq] at h
    omega

theorem mem_collectOnto {ε β : Type} {f : Int64 → Except ε β} {p : β → Prop}
    (hf : ∀ i b, f i = .ok b → p b) {done : List β} (hdone : ∀ b ∈ done, p b) {runs : List Run}
    {answers : List β} (h : Runs.collectOnto f done runs = .ok answers) : ∀ b ∈ answers, p b := by
  fun_induction Runs.collectOnto f done runs with
  | case1 done runs _ =>
    simp only [Except.ok.injEq] at h
    subst h
    simpa using hdone
  | case2 done runs i rest _ answer hi ih =>
    refine ih (fun b mem => ?_) h
    rcases List.mem_cons.1 mem with rfl | mem
    · exact hf _ _ hi
    · exact hdone _ mem
  | case3 => simp at h

theorem lt_of_mem_resolve {s : Store} {axis : Axis} {size : Nat} {index : Index}
    {indices : List Nat} (h : index.resolve s axis size = .ok indices) :
    ∀ i ∈ indices, i < size := by
  cases index with
  | single cell =>
    simp only [Index.resolve] at h
    cases hc : Index.check axis size (s.read cell) with
    | error e => simp [hc, Except.map] at h
    | ok i =>
      simp only [hc, Except.map, Except.ok.injEq] at h
      subst h
      simpa using lt_of_check hc
  | sequence cell =>
    simp only [Index.resolve] at h
    split at h
    · simp at h
    · exact mem_collectOnto (fun i b hi => lt_of_check hi) (by simp) h

theorem mem_select {s : Store} {shape : Shape} {address : Address} {selection : Selection}
    (h : address.select s shape = .ok selection) :
    ∀ place ∈ selection.places, place.1 < shape.rows ∧ place.2 < shape.cols := by
  cases address with
  | flat index =>
    simp only [select] at h
    cases hr : index.resolve s .element (shape.rows * shape.cols) with
    | error e => simp [hr, Except.map] at h
    | ok indices =>
      simp only [hr, Except.map, Except.ok.injEq] at h
      subst h
      intro place mem
      simp only [flatSelection, List.mem_map] at mem
      obtain ⟨i, mem, rfl⟩ := mem
      have bound := lt_of_mem_resolve hr i mem
      have pos : 0 < shape.cols := by
        rcases Nat.eq_zero_or_pos shape.cols with zero | pos
        · simp [zero] at bound
        · exact pos
      exact ⟨Nat.div_lt_of_lt_mul (by rwa [Nat.mul_comm] at bound), Nat.mod_lt _ pos⟩
  | grid rows cols =>
    simp only [select, bind, Except.bind, pure, Except.pure] at h
    cases hr : rows.resolve s .row shape.rows with
    | error e => simp [hr] at h
    | ok rows' =>
      cases hc : cols.resolve s .column shape.cols with
      | error e => simp [hr, hc] at h
      | ok cols' =>
        simp only [hr, hc, Except.ok.injEq] at h
        subst h
        intro place mem
        simp only [gridSelection, List.mem_flatMap, List.mem_map] at mem
        obtain ⟨i, hi, j, hj, rfl⟩ := mem
        exact ⟨lt_of_mem_resolve hr i hi, lt_of_mem_resolve hc j hj⟩

end Address

/-! ### Reading and writing a submatrix -/

namespace Matrix

/-- The submatrix of the selected places. -/
def extract (m : Matrix) (selection : Selection) : Matrix where
  rows := selection.shape.rows
  cols := selection.shape.cols
  entries := (selection.places.map fun place => m.entry place.1 place.2).toArray
  size_entries := by simp [selection.length_places]

/-- The matrix with the selected places overwritten, in order. -/
def insert (m : Matrix) (selection : Selection) (values : List Float) : Matrix :=
  (selection.places.zip values).foldl
    (fun m write => m.set write.1.1 write.1.2 write.2) m

end Matrix

/-- Checks that a matrix fits the selected places: any shape fits elements, rows and columns take
exactly theirs. -/
def Address.checkFit (selection : Selection) (source : Matrix) :
    Address → Except ShapeMismatch Unit
  | flat _ =>
    if source.size = selection.places.length then .ok ()
    else .error (.insertCount source.size selection.places.length)
  | grid _ _ =>
    if source.shape = selection.shape then .ok ()
    else .error (.insertShape source.shape selection.shape)

end MatrixCalc
