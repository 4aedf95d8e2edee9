import MatrixCalc.Error

/-!
# Matrices

A `Matrix` is a rectangle of doubles, stored row by row.  It is read through `Matrix.entry` and
built by `Matrix.ofFn`; the two are inverse to each other.

* `Matrix.entry_ofFn` : an entry of a matrix built from a function.
* `Matrix.ext_entry` : a matrix is its shape and its entries.
* `Matrix.entry_set` : writing one entry leaves the others.
-/

namespace MatrixCalc

/-- A rectangle of doubles. -/
structure Matrix where
  /-- The number of rows. -/
  rows : Nat
  /-- The number of columns. -/
  cols : Nat
  /-- The entries, row by row. -/
  entries : Array Float
  /-- There is one entry for every place. -/
  size_entries : entries.size = rows * cols

namespace Matrix

/-- The place of an entry among all entries. -/
theorem place_lt {rows cols i j : Nat} (hi : i < rows) (hj : j < cols) :
    i * cols + j < rows * cols := by
  have : (i + 1) * cols ≤ rows * cols := Nat.mul_le_mul_right cols hi
  rw [Nat.add_mul] at this
  omega

/-- The number of rows and columns. -/
def shape (m : Matrix) : Shape := ⟨m.rows, m.cols⟩

/-- The number of entries. -/
def size (m : Matrix) : Nat := m.rows * m.cols

/-- The entry in row `i` and column `j`; outside of the matrix all entries are zero. -/
def entry (m : Matrix) (i j : Nat) : Float :=
  if inside : i < m.rows ∧ j < m.cols then
    have : i * m.cols + j < m.entries.size := m.size_entries ▸ place_lt inside.1 inside.2
    m.entries[i * m.cols + j]
  else 0.0

/-- The matrix with the entry `f i j` in row `i` and column `j`. -/
def ofFn (rows cols : Nat) (f : Nat → Nat → Float) : Matrix where
  rows := rows
  cols := cols
  entries := Array.ofFn fun place : Fin (rows * cols) => f (place / cols) (place % cols)
  size_entries := Array.size_ofFn

@[simp] theorem rows_ofFn (rows cols : Nat) (f : Nat → Nat → Float) :
    (ofFn rows cols f).rows = rows := rfl

@[simp] theorem cols_ofFn (rows cols : Nat) (f : Nat → Nat → Float) :
    (ofFn rows cols f).cols = cols := rfl

theorem entry_ofFn {rows cols : Nat} (f : Nat → Nat → Float) {i j : Nat} (hi : i < rows)
    (hj : j < cols) : (ofFn rows cols f).entry i j = f i j := by
  have hc : 0 < cols := by omega
  have place : (i * cols + j) / cols = i := by
    rw [Nat.mul_comm, Nat.mul_add_div hc, Nat.div_eq_of_lt hj, Nat.add_zero]
  have rest : (i * cols + j) % cols = j := by
    rw [Nat.mul_comm, Nat.mul_add_mod, Nat.mod_eq_of_lt hj]
  simp [entry, ofFn, hi, hj, place, rest]

theorem entry_of_not {m : Matrix} {i j : Nat} (h : ¬ (i < m.rows ∧ j < m.cols)) :
    m.entry i j = 0.0 := by
  simp [entry, h]

theorem ext_entry {a b : Matrix} (hr : a.rows = b.rows) (hc : a.cols = b.cols)
    (h : ∀ i < a.rows, ∀ j < a.cols, a.entry i j = b.entry i j) : a = b := by
  obtain ⟨rows, cols, entries, size⟩ := a
  obtain ⟨_, _, entries', size'⟩ := b
  dsimp only at hr hc
  subst hr hc
  have same : entries = entries' := by
    apply Array.ext (size.trans size'.symm)
    intro place bound bound'
    have bound'' : place < rows * cols := size ▸ bound
    have hc : 0 < cols := by
      rcases Nat.eq_zero_or_pos cols with rfl | pos
      · simp at bound''
      · exact pos
    have hi : place / cols < rows := Nat.div_lt_of_lt_mul (by rwa [Nat.mul_comm] at bound'')
    have hj : place % cols < cols := Nat.mod_lt _ hc
    have := h (place / cols) hi (place % cols) hj
    simp only [entry, hi, hj, and_self, dite_true] at this
    simpa only [Nat.div_add_mod'] using this
  subst same
  rfl

/-! ### Views -/

/-- The entries of a row. -/
def row (m : Matrix) (i : Nat) : List Float := (List.range m.cols).map (m.entry i)

/-- The entries of a column. -/
def column (m : Matrix) (j : Nat) : List Float := (List.range m.rows).map (m.entry · j)

/-- The rows, from top to bottom. -/
def toRows (m : Matrix) : List (List Float) := (List.range m.rows).map m.row

/-- The entries, column by column. -/
def columnwise (m : Matrix) : List Float := (List.range m.cols).flatMap m.column

/-- The entry at a place, counted row by row. -/
def flat (m : Matrix) (place : Nat) : Float := m.entry (place / m.cols) (place % m.cols)

/-- The entries on the diagonal. -/
def diagonal (m : Matrix) : List Float := (List.range (min m.rows m.cols)).map fun i => m.entry i i

/-- A row or a column. -/
def isVector (m : Matrix) : Bool := m.rows == 1 || m.cols == 1

/-! ### Building -/

/-- Every entry is `value`. -/
def fill (rows cols : Nat) (value : Float) : Matrix := ofFn rows cols fun _ _ => value

/-- Ones on the diagonal, zeros elsewhere. -/
def identity (rows cols : Nat) : Matrix := ofFn rows cols fun i j => if i = j then 1.0 else 0.0

/-- The matrix without entries. -/
def empty : Matrix := fill 0 0 0.0

/-- Every entry replaced by a function of it. -/
def map (m : Matrix) (f : Float → Float) : Matrix :=
  ofFn m.rows m.cols fun i j => f (m.entry i j)

/-- The entries of two matrices of the first one's shape combined. -/
def zipWith (f : Float → Float → Float) (a b : Matrix) : Matrix :=
  ofFn a.rows a.cols fun i j => f (a.entry i j) (b.entry i j)

/-- Rows and columns exchanged. -/
def transpose (m : Matrix) : Matrix := ofFn m.cols m.rows fun i j => m.entry j i

/-- Two matrices side by side; the height is that of the first. -/
def beside (a b : Matrix) : Matrix :=
  ofFn a.rows (a.cols + b.cols) fun i j =>
    if j < a.cols then a.entry i j else b.entry i (j - a.cols)

/-- One matrix above another; the width is that of the first. -/
def above (a b : Matrix) : Matrix :=
  ofFn (a.rows + b.rows) a.cols fun i j =>
    if i < a.rows then a.entry i j else b.entry (i - a.rows) j

/-- The matrix with one entry overwritten; nothing happens outside of it. -/
def set (m : Matrix) (i j : Nat) (value : Float) : Matrix where
  rows := m.rows
  cols := m.cols
  entries := if i < m.rows ∧ j < m.cols then m.entries.setIfInBounds (i * m.cols + j) value
    else m.entries
  size_entries := by split <;> simp [m.size_entries]

@[simp] theorem rows_set (m : Matrix) (i j : Nat) (value : Float) :
    (m.set i j value).rows = m.rows := rfl

@[simp] theorem cols_set (m : Matrix) (i j : Nat) (value : Float) :
    (m.set i j value).cols = m.cols := rfl

theorem place_inj {cols i j i' j' : Nat} (hj : j < cols) (hj' : j' < cols)
    (h : i * cols + j = i' * cols + j') : i = i' ∧ j = j' := by
  have hc : 0 < cols := by omega
  have div := congrArg (· / cols) h
  have mod := congrArg (· % cols) h
  simp only [Nat.mul_comm _ cols, Nat.mul_add_div hc, Nat.mul_add_mod, Nat.div_eq_of_lt hj,
    Nat.div_eq_of_lt hj', Nat.mod_eq_of_lt hj, Nat.mod_eq_of_lt hj', Nat.add_zero] at div mod
  exact ⟨div, mod⟩

theorem entry_set (m : Matrix) {i j : Nat} (hi : i < m.rows) (hj : j < m.cols) (value : Float)
    (i' j' : Nat) :
    (m.set i j value).entry i' j' = if i' = i ∧ j' = j then value else m.entry i' j' := by
  by_cases inside : i' < m.rows ∧ j' < m.cols
  · have bound : i' * m.cols + j' < m.entries.size := m.size_entries ▸ place_lt inside.1 inside.2
    simp only [entry, set, inside, and_self, dite_true, hi, hj, if_true]
    rw [Array.getElem_setIfInBounds bound]
    by_cases same : i' = i ∧ j' = j
    · simp [same]
    · have : i * m.cols + j ≠ i' * m.cols + j' := fun eq =>
        same ((place_inj hj inside.2 eq).imp Eq.symm Eq.symm)
      simp [this, same]
  · have : ¬ (i' = i ∧ j' = j) := by
      rintro ⟨rfl, rfl⟩
      exact inside ⟨hi, hj⟩
    simp [entry, inside, this]

/-! ### Rows of numbers -/

/-- A row whose length differs from the first row's. -/
structure Ragged where
  /-- The number of the row. -/
  row : Nat
  /-- The length of the row. -/
  found : Nat
  /-- The length of the first row. -/
  expected : Nat
deriving DecidableEq

/-- The defect in words. -/
def Ragged.message (r : Ragged) : String :=
  s!"row {r.row} has {r.found} columns, expected {r.expected}"

/-- The first row that is not of the given width, counted from `i`. -/
def ragged? (width : Nat) (i : Nat) : List (List Float) → Option Ragged
  | [] => none
  | row :: rest =>
    if row.length = width then ragged? width (i + 1) rest else some ⟨i, row.length, width⟩

theorem flatten_length {width i : Nat} {rows : List (List Float)}
    (h : ragged? width i rows = none) : rows.flatten.length = rows.length * width := by
  induction rows generalizing i with
  | nil => simp
  | cons row rest ih =>
    simp only [ragged?] at h
    split at h
    · rename_i fits
      simp [ih h, fits, Nat.add_mul, Nat.add_comm]
    · simp at h

/-- The number of columns of a list of rows: the length of the first. -/
def widthOf (rows : List (List Float)) : Nat := (rows.head?.map List.length).getD 0

/-- The matrix of a list of rows of one length. -/
def ofRows (rows : List (List Float)) : Except Ragged Matrix :=
  match uniform : ragged? (widthOf rows) 0 rows with
  | some defect => .error defect
  | none => .ok ⟨rows.length, widthOf rows, rows.flatten.toArray, by
      rw [List.size_toArray, flatten_length uniform]⟩

end Matrix

end MatrixCalc
