import Mathlib
import MatrixCalc.Workspace

/-!
# Rows of a matrix

Documents and results hold a matrix as a list of rows.  The rows tell the number of columns only if
there is a row: a matrix of no rows and three columns has the same rows as one of no rows and no
columns.

* `Matrix.ofRows_eq_ok_iff` : the matrix that a list of rows gives.
* `Matrix.widthOf_toRows` : the width that the rows of a matrix tell.
* `Matrix.rows_round_trip` : **rows come back from their matrix, and a matrix from its rows unless
  it has columns but no rows**; the head of a report tells what the rows tell.
-/

namespace MatrixCalc

namespace Matrix

variable {m : Matrix} {rows : List (List Float)}

/-- In rows of one length, an entry is found by counting row by row. -/
theorem getElem?_flatten {width : Nat} {rows : List (List Float)}
    (uniform : ∀ row ∈ rows, row.length = width) (i : Nat) {j : Nat} (inside : j < width) :
    rows.flatten[i * width + j]? = rows[i]?.bind (·[j]?) := by
  induction rows generalizing i with
  | nil => simp
  | cons row rows ih =>
    have length := uniform row List.mem_cons_self
    have rest := ih fun row mem => uniform row (List.mem_cons_of_mem _ mem)
    cases i with
    | zero => simp [List.getElem?_append_left (length ▸ inside : j < row.length)]
    | succ i =>
      have beyond : (i + 1) * width + j = row.length + (i * width + j) := by
        rw [length, Nat.add_mul]
        omega
      rw [List.flatten_cons, beyond, List.getElem?_append_right (Nat.le_add_right _ _),
        Nat.add_sub_cancel_left, rest]
      simp

theorem ragged?_eq_none_iff {width : Nat} (i : Nat) :
    ragged? width i rows = none ↔ ∀ row ∈ rows, row.length = width := by
  induction rows generalizing i with
  | nil => exact iff_of_true rfl (List.forall_mem_nil _)
  | cons row rows ih =>
    rw [ragged?, List.forall_mem_cons]
    by_cases fits : row.length = width
    · rw [if_pos fits, ih]
      simp [fits]
    · simp [fits]

theorem length_of_mem_toRows {m : Matrix} {row : List Float} (mem : row ∈ m.toRows) :
    row.length = m.cols := by
  obtain ⟨i, -, rfl⟩ := List.mem_map.1 mem
  simp [Matrix.row]

/-- Rows of one length are those of a matrix. -/
theorem exists_toRows {rows : List (List Float)}
    (uniform : ∀ row ∈ rows, row.length = widthOf rows) :
    ∃ m, ofRows rows = .ok m ∧ m.toRows = rows ∧ m.cols = widthOf rows := by
  have regular := (ragged?_eq_none_iff 0).2 uniform
  have size : rows.flatten.toArray.size = rows.length * widthOf rows :=
    List.size_toArray.trans (flatten_length regular)
  refine ⟨⟨rows.length, widthOf rows, rows.flatten.toArray, size⟩, ?_, ?_, rfl⟩
  · unfold ofRows
    split
    · rename_i defect found
      cases found.symm.trans regular
    · rfl
  · refine List.ext_getElem (by simp [toRows]) fun i _ inside => ?_
    have width := uniform _ (List.getElem_mem inside)
    refine List.ext_getElem (by simp [toRows, row, width]) fun j _ within => ?_
    have column : j < widthOf rows := width ▸ within
    have place := getElem?_flatten uniform i column
    rw [List.getElem?_eq_getElem inside, Option.bind_some, List.getElem?_eq_getElem within] at place
    have entry := (List.getElem?_eq_some_iff.1 place).2
    simp [toRows, row, Matrix.entry, inside, column, entry]

theorem length_toRows (m : Matrix) : m.toRows.length = m.rows := by
  simp [toRows]

/-- A matrix is its rows and its width. -/
theorem eq_of_toRows {a b : Matrix} (same : a.toRows = b.toRows) (width : a.cols = b.cols) :
    a = b := by
  have height : a.rows = b.rows := by
    rw [← length_toRows a, same, length_toRows]
  refine ext_entry height width fun i inside j within => ?_
  rw [toRows, toRows, ← height] at same
  have row : (List.range a.cols).map (a.entry i) = (List.range b.cols).map (b.entry i) :=
    List.map_inj_left.1 same i (List.mem_range.2 inside)
  rw [← width] at row
  exact List.map_inj_left.1 row j (List.mem_range.2 within)

/-- **A list of rows gives the matrix that has these rows and the width of the first.** -/
theorem ofRows_eq_ok_iff : ofRows rows = .ok m ↔ m.toRows = rows ∧ m.cols = widthOf rows := by
  constructor
  · intro h
    have regular : ragged? (widthOf rows) 0 rows = none := by
      unfold ofRows at h
      split at h
      · cases h
      · assumption
    obtain ⟨m', ok, same⟩ := exists_toRows ((ragged?_eq_none_iff 0).1 regular)
    rw [h] at ok
    cases ok
    exact same
  · rintro ⟨rfl, width⟩
    have uniform : ∀ row ∈ m.toRows, row.length = widthOf m.toRows := by
      intro row mem
      rw [length_of_mem_toRows mem, width]
    obtain ⟨m', ok, same, width'⟩ := exists_toRows uniform
    rw [ok, eq_of_toRows same (width'.trans width.symm)]

/-- What the rows of a matrix tell of its width. -/
theorem widthOf_toRows (m : Matrix) : widthOf m.toRows = if m.rows = 0 then 0 else m.cols := by
  have length := length_toRows m
  cases rows : m.toRows with
  | nil =>
    rw [rows, List.length_nil] at length
    rw [if_pos length.symm]
    rfl
  | cons first rest =>
    rw [rows] at length
    rw [if_neg (by rw [← length]; exact Nat.succ_ne_zero _)]
    exact length_of_mem_toRows (rows ▸ List.mem_cons_self)

/-- The rows of a matrix are those of a matrix as wide as they tell. -/
theorem ofRows_toRows (m : Matrix) : ∃ m', ofRows m.toRows = .ok m' ∧ m'.toRows = m.toRows ∧
    m'.cols = widthOf m.toRows := by
  refine exists_toRows fun row mem => ?_
  have rows : m.rows ≠ 0 := by
    intro none
    rw [toRows, none] at mem
    cases mem
  rw [length_of_mem_toRows mem, widthOf_toRows, if_neg rows]

/-- **Rows and matrices convert into each other without loss, except where a matrix has columns but
no rows.**  A list of rows comes back from its matrix.  A matrix comes back from its rows iff it has
a row or no column; otherwise a matrix without rows and columns comes back.  The head of the report
gives the shape of the matrix that comes back. -/
theorem rows_round_trip :
    (∀ rows m, ofRows rows = .ok m ↔ m.toRows = rows ∧ m.cols = widthOf rows) ∧
    ∀ m : Matrix, ∃ back, ofRows m.toRows = .ok back ∧
      back.shape = ⟨m.rows, if m.rows = 0 then 0 else m.cols⟩ ∧
      (back = m ↔ 0 < m.rows ∨ m.cols = 0) ∧
      ∀ name, (Value.report name (.matrix m.toRows)).head? =
        some s!"{name} = [{back.rows}x{back.cols}]" := by
  refine ⟨fun rows m => ofRows_eq_ok_iff, fun m => ?_⟩
  obtain ⟨back, ok, same, width⟩ := ofRows_toRows m
  have height : back.rows = m.rows := by
    rw [← length_toRows back, same, length_toRows]
  rw [widthOf_toRows] at width
  refine ⟨back, ok, ?_, ?_, fun name => ?_⟩
  · rw [shape, height, width]
  · constructor
    · rintro rfl
      by_cases none : back.rows = 0
      · exact .inr (width.trans (if_pos none))
      · exact .inl (Nat.pos_of_ne_zero none)
    · intro told
      refine eq_of_toRows same (width.trans ?_)
      split
      · rename_i none
        exact (told.resolve_left (by rw [none]; exact Nat.lt_irrefl 0)).symm
      · rfl
  · have head : ((m.toRows.head?).map List.length).getD 0 = back.cols := by
      rw [width, ← widthOf_toRows]
      rfl
    simp only [Value.report, List.head?_cons, length_toRows, head, height]

/-- A statement can make a matrix of three columns and no row.  Its rows are those of the matrix
without columns, which is the one that comes back and the one that the report of a run shows. -/
theorem width_lost_without_row : ∃ m back : Matrix,
    (Session.process {} "y = zeros(0, 3)").session.content? .matrix "y" = some m ∧
    m.shape = ⟨0, 3⟩ ∧ ofRows m.toRows = .ok back ∧ back.shape = ⟨0, 0⟩ ∧ back ≠ m ∧
    (Workspace.run { statements := ["y = zeros(0, 3)"] } []).1.toOption.map Results.report =
      some "y = [0x0]\n" := by
  have made : ((Session.process {} "y = zeros(0, 3)").session.content? .matrix "y").map
      Matrix.shape = some ⟨0, 3⟩ := by
    decide +kernel
  obtain ⟨m, read, wide⟩ := Option.map_eq_some_iff.1 made
  have rows : m.toRows = [] := by
    have none : m.rows = 0 := congrArg Shape.rows wide
    rw [toRows, none]
    rfl
  have narrow : ofRows m.toRows = .ok ⟨0, 0, #[], rfl⟩ := by
    rw [rows]
    rfl
  refine ⟨m, _, read, wide, narrow, rfl, ?_, by decide +kernel⟩
  rintro rfl
  cases wide

end Matrix

end MatrixCalc
