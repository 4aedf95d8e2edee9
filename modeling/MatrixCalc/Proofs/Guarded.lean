import MatrixCalc.Proofs.Brackets.Discipline
import MatrixCalc.Proofs.Framed
import MatrixCalc.Proofs.Rows
import MatrixCalc.Proofs.Submatrix
import MatrixCalc.Proofs.Phases.Sessions

/-!
# Every element that is read or written is there

Reading and writing elements has no check of its own: bounds are checked once, when an address is
resolved, and the elements are counted from that on.  Here every access checks itself, and stops
with a fault where it would leave the matrix or divide by a number of columns that is zero.  None of
these checks ever fails.

* `Matrix.readAt`, `Matrix.writeAt`, `Matrix.placeAt` : accesses that check themselves.
* `Address.extractGuarded_eq`, `Source.insertGuarded_eq` : reading and writing at an address does
  not fault.
* `Term.evalGuarded_eq` : neither does a regular term.
* `Address.select_of_strays` : an address with an index that is out of bounds is an error.
* `Session.accesses_in_range` : **performing a compiled program never leaves a matrix**, and an
  index out of bounds is an error before anything is written.
-/

namespace MatrixCalc

/-! ### Accesses that check themselves -/

/-- What an access must not do. -/
inductive Fault where
  /-- It is outside of the matrix. -/
  | outside (shape : Shape) (row col : Nat)
  /-- It divides by the number of columns, and there are none. -/
  | noColumns
  /-- It makes a block of more or fewer elements than the block has places. -/
  | count (block : Shape) (found : Nat)
deriving DecidableEq

/-- What ends a computation early. -/
inductive Stop where
  /-- An error that is reported. -/
  | failure (e : Error)
  /-- An access that must not happen. -/
  | fault (cause : Fault)

/-- A computation whose accesses check themselves. -/
abbrev Guarded (α : Type) := Except Stop α

namespace Guarded

/-- A computation without accesses. -/
abbrev lift {α : Type} (x : Except Error α) : Guarded α := x.mapError .failure

variable {α β γ : Type}

theorem bind_lift {x : Except Error α} {f : α → Guarded β} {g : α → Except Error β}
    (h : ∀ a, x = .ok a → f a = lift (g a)) : lift x >>= f = lift (x >>= g) := by
  cases x with
  | ok a => exact h a rfl
  | error e => rfl

/-- Accesses that all succeed, one after the other. -/
theorem mapM_eq_ok {f : α → Guarded β} {g : α → β} {xs : List α}
    (h : ∀ x ∈ xs, f x = .ok (g x)) : xs.mapM f = .ok (xs.map g) := by
  rw [mapM_congr h]
  exact List.mapM_pure

theorem flatMap_zipIdx_fst (f : α → List β) (xs : List α) :
    xs.zipIdx.flatMap (fun x => f x.1) = xs.flatMap f := by
  conv_rhs => rw [← List.zipIdx_map_fst 0 xs, List.flatMap_map]

theorem flatMap_zipIdx_snd (f : Nat → List β) (xs : List α) :
    xs.zipIdx.flatMap (fun x => f x.2) = (List.range xs.length).flatMap f := by
  rw [List.range_eq_range', ← List.zipIdx_map_snd, List.flatMap_map]

end Guarded

open Guarded

namespace Matrix

/-- Reads an element, which must be there. -/
def readAt (m : Matrix) (i j : Nat) : Guarded Float :=
  if i < m.rows ∧ j < m.cols then .ok (m.entry i j) else .error (.fault (.outside m.shape i j))

/-- Overwrites an element, which must be there. -/
def writeAt (m : Matrix) (i j : Nat) (value : Float) : Guarded Matrix :=
  if i < m.rows ∧ j < m.cols then .ok (m.set i j value)
  else .error (.fault (.outside m.shape i j))

/-- The place of an element from its number, which is divided by the number of columns. -/
def placeAt (m : Matrix) (k : Nat) : Guarded (Nat × Nat) :=
  if m.cols = 0 then .error (.fault .noColumns) else .ok (k / m.cols, k % m.cols)

/-- Reads the element with a number. -/
def readFlat (m : Matrix) (k : Nat) : Guarded Float := do
  let place ← m.placeAt k
  m.readAt place.1 place.2

/-- Overwrites the element with a number. -/
def writeFlat (m : Matrix) (k : Nat) (value : Float) : Guarded Matrix := do
  let place ← m.placeAt k
  m.writeAt place.1 place.2 value

/-- A block made of its elements, row by row. -/
def ofElements (block : Shape) (elements : List Float) : Guarded Matrix :=
  if size : elements.length = block.rows * block.cols then
    .ok ⟨block.rows, block.cols, elements.toArray, by rw [List.size_toArray, size]⟩
  else .error (.fault (.count block elements.length))

variable {m : Matrix} {i j k : Nat}

theorem readAt_eq (row : i < m.rows) (col : j < m.cols) : m.readAt i j = .ok (m.entry i j) :=
  if_pos ⟨row, col⟩

theorem writeAt_eq (row : i < m.rows) (col : j < m.cols) (value : Float) :
    m.writeAt i j value = .ok (m.set i j value) := if_pos ⟨row, col⟩

/-- The number of an element gives a place inside of the matrix. -/
theorem placeAt_eq (inside : k < m.size) : m.placeAt k = .ok (k / m.cols, k % m.cols) ∧
    k / m.cols < m.rows ∧ k % m.cols < m.cols := by
  have bound : k < m.rows * m.cols := inside
  have some : m.cols ≠ 0 := by
    intro none
    simp [none] at bound
  exact ⟨if_neg some, Nat.div_lt_of_lt_mul (by rwa [Nat.mul_comm] at bound),
    Nat.mod_lt _ (Nat.pos_of_ne_zero some)⟩

theorem readFlat_eq (inside : k < m.size) : m.readFlat k = .ok (m.flat k) := by
  obtain ⟨place, row, col⟩ := placeAt_eq inside
  rw [readFlat, place]
  exact readAt_eq row col

theorem writeFlat_eq (inside : k < m.size) (value : Float) :
    m.writeFlat k value = .ok (m.set (k / m.cols) (k % m.cols) value) := by
  obtain ⟨place, row, col⟩ := placeAt_eq inside
  rw [writeFlat, place]
  exact writeAt_eq row col value

theorem ofElements_eq (m : Matrix) (selection : Selection) :
    ofElements selection.shape (selection.places.map fun place => m.entry place.1 place.2) =
      .ok (m.extract selection) := dif_pos (by rw [List.length_map, selection.length_places])

/-- The elements are listed by their numbers. -/
theorem toList_entries (m : Matrix) : m.entries.toList = (List.range m.size).map m.flat := by
  refine List.ext_getElem? fun k => ?_
  rw [Array.getElem?_toList, getElem?_entries]
  by_cases inside : k < m.size
  · simp [inside]
  · simp [inside]

/-- The elements are listed row by row. -/
theorem toList_entries_rows (m : Matrix) : m.entries.toList =
    (List.range m.rows).flatMap fun i => (List.range m.cols).map (m.entry i) := by
  refine List.ext_getElem? fun k => ?_
  change _ = m.toRows.flatten[k]?
  have uniform : ∀ row ∈ m.toRows, row.length = m.cols := fun row => length_of_mem_toRows
  rw [Array.getElem?_toList, getElem?_entries]
  by_cases inside : k < m.size
  · obtain ⟨-, row, col⟩ := placeAt_eq inside
    have found := getElem?_flatten uniform (k / m.cols) col
    rw [Nat.div_add_mod'] at found
    rw [if_pos inside, found]
    simp [toRows, Matrix.row, row, col, flat]
  · have length : m.toRows.flatten.length = m.size := by
      rw [List.length_flatten, List.map_congr_left uniform, List.map_const', List.sum_replicate,
        length_toRows]
      rfl
    rw [if_neg inside, List.getElem?_eq_none (by omega)]

/-- Steps that each overwrite some places overwrite all of them, if each does so in every matrix of
the shape. -/
theorem foldlM_overwrite {α : Type} {step : Matrix → α → Guarded Matrix}
    {writes : α → List ((Nat × Nat) × Float)} {xs : List α} {m : Matrix}
    (h : ∀ m' : Matrix, m'.shape = m.shape → ∀ x ∈ xs, step m' x = .ok (m'.overwrite (writes x))) :
    xs.foldlM step m = .ok (m.overwrite (xs.flatMap writes)) := by
  induction xs generalizing m with
  | nil => rfl
  | cons x xs ih =>
    rw [List.foldlM_cons, h m rfl x List.mem_cons_self, List.flatMap_cons, overwrite_append]
    refine ih fun m' shape y mem => ?_
    exact h m' (shape.trans (shape_overwrite m _)) y (List.mem_cons_of_mem _ mem)

end Matrix

/-! ### Reading at an address -/

namespace Address

/-- The block at an address, read element by element. -/
def extractGuarded (s : Store) (m : Matrix) : Address → Guarded Matrix
  | flat index => do
    let indices ← lift (index.resolve s .element m.size)
    let elements ← indices.mapM m.readFlat
    Matrix.ofElements ⟨1, indices.length⟩ elements
  | grid rows cols => do
    let rows ← lift (rows.resolve s .row m.rows)
    let cols ← lift (cols.resolve s .column m.cols)
    let elements ← rows.mapM fun i => cols.mapM fun j => m.readAt i j
    Matrix.ofElements ⟨rows.length, cols.length⟩ elements.flatten

variable {α : Type} {s : Store} {shape : Shape}

theorem select_flat_bind (index : Index) (f : Selection → Except Error α) :
    (flat index).select s shape >>= f = index.resolve s .element (shape.rows * shape.cols) >>=
      fun indices => f (flatSelection shape.cols indices) := by
  rw [select]
  cases index.resolve s .element (shape.rows * shape.cols) <;> rfl

theorem select_grid_bind (rows cols : Index) (f : Selection → Except Error α) :
    (grid rows cols).select s shape >>= f = rows.resolve s .row shape.rows >>= fun is =>
      cols.resolve s .column shape.cols >>= fun js => f (gridSelection is js) := by
  rw [select]
  cases rows.resolve s .row shape.rows with
  | error e => rfl
  | ok is => cases cols.resolve s .column shape.cols <;> rfl

/-- **Reading at an address does not fault.** -/
theorem extractGuarded_eq (s : Store) (m : Matrix) (address : Address) :
    address.extractGuarded s m =
      lift (address.select s m.shape >>= fun selection => .ok (m.extract selection)) := by
  cases address with
  | flat index =>
    rw [select_flat_bind]
    refine bind_lift fun indices resolved => ?_
    have read : indices.mapM m.readFlat = .ok (indices.map m.flat) :=
      mapM_eq_ok fun k mem => Matrix.readFlat_eq (lt_of_mem_resolve resolved k mem)
    have made := Matrix.ofElements_eq m (flatSelection m.cols indices)
    rw [flatSelection, List.map_map] at made
    rw [read]
    exact made
  | grid rows cols =>
    rw [select_grid_bind]
    refine bind_lift fun is rowsResolved => bind_lift fun js colsResolved => ?_
    have row : ∀ i ∈ is, (js.mapM fun j => m.readAt i j) = .ok (js.map (m.entry i)) :=
      fun i mem => mapM_eq_ok fun j mem' => Matrix.readAt_eq
        (lt_of_mem_resolve rowsResolved i mem) (lt_of_mem_resolve colsResolved j mem')
    have made := Matrix.ofElements_eq m (gridSelection is js)
    simp only [gridSelection, List.map_flatMap, List.map_map] at made
    rw [List.flatMap_def] at made
    rw [mapM_eq_ok row]
    exact made

/-- An address that means a single place reads a block that has a first element. -/
theorem readAt_extract (single : isSingle address = true) {m : Matrix} {selection : Selection}
    (selected : address.select s m.shape = .ok selection) :
    (m.extract selection).readAt 0 0 = .ok ((m.extract selection).entry 0 0) := by
  have means := select_eq_ok_iff.1 selected
  obtain ⟨place, one⟩ := means.single single
  have size : selection.shape.rows * selection.shape.cols = 1 := by
    rw [← selection.length_places, one, List.length_singleton]
  have rows : (m.extract selection).rows = 1 := Nat.eq_one_of_mul_eq_one_right size
  have cols : (m.extract selection).cols = 1 := Nat.eq_one_of_mul_eq_one_left size
  exact Matrix.readAt_eq (rows.symm ▸ Nat.zero_lt_one) (cols.symm ▸ Nat.zero_lt_one)

/-- The block that an empty list of indices means has none. -/
example : (Matrix.fill 1 0 0.0).readAt 0 0 = .error (.fault (.outside ⟨1, 0⟩ 0 0)) := rfl

end Address

/-! ### Writing at an address -/

namespace Source

/-- Checks that the source fits the selected places. -/
def check (s : Store) (selection : Selection) (address : Address) : Source → Except Error Unit
  | matrix cell => (address.checkFit selection (s.read cell)).mapError .shape
  | scalar _ => .ok ()

/-- The element of the source for place `k` of a list of elements. -/
def readFlat (s : Store) (k : Nat) : Source → Guarded Float
  | matrix cell => (s.read cell).readFlat k
  | scalar operand => .ok (s.readScalar operand)

/-- The element of the source for a place of a block. -/
def readAt (s : Store) (i j : Nat) : Source → Guarded Float
  | matrix cell => (s.read cell).readAt i j
  | scalar operand => .ok (s.readScalar operand)

/-- The entry of the source in row `i` and column `j`. -/
def entry (s : Store) (i j : Nat) : Source → Float
  | matrix cell => (s.read cell).entry i j
  | scalar operand => s.readScalar operand

/-- A matrix with the places of an address overwritten, element by element. -/
def insertGuarded (s : Store) (source : Source) (m : Matrix) : Address → Guarded Matrix
  | .flat index => do
    let indices ← lift (index.resolve s .element m.size)
    lift (source.check s (Address.flatSelection m.cols indices) (.flat index))
    indices.zipIdx.foldlM (fun m write => do
      m.writeFlat write.1 (← source.readFlat s write.2)) m
  | .grid rows cols => do
    let is ← lift (rows.resolve s .row m.rows)
    let js ← lift (cols.resolve s .column m.cols)
    lift (source.check s (Address.gridSelection is js) (.grid rows cols))
    is.zipIdx.foldlM (fun m row => js.zipIdx.foldlM (fun m col => do
      m.writeAt row.1 col.1 (← source.readAt s row.2 col.2)) m) m

variable {s : Store} {source : Source} {address : Address} {block : Shape}

theorem fits_of_check {selection : Selection} (h : source.check s selection address = .ok ()) :
    source.Fits s selection.shape address := by
  cases source with
  | scalar operand => exact trivial
  | matrix cell => exact Fits.iff_checkFit.2 (except_mapError_eq_ok_iff.1 h)

namespace Fits

variable {index rows cols : Index}

/-- A source has an element for each of the elements that it fits. -/
theorem readFlat (h : source.Fits s block (.flat index)) {k : Nat}
    (inside : k < block.rows * block.cols) : source.readFlat s k = .ok (source.value s k) := by
  cases source with
  | scalar operand => rfl
  | matrix cell =>
    have size : (s.read cell).size = block.rows * block.cols := h
    exact Matrix.readFlat_eq (size ▸ inside)

/-- A source has an entry for each place of the block that it fits. -/
theorem readAt (h : source.Fits s block (.grid rows cols)) {i j : Nat} (row : i < block.rows)
    (col : j < block.cols) : source.readAt s i j = .ok (source.entry s i j) := by
  cases source with
  | scalar operand => rfl
  | matrix cell =>
    cases h
    exact Matrix.readAt_eq row col

/-- The elements of a source that fits, by their numbers. -/
theorem values_eq (h : source.Fits s block (.flat index)) :
    source.values s (block.rows * block.cols) =
      (List.range (block.rows * block.cols)).map (source.value s) := by
  cases source with
  | scalar operand => simp [values, value, List.map_const']
  | matrix cell =>
    have size : (s.read cell).size = block.rows * block.cols := h
    rw [values, Matrix.toList_entries, size]
    rfl

/-- The elements of a source that fits, row by row. -/
theorem values_rows (h : source.Fits s block (.grid rows cols)) :
    source.values s (block.rows * block.cols) =
      (List.range block.rows).flatMap fun i => (List.range block.cols).map (source.entry s i) := by
  cases source with
  | scalar operand =>
    simp [values, entry, List.map_const', List.flatMap_def, List.flatten_replicate_replicate]
  | matrix cell =>
    cases h
    exact Matrix.toList_entries_rows _

/-- What is written where, element by element, is what is written at a flat address. -/
theorem writes_flat {indices : List Nat} {width : Nat}
    (h : source.Fits s (Address.flatSelection width indices).shape (.flat index)) :
    (indices.zipIdx.flatMap fun write =>
      [((write.1 / width, write.1 % width), source.value s write.2)]) =
    (Address.flatSelection width indices).places.zip
      (source.values s (Address.flatSelection width indices).places.length) := by
  refine List.zip_of_prod ?_ ?_
  · simp only [List.map_flatMap, List.map_cons, List.map_nil, Address.flatSelection]
    exact (flatMap_zipIdx_fst (fun i => [(i / width, i % width)]) indices).trans
      List.map_eq_flatMap.symm
  · simp only [List.map_flatMap, List.map_cons, List.map_nil]
    rw [Selection.length_places, h.values_eq, List.map_eq_flatMap, Address.flatSelection,
      Nat.one_mul]
    exact flatMap_zipIdx_snd (fun k => [source.value s k]) indices

/-- What is written where, row by row, is what is written at a grid. -/
theorem writes_grid {is js : List Nat}
    (h : source.Fits s (Address.gridSelection is js).shape (.grid rows cols)) :
    (is.zipIdx.flatMap fun row => js.zipIdx.flatMap fun col =>
      [((row.1, col.1), source.entry s row.2 col.2)]) =
    (Address.gridSelection is js).places.zip
      (source.values s (Address.gridSelection is js).places.length) := by
  refine List.zip_of_prod ?_ ?_
  · have row : ∀ i : Nat, js.zipIdx.flatMap (fun col => [(i, col.1)]) = js.map fun j => (i, j) :=
      fun i => (flatMap_zipIdx_fst (fun j => [(i, j)]) js).trans List.map_eq_flatMap.symm
    simp only [List.map_flatMap, List.map_cons, List.map_nil, row]
    exact flatMap_zipIdx_fst (fun i => js.map fun j => (i, j)) is
  · have row : ∀ i : Nat, js.zipIdx.flatMap (fun col => [source.entry s i col.2]) =
        (List.range js.length).map (source.entry s i) := fun i =>
      (flatMap_zipIdx_snd (fun j => [source.entry s i j]) js).trans List.map_eq_flatMap.symm
    simp only [List.map_flatMap, List.map_cons, List.map_nil, row]
    rw [Selection.length_places, h.values_rows]
    exact flatMap_zipIdx_snd (fun i => (List.range js.length).map (source.entry s i)) is

end Fits

theorem insertInto_eq (m : Matrix) : source.insertInto s m address =
    address.select s m.shape >>= fun selection => source.check s selection address >>= fun _ =>
      .ok (m.overwrite (selection.places.zip (source.values s selection.places.length))) := by
  rw [insertInto]
  cases address.select s m.shape with
  | error e => rfl
  | ok selection => cases source <;> rfl

/-- **Writing at an address does not fault.** -/
theorem insertGuarded_eq (s : Store) (source : Source) (m : Matrix) (address : Address) :
    source.insertGuarded s m address = lift (source.insertInto s m address) := by
  rw [insertInto_eq]
  cases address with
  | flat index =>
    rw [Address.select_flat_bind]
    refine bind_lift fun indices resolved => bind_lift fun _ checked => ?_
    have fits := fits_of_check checked
    have step : ∀ m' : Matrix, m'.shape = m.shape → ∀ write ∈ indices.zipIdx,
        (do m'.writeFlat write.1 (← source.readFlat s write.2)) = Except.ok (m'.overwrite
          [((write.1 / m.cols, write.1 % m.cols), source.value s write.2)]) := by
      intro m' shape write mem
      have cols : m'.cols = m.cols := congrArg Shape.cols shape
      have size : m'.size = m.size := congrArg (fun shape => shape.rows * shape.cols) shape
      have inside : write.1 < m'.size :=
        size ▸ Address.lt_of_mem_resolve resolved _ (List.fst_mem_of_mem_zipIdx mem)
      have bound : write.2 < 1 * indices.length :=
        (Nat.one_mul _).symm ▸ List.snd_lt_of_mem_zipIdx mem
      rw [fits.readFlat bound, ← cols]
      exact Matrix.writeFlat_eq inside _
    rw [Matrix.foldlM_overwrite step, fits.writes_flat]
    rfl
  | grid rows cols =>
    rw [Address.select_grid_bind]
    refine bind_lift fun is rowsResolved => bind_lift fun js colsResolved =>
      bind_lift fun _ checked => ?_
    have fits := fits_of_check checked
    have step : ∀ m' : Matrix, m'.shape = m.shape → ∀ row ∈ is.zipIdx,
        (js.zipIdx.foldlM (fun m col => do
          m.writeAt row.1 col.1 (← source.readAt s row.2 col.2)) m') = Except.ok (m'.overwrite
          (js.zipIdx.flatMap fun col => [((row.1, col.1), source.entry s row.2 col.2)])) := by
      intro m' shape row mem
      refine Matrix.foldlM_overwrite fun m'' shape' col mem' => ?_
      have rows : m''.rows = m.rows := congrArg Shape.rows (shape'.trans shape)
      have cols : m''.cols = m.cols := congrArg Shape.cols (shape'.trans shape)
      have inside : row.1 < m''.rows ∧ col.1 < m''.cols :=
        ⟨rows ▸ Address.lt_of_mem_resolve rowsResolved _ (List.fst_mem_of_mem_zipIdx mem),
          cols ▸ Address.lt_of_mem_resolve colsResolved _ (List.fst_mem_of_mem_zipIdx mem')⟩
      rw [fits.readAt (List.snd_lt_of_mem_zipIdx mem) (List.snd_lt_of_mem_zipIdx mem')]
      exact Matrix.writeAt_eq inside.1 inside.2 _
    rw [Matrix.foldlM_overwrite step, fits.writes_grid]
    rfl

end Source

/-! ### Terms and programs -/

/-- The value of a term, whose accesses to elements check themselves. -/
def Term.evalGuarded (s : Store) : {kind : Kind} → Term kind → Guarded kind.Content
  | _, element m address => do
    let block ← address.extractGuarded s (s.read m)
    block.readAt 0 0
  | _, submatrix m address => address.extractGuarded s (s.read m)
  | _, inserted m source address => source.insertGuarded s (s.read m) address
  | _, t => lift (t.eval s)

/-- **A regular term does not fault.** -/
theorem Term.evalGuarded_eq (s : Store) {kind : Kind} {t : Term kind} (regular : t.Regular) :
    t.evalGuarded s = lift (t.eval s) := by
  cases t with
  | element m address =>
    rw [evalGuarded, Address.extractGuarded_eq, eval]
    cases selected : address.select s (s.read m).shape with
    | error e => rfl
    | ok selection => exact Address.readAt_extract regular.2 selected
  | submatrix m address =>
    rw [evalGuarded, Address.extractGuarded_eq, eval]
    cases address.select s (s.read m).shape <;> rfl
  | inserted m source address => exact source.insertGuarded_eq s _ address
  | _ => rfl

/-- The store after an operation, whose accesses to elements check themselves. -/
def Operation.performGuarded (op : Operation) (s : Store) : Guarded Store :=
  (op.term.evalGuarded s).map (s.write op.target)

/-- Performs a program, whose accesses to elements check themselves: a fault ends all, an error ends
the program and is reported. -/
def Program.performGuarded : Program → Store → Except Fault (Store × Option Error)
  | [], s => .ok (s, none)
  | op :: program, s =>
    match op.performGuarded s with
    | .ok s => performGuarded program s
    | .error (.failure e) => .ok (s, some e)
    | .error (.fault cause) => .error cause

theorem Operation.performGuarded_eq (s : Store) {op : Operation} (regular : op.term.Regular) :
    op.performGuarded s = lift (op.perform s) := by
  rw [performGuarded, perform, Term.evalGuarded_eq s regular]
  cases op.term.eval s <;> rfl

/-- **A program of regular terms does not fault.** -/
theorem Program.performGuarded_eq {program : Program}
    (regular : ∀ op ∈ program, op.term.Regular) (s : Store) :
    program.performGuarded s = .ok (program.perform s) := by
  induction program generalizing s with
  | nil => rfl
  | cons op program ih =>
    obtain ⟨first, rest⟩ := List.forall_mem_cons.1 regular
    rw [performGuarded, perform, Operation.performGuarded_eq s first]
    cases op.perform s with
    | ok s' => exact ih rest s'
    | error e => rfl

/-! ### Indices out of bounds -/

/-- An index of the address is negative or too large. -/
inductive Address.Strays (s : Store) (shape : Shape) : Address → Prop
  | element {index : Index} {l : List Int64} {i : Int64}
      (elements : index.values s (shape.rows * shape.cols) = .ok l) (mem : i ∈ l)
      (outside : ¬ InBounds (shape.rows * shape.cols) i) : Strays s shape (flat index)
  | row {rows cols : Index} {l : List Int64} {i : Int64}
      (elements : rows.values s shape.rows = .ok l) (mem : i ∈ l)
      (outside : ¬ InBounds shape.rows i) : Strays s shape (grid rows cols)
  | column {rows cols : Index} {l : List Int64} {j : Int64}
      (elements : cols.values s shape.cols = .ok l) (mem : j ∈ l)
      (outside : ¬ InBounds shape.cols j) : Strays s shape (grid rows cols)

/-- **An address with an index out of bounds is an error.** -/
theorem Address.select_of_strays {s : Store} {shape : Shape} {address : Address}
    (h : address.Strays s shape) : ∃ e, address.select s shape = .error e := by
  cases selected : address.select s shape with
  | error e => exact ⟨e, rfl⟩
  | ok selection =>
    have means := select_eq_ok_iff.1 selected
    generalize selection.shape = block, selection.places = places at means
    exfalso
    cases h with
    | element elements mem outside =>
      cases means with
      | flat elements' inside =>
        cases elements.symm.trans elements'
        exact outside (inside _ mem)
    | row elements mem outside =>
      cases means with
      | grid elements' inside =>
        cases elements.symm.trans elements'
        exact outside (inside _ mem)
    | column elements mem outside =>
      cases means with
      | grid _ _ elements' inside =>
        cases elements.symm.trans elements'
        exact outside (inside _ mem)

/-- The matrix and the address where a term reads or writes elements. -/
def Term.access? : {kind : Kind} → Term kind → Option (Cell .matrix × Address)
  | _, element m address => some (m, address)
  | _, submatrix m address => some (m, address)
  | _, inserted m _ address => some (m, address)
  | _, _ => none

theorem Operation.perform_of_strays {op : Operation} {s : Store} {m : Cell .matrix}
    {address : Address} (accesses : op.term.access? = some (m, address))
    (strays : address.Strays s (s.read m).shape) : ∃ e, op.perform s = .error e := by
  obtain ⟨e, failed⟩ := Address.select_of_strays strays
  refine ⟨e, perform_eq_error_iff.2 ?_⟩
  obtain ⟨name, target, term⟩ := op
  cases term with
  | element | submatrix =>
    cases accesses
    rw [Term.eval, failed]
    rfl
  | inserted =>
    cases accesses
    rw [Term.eval, Source.insertInto, failed]
    rfl
  | _ => cases accesses

/-- A failing operation ends its program without writing. -/
theorem Program.perform_of_error {before after : Program} {op : Operation} {s : Store} {e : Error}
    (reached : (before.perform s).2 = none) (failed : op.perform (before.perform s).1 = .error e) :
    perform (before ++ op :: after) s = ((before.perform s).1, some e) := by
  rw [perform_append]
  cases run : before.perform s with
  | mk s' stop =>
    rw [run] at reached failed
    cases reached
    change perform (op :: after) s' = _
    rw [perform_cons, failed]

/-- **Every element that a compiled program reads or writes is there.**  Whatever the store holds,
performing a compiled program never leaves a matrix, never divides by a number of columns that is
zero, and never takes the first element of a block that has none: with all accesses checking
themselves it does just the same.  An address with an index that is negative or too large makes its
operation fail, and nothing is written from then on. -/
theorem Session.accesses_in_range {s : Session} {source : String} {program : Program}
    (ok : (s.compile source).result = .ok program) (store : Store) :
    program.performGuarded store = .ok (program.perform store) ∧
    ∀ (before : Program) op (after : Program) m address, program = before ++ op :: after →
      (before.perform store).2 = none → op.term.access? = some (m, address) →
      address.Strays (before.perform store).1 ((before.perform store).1.read m).shape →
      ∃ e, op.perform (before.perform store).1 = .error e ∧
        program.perform store = ((before.perform store).1, some e) := by
  refine ⟨Program.performGuarded_eq (regular_of_compile ok) store, ?_⟩
  rintro before op after m address rfl reached accesses strays
  obtain ⟨e, failed⟩ := Operation.perform_of_strays accesses strays
  exact ⟨e, failed, Program.perform_of_error reached failed⟩

/-- An element is read, but the index to write it to is negative. -/
theorem Session.accesses_in_range_of_negative :
    let a : Matrix := .ofFn 2 2 fun i j => (2 * i + j).toFloat
    let s : Session :=
      { store := { matrices := #[a], integers := #[-1] }
        scope := ⟨[("a", ⟨.matrix, ⟨0⟩⟩), ("n", ⟨.integer, ⟨0⟩⟩)]⟩ }
    let store := (s.compile "a(n) = a(1, 0)").session.store
    ∃ read write, (s.compile "a(n) = a(1, 0)").result = .ok [read, write] ∧
      Program.names [read, write] = ["extractScalar", "copyR"] ∧
      Program.performGuarded [read, write] store = .ok (Program.perform [read, write] store) ∧
      ∃ e, write.perform (Program.perform [read] store).1 = .error e ∧
        Program.perform [read, write] store = ((Program.perform [read] store).1, some e) := by
  intro a s store
  have names : (s.compile "a(n) = a(1, 0)").result.toOption.map Program.names =
      some ["extractScalar", "copyR"] := by decide +kernel
  have accesses : (s.compile "a(n) = a(1, 0)").result.toOption.map
      (List.map fun op => op.term.access?) = some [some (⟨0⟩, .grid (.single ⟨1⟩) (.single ⟨2⟩)),
        some (⟨0⟩, .flat (.single ⟨0⟩))] := by decide +kernel
  have runs : (s.compile "a(n) = a(1, 0)").result.toOption.map (fun program =>
      ((Program.perform (program.take 1) store).2.isNone,
        (Program.perform (program.take 1) store).1.read (⟨0⟩ : Cell .integer))) =
      some (true, -1) := by decide +kernel
  cases ok : (s.compile "a(n) = a(1, 0)").result with
  | error e =>
    rw [ok] at names
    cases names
  | ok program =>
    rw [ok] at names accesses runs
    have names := Option.some.inj names
    obtain ⟨read, write, rfl⟩ : ∃ read write, program = [read, write] :=
      List.length_eq_two.1 (by simpa [Program.names] using congrArg List.length names)
    obtain ⟨reached, negative⟩ := Prod.mk.inj (Option.some.inj runs)
    have access : write.term.access? = some (⟨0⟩, .flat (.single ⟨0⟩)) :=
      (List.cons.inj (List.cons.inj (Option.some.inj accesses)).2).1
    obtain ⟨safe, strays⟩ := accesses_in_range ok store
    exact ⟨read, write, rfl, names, safe, strays [read] write [] _ _ rfl
      (Option.isNone_iff_eq_none.1 reached) access (.element
        (congrArg (fun i => Except.ok [i]) negative) List.mem_cons_self (by simp [InBounds]))⟩

end MatrixCalc
