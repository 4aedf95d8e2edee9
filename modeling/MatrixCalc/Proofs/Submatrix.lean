import MatrixCalc.Proofs.Enumeration

/-!
# Writing and reading submatrices

An insertion overwrites the places that an address means, one by one in the order in which the
address lists them, with the elements of its source row by row.

* `Address.Means` : the places that an address means in a matrix of a given shape.
* `Matrix.entry_insert_of_last`, `Matrix.entry_insert_of_notMem` : the last element written to a
  place stays, and nothing else changes.
* `Operation.insertion_succeeds_iff` : an insertion succeeds iff its address means places and its
  source fits them.
* `Operation.insertion_round_trips` : **what an insertion leaves, and what reading at its address
  returns then**.
-/

namespace MatrixCalc

/-! ### Places -/

/-- The integers that an index means, given the size of what it addresses. -/
def Index.values (s : Store) (size : Nat) : Index → Except NumericFailure (List Int64)
  | single cell => .ok [s.read cell]
  | sequence cell => (s.read cell).indices s.read size

/-- The integer counts something of the given size. -/
def InBounds (size : Nat) (i : Int64) : Prop := 0 ≤ i.toInt ∧ i.toInt < size

/-- The address means these places of a matrix of the given shape, which form a block: elements
form one row, rows and columns form the rectangle of their crossings, row by row. -/
inductive Address.Means (s : Store) (shape : Shape) : Address → Shape → List (Nat × Nat) → Prop
  | flat {index : Index} {l : List Int64}
      (elements : index.values s (shape.rows * shape.cols) = .ok l)
      (inside : ∀ i ∈ l, InBounds (shape.rows * shape.cols) i) :
      Means s shape (flat index) ⟨1, l.length⟩
        (l.map fun i => (i.toInt.toNat / shape.cols, i.toInt.toNat % shape.cols))
  | grid {rows cols : Index} {is js : List Int64}
      (rowList : rows.values s shape.rows = .ok is) (rowsInside : ∀ i ∈ is, InBounds shape.rows i)
      (colList : cols.values s shape.cols = .ok js)
      (colsInside : ∀ j ∈ js, InBounds shape.cols j) :
      Means s shape (grid rows cols) ⟨is.length, js.length⟩
        (is.flatMap fun i => js.map fun j => (i.toInt.toNat, j.toInt.toNat))

namespace Index

theorem check_eq_ok_iff {axis : Axis} {size i : Nat} {n : Int64} :
    check axis size n = .ok i ↔ InBounds size n ∧ i = n.toInt.toNat := by
  have negative : n < 0 ↔ n.toInt < 0 := Int64.lt_iff_toInt_lt
  simp only [check, InBounds, negative]
  split
  · simp only [false_iff, not_and, reduceCtorEq]
    omega
  · simp only [Except.ok.injEq, eq_comm (a := i), iff_and_self]
    omega

theorem mapM_check_eq_ok_iff {axis : Axis} {size : Nat} {l : List Int64} {found : List Nat} :
    l.mapM (check axis size) = .ok found ↔
      (∀ i ∈ l, InBounds size i) ∧ found = l.map fun i => i.toInt.toNat := by
  induction l generalizing found with
  | nil => simp [pure, Except.pure, eq_comm]
  | cons n l ih =>
    simp only [List.mapM_cons, except_bind_eq_ok_iff, except_pure_eq_ok_iff, check_eq_ok_iff, ih,
      List.forall_mem_cons, List.map_cons]
    constructor
    · rintro ⟨_, ⟨first, rfl⟩, _, ⟨rest, rfl⟩, rfl⟩
      exact ⟨⟨first, rest⟩, rfl⟩
    · rintro ⟨⟨first, rest⟩, rfl⟩
      exact ⟨_, ⟨first, rfl⟩, _, ⟨rest, rfl⟩, rfl⟩

/-- An index is resolved iff it means integers, all in bounds. -/
theorem resolve_eq_ok_iff {s : Store} {axis : Axis} {size : Nat} {index : Index}
    {found : List Nat} : index.resolve s axis size = .ok found ↔
      ∃ l, index.values s size = .ok l ∧ (∀ i ∈ l, InBounds size i) ∧
        found = l.map fun i => i.toInt.toNat := by
  cases index with
  | single cell =>
    have one :
        (check axis size (s.read cell)).map ([·]) = [s.read cell].mapM (check axis size) := by
      rw [List.mapM_cons, List.mapM_nil]
      cases check axis size (s.read cell) <;> rfl
    simp only [resolve, one, mapM_check_eq_ok_iff, values, Except.ok.injEq, exists_eq_left']
  | sequence cell =>
    simp only [resolve, values, IndexSequence.indices, Store.runs]
    cases (s.read cell).runs s.read size with
    | error cause => simp [Except.map]
    | ok runs =>
      simp only [Runs.collect_eq, mapM_check_eq_ok_iff, Except.map, Except.ok.injEq,
        exists_eq_left']

end Index

namespace Address

theorem select_flat_eq_ok_iff {s : Store} {shape : Shape} {index : Index}
    {selection : Selection} : (flat index).select s shape = .ok selection ↔
      ∃ found, index.resolve s .element (shape.rows * shape.cols) = .ok found ∧
        selection = flatSelection shape.cols found := by
  rw [select]
  cases index.resolve s .element (shape.rows * shape.cols) <;> simp [Except.map, eq_comm]

/-- An address selects the places that it means. -/
theorem select_eq_ok_iff {s : Store} {shape : Shape} {address : Address} {selection : Selection} :
    address.select s shape = .ok selection ↔
      address.Means s shape selection.shape selection.places := by
  cases address with
  | flat index =>
    simp only [select_flat_eq_ok_iff, Index.resolve_eq_ok_iff]
    constructor
    · rintro ⟨_, ⟨l, elements, inside, rfl⟩, rfl⟩
      simpa [flatSelection, Function.comp_def] using Means.flat elements inside
    · obtain ⟨block, places, length⟩ := selection
      rintro ⟨elements, inside⟩
      exact ⟨_, ⟨_, elements, inside, rfl⟩, by simp [flatSelection, Function.comp_def]⟩
  | grid rows cols =>
    simp only [select, except_bind_eq_ok_iff, except_pure_eq_ok_iff, Index.resolve_eq_ok_iff]
    constructor
    · rintro ⟨_, ⟨is, rowList, rowsInside, rfl⟩, _, ⟨js, colList, colsInside, rfl⟩, rfl⟩
      simpa [gridSelection, Function.comp_def, List.flatMap_map] using
        Means.grid rowList rowsInside colList colsInside
    · obtain ⟨block, places, length⟩ := selection
      rintro (_ | ⟨rowList, rowsInside, colList, colsInside⟩)
      exact ⟨_, ⟨_, rowList, rowsInside, rfl⟩, _, ⟨_, colList, colsInside, rfl⟩,
        by simp [gridSelection, Function.comp_def, List.flatMap_def]⟩

theorem Means.inside {s : Store} {shape block : Shape} {address : Address}
    {places : List (Nat × Nat)} (h : address.Means s shape block places) :
    places.length = block.rows * block.cols ∧
      ∀ place ∈ places, place.1 < shape.rows ∧ place.2 < shape.cols := by
  have length : places.length = block.rows * block.cols := by
    cases h <;> simp [List.length_flatMap, List.map_const']
  have selected : address.select s shape = .ok ⟨block, places, length⟩ := select_eq_ok_iff.2 h
  exact ⟨length, mem_select selected⟩

end Address

/-! ### Writing one place after another -/

namespace Matrix

/-- The matrix with one place after another overwritten. -/
def overwrite (m : Matrix) (writes : List ((Nat × Nat) × Float)) : Matrix :=
  writes.foldl (fun m write => m.set write.1.1 write.1.2 write.2) m

variable {m : Matrix} {writes : List ((Nat × Nat) × Float)}

/-- The writes stay inside of the matrix. -/
def Inside (m : Matrix) (places : List (Nat × Nat)) : Prop :=
  ∀ place ∈ places, place.1 < m.rows ∧ place.2 < m.cols

theorem shape_overwrite (m : Matrix) (writes : List ((Nat × Nat) × Float)) :
    (m.overwrite writes).shape = m.shape := by
  induction writes generalizing m with
  | nil => rfl
  | cons write writes ih => exact ih (m.set write.1.1 write.1.2 write.2)

theorem rows_overwrite (m : Matrix) (writes : List ((Nat × Nat) × Float)) :
    (m.overwrite writes).rows = m.rows := congrArg Shape.rows (shape_overwrite m writes)

theorem cols_overwrite (m : Matrix) (writes : List ((Nat × Nat) × Float)) :
    (m.overwrite writes).cols = m.cols := congrArg Shape.cols (shape_overwrite m writes)

theorem overwrite_append (m : Matrix) (first second : List ((Nat × Nat) × Float)) :
    m.overwrite (first ++ second) = (m.overwrite first).overwrite second := List.foldl_append

/-- A place that is not written keeps its entry. -/
theorem entry_overwrite_of_notMem (inside : m.Inside (writes.map Prod.fst)) {place : Nat × Nat}
    (h : place ∉ writes.map Prod.fst) :
    (m.overwrite writes).entry place.1 place.2 = m.entry place.1 place.2 := by
  induction writes generalizing m with
  | nil => rfl
  | cons write writes ih =>
    obtain ⟨other, rest⟩ := not_or.1 (mt List.mem_cons.2 h)
    obtain ⟨here, later⟩ := List.forall_mem_cons.1 inside
    have step := entry_set m here.1 here.2 write.2 place.1 place.2
    rw [if_neg fun same => other (Prod.ext same.1 same.2)] at step
    exact (ih (m := m.set write.1.1 write.1.2 write.2) later rest).trans step

/-- The last value written to a place is its entry. -/
theorem entry_overwrite_of_last {before after : List ((Nat × Nat) × Float)} {place : Nat × Nat}
    {value : Float} (inside : m.Inside ((before ++ (place, value) :: after).map Prod.fst))
    (last : place ∉ after.map Prod.fst) :
    (m.overwrite (before ++ (place, value) :: after)).entry place.1 place.2 = value := by
  rw [List.map_append, List.map_cons] at inside
  have written := (inside place (by simp))
  rw [overwrite_append]
  change (((m.overwrite before).set place.1 place.2 value).overwrite after).entry _ _ = value
  rw [entry_overwrite_of_notMem ?_ last, entry_set, if_pos ⟨rfl, rfl⟩]
  · rw [rows_overwrite]
    exact written.1
  · rw [cols_overwrite]
    exact written.2
  · intro other mem
    rw [rows_set, cols_set, rows_overwrite, cols_overwrite]
    exact inside other (by simp [mem])

theorem insert_eq (m : Matrix) (selection : Selection) (values : List Float) :
    m.insert selection values = m.overwrite (selection.places.zip values) := rfl

/-- The entries stand row by row. -/
theorem getElem?_entries (m : Matrix) (k : Nat) :
    m.entries[k]? = if k < m.size then some (m.flat k) else none := by
  have length := m.size_entries
  by_cases inside : k < m.size
  · have bound : k < m.rows * m.cols := inside
    have pos : 0 < m.cols := Nat.pos_of_ne_zero fun zero => by simp [zero] at bound
    have row : k / m.cols < m.rows := Nat.div_lt_of_lt_mul (by rwa [Nat.mul_comm] at bound)
    have col : k % m.cols < m.cols := Nat.mod_lt _ pos
    rw [if_pos inside, Array.getElem?_eq_getElem (by omega), flat, entry, dif_pos ⟨row, col⟩]
    simp only [Nat.div_add_mod']
  · have outside : ¬ k < m.rows * m.cols := inside
    rw [if_neg inside, Array.getElem?_eq_none (by omega)]

theorem flat_place (m : Matrix) {i j : Nat} (inside : j < m.cols) :
    m.flat (i * m.cols + j) = m.entry i j := by
  have pos : 0 < m.cols := by omega
  rw [flat, Nat.mul_comm, Nat.mul_add_div pos, Nat.mul_add_mod, Nat.div_eq_of_lt inside,
    Nat.mod_eq_of_lt inside, Nat.add_zero]

/-- A matrix is its shape and its elements row by row. -/
theorem ext_flat {a b : Matrix} (shape : a.shape = b.shape)
    (same : ∀ k < a.size, a.flat k = b.flat k) : a = b := by
  have rows : a.rows = b.rows := congrArg Shape.rows shape
  have cols : a.cols = b.cols := congrArg Shape.cols shape
  refine ext_entry rows cols fun i hi j hj => ?_
  rw [← flat_place a hj, same _ (place_lt hi hj), cols, flat_place b (cols ▸ hj)]

end Matrix

/-! ### Sources -/

namespace Source

/-- The source fits a block of an address: a number fits every block, as many elements fit
elements, and the same shape fits rows and columns. -/
def Fits (s : Store) (block : Shape) : Source → Address → Prop
  | scalar _, _ => True
  | matrix cell, .flat _ => (s.read cell).size = block.rows * block.cols
  | matrix cell, .grid _ _ => (s.read cell).shape = block

/-- Element `k` of the source, counted row by row. -/
def value (s : Store) (k : Nat) : Source → Float
  | scalar operand => s.readScalar operand
  | matrix cell => (s.read cell).flat k

/-- The elements that are written to `n` places. -/
def values (s : Store) (n : Nat) : Source → List Float
  | scalar operand => List.replicate n (s.readScalar operand)
  | matrix cell => (s.read cell).entries.toList

variable {s : Store} {source : Source} {address : Address} {block : Shape}

theorem Fits.length_values (h : source.Fits s block address) :
    (source.values s (block.rows * block.cols)).length = block.rows * block.cols := by
  cases source with
  | scalar operand => exact List.length_replicate
  | matrix cell =>
    rw [values, Array.length_toList, Matrix.size_entries]
    cases address with
    | flat index => exact h
    | grid rows cols =>
      cases h
      rfl

theorem Fits.getElem?_values (h : source.Fits s block address) {k : Nat}
    (inside : k < block.rows * block.cols) :
    (source.values s (block.rows * block.cols))[k]? = some (source.value s k) := by
  have length := h.length_values
  cases source with
  | scalar operand => simp [values, value, inside]
  | matrix cell =>
    rw [values, Array.length_toList, Matrix.size_entries] at length
    rw [values, Array.getElem?_toList, Matrix.getElem?_entries,
      if_pos (by rwa [Matrix.size, length]), value]

theorem Fits.iff_checkFit {cell : Cell .matrix} {selection : Selection} :
    (Source.matrix cell).Fits s selection.shape address ↔
      address.checkFit selection (s.read cell) = .ok () := by
  cases address with
  | flat index => simp [Fits, Address.checkFit, selection.length_places]
  | grid rows cols => simp [Fits, Address.checkFit]

/-- An insertion succeeds iff its address means places and its source fits them, and then it
overwrites these places in order. -/
theorem insertInto_eq_ok_iff {m m' : Matrix} : source.insertInto s m address = .ok m' ↔
    ∃ block places, address.Means s m.shape block places ∧ source.Fits s block address ∧
      m' = m.overwrite (places.zip (source.values s (block.rows * block.cols))) := by
  have selected : source.insertInto s m address = .ok m' ↔ ∃ selection : Selection,
      address.select s m.shape = .ok selection ∧ source.Fits s selection.shape address ∧
        m' = m.overwrite (selection.places.zip (source.values s selection.places.length)) := by
    rw [insertInto, except_bind_eq_ok_iff]
    refine exists_congr fun selection => and_congr_right fun _ => ?_
    cases source with
    | scalar operand =>
      rw [except_pure_eq_ok_iff]
      simp [Fits, values, Matrix.insert_eq, eq_comm]
    | matrix cell =>
      rw [Fits.iff_checkFit]
      simp only [except_bind_eq_ok_iff, except_pure_eq_ok_iff, values, Matrix.insert_eq]
      cases address.checkFit selection (s.read cell) <;> simp [Except.mapError, eq_comm]
  rw [selected]
  constructor
  · rintro ⟨selection, means, fits, rfl⟩
    exact ⟨_, _, Address.select_eq_ok_iff.1 means, fits, by rw [selection.length_places]⟩
  · rintro ⟨block, places, means, fits, rfl⟩
    have length := means.inside.1
    exact ⟨⟨block, places, length⟩, Address.select_eq_ok_iff.2 means, fits, by rw [length]⟩

end Source

/-! ### Insertions -/

section

variable {s s' : Store} {dst : Cell .matrix} {source : Source} {address : Address} {block : Shape}
  {places : List (Nat × Nat)}

/-- What an insertion into the places of a block has done. -/
structure Store.Inserted (s s' : Store) (dst : Cell .matrix) (source : Source)
    (places : List (Nat × Nat)) : Prop where
  /-- The matrix keeps its shape. -/
  shape : (s'.read dst).shape = (s.read dst).shape
  /-- Nothing else changes. -/
  rest : ∀ place ∉ places,
    (s'.read dst).entry place.1 place.2 = (s.read dst).entry place.1 place.2
  /-- Each place holds the last element of the source, as it was, that is meant for it. -/
  last : ∀ k place, places[k]? = some place → (∀ k' > k, places[k']? ≠ some place) →
    (s'.read dst).entry place.1 place.2 = source.value s k

/-- The insertion of a source into a matrix. -/
def Operation.insertion (dst : Cell .matrix) (source : Source) (address : Address) : Operation :=
  ⟨"copyR", dst, .inserted dst source address⟩

theorem Operation.perform_insertion_eq_ok_iff :
    (insertion dst source address).perform s = .ok s' ↔
      ∃ block places, address.Means s (s.read dst).shape block places ∧
        source.Fits s block address ∧ s' = s.write dst ((s.read dst).overwrite
          (places.zip (source.values s (block.rows * block.cols)))) := by
  rw [perform_eq_ok_iff]
  change (∃ value, source.insertInto s (s.read dst) address = .ok value ∧ _) ↔ _
  simp only [Source.insertInto_eq_ok_iff]
  constructor
  · rintro ⟨_, ⟨block, places, means, fits, rfl⟩, rfl⟩
    exact ⟨block, places, means, fits, rfl⟩
  · rintro ⟨block, places, means, fits, rfl⟩
    exact ⟨_, ⟨block, places, means, fits, rfl⟩, rfl⟩

/-- A place that is last in a list splits the list of writes. -/
theorem exists_last_write {places : List (Nat × Nat)} {values : List Float} {k : Nat}
    {place : Nat × Nat} {value : Float} (here : places[k]? = some place)
    (there : values[k]? = some value) (last : ∀ k' > k, places[k']? ≠ some place) :
    ∃ before after, places.zip values = before ++ (place, value) :: after ∧
      place ∉ after.map Prod.fst := by
  have write : (places.zip values)[k]? = some (place, value) :=
    List.getElem?_zip_eq_some.2 ⟨here, there⟩
  obtain ⟨bound, found⟩ := List.getElem?_eq_some_iff.1 write
  refine ⟨(places.zip values).take k, (places.zip values).drop (k + 1), ?_, fun mem => ?_⟩
  · rw [← found, List.getElem_cons_drop, List.take_append_drop]
  · obtain ⟨other, mem', rfl⟩ := List.mem_map.1 mem
    obtain ⟨i, later⟩ := List.mem_iff_getElem?.1 mem'
    rw [List.getElem?_drop, List.getElem?_zip_eq_some] at later
    exact last (k + 1 + i) (by omega) later.1

/-- Overwriting the places of a block is what an insertion does. -/
theorem inserted_of_overwrite (has : s.Has dst)
    (means : address.Means s (s.read dst).shape block places) (fits : source.Fits s block address) :
    s.Inserted (s.write dst ((s.read dst).overwrite
      (places.zip (source.values s (block.rows * block.cols))))) dst source places := by
  obtain ⟨length, inside⟩ := means.inside
  generalize eq : places.zip (source.values s (block.rows * block.cols)) = writes
  have firsts : writes.map Prod.fst = places := by
    rw [← eq, List.map_fst_zip (by rw [fits.length_values, length])]
  have written : (s.read dst).Inside (writes.map Prod.fst) := firsts.symm ▸ inside
  have result := s.read_write_self has ((s.read dst).overwrite writes)
  constructor
  · rw [result, Matrix.shape_overwrite]
  · intro place other
    rw [result, Matrix.entry_overwrite_of_notMem written (by rwa [firsts])]
  · intro k place here last
    have bound : k < block.rows * block.cols := length ▸ (List.getElem?_eq_some_iff.1 here).1
    obtain ⟨before, after, split, later⟩ :=
      exists_last_write here (fits.getElem?_values bound) last
    rw [eq] at split
    rw [split] at written result ⊢
    rw [result, Matrix.entry_overwrite_of_last written later]

theorem Matrix.flat_extract (m : Matrix) (selection : Selection) {k : Nat} {place : Nat × Nat}
    (h : selection.places[k]? = some place) :
    (m.extract selection).flat k = m.entry place.1 place.2 := by
  have bound : k < selection.shape.rows * selection.shape.cols :=
    selection.length_places ▸ (List.getElem?_eq_some_iff.1 h).1
  have found := (m.extract selection).getElem?_entries k
  rw [if_pos (show k < (m.extract selection).size from bound)] at found
  simpa [extract, h, eq_comm] using found

/-- Reading at an address gives the block of the entries at the places that it means. -/
theorem Term.eval_submatrix (means : address.Means s (s.read dst).shape block places) :
    ∃ m, (submatrix dst address).eval s = .ok m ∧
      (element dst address).eval s = .ok (m.flat 0) ∧ m.shape = block ∧
      ∀ k (place : Nat × Nat), places[k]? = some place →
        m.flat k = (s.read dst).entry place.1 place.2 := by
  let selection : Selection := ⟨block, places, means.inside.1⟩
  have selected : address.select s (s.read dst).shape = .ok selection :=
    Address.select_eq_ok_iff.2 means
  refine ⟨(s.read dst).extract selection, ?_, ?_, rfl, fun k place here =>
    (s.read dst).flat_extract selection here⟩
  · rw [eval, selected]
    rfl
  · rw [eval, selected, Matrix.flat, Nat.zero_div, Nat.zero_mod]
    rfl

theorem Address.Means.unique {shape block' : Shape} {places' : List (Nat × Nat)}
    (h : address.Means s shape block places) (h' : address.Means s shape block' places') :
    block = block' ∧ places = places' := by
  have selected : address.select s shape = .ok ⟨block, places, h.inside.1⟩ := select_eq_ok_iff.2 h
  have selected' : address.select s shape = .ok ⟨block', places', h'.inside.1⟩ :=
    select_eq_ok_iff.2 h'
  cases selected.symm.trans selected'
  exact ⟨rfl, rfl⟩

/-- Writing a matrix does not change which places an address means. -/
theorem Address.Means.write {shape : Shape} (h : address.Means s shape block places)
    (value : Matrix) : address.Means (s.write dst value) shape block places := by
  have values (index : Index) (size : Nat) :
      index.values (s.write dst value) size = index.values s size := by
    cases index <;> rfl
  cases h with
  | flat elements inside => exact .flat ((values _ _).trans elements) inside
  | grid rowList rowsInside colList colsInside =>
    exact .grid ((values _ _).trans rowList) rowsInside ((values _ _).trans colList) colsInside

theorem Address.Means.single (h : address.Means s block' block places)
    (single : address.isSingle = true) : ∃ place, places = [place] := by
  cases h with
  | @flat index _ elements _ =>
    cases index with
    | sequence => cases single
    | single c =>
      cases elements
      exact ⟨_, rfl⟩
  | @grid rows cols _ _ rowList _ colList _ =>
    cases rows with
    | sequence => cases single
    | single r =>
      cases cols with
      | sequence => cases single
      | single c =>
        cases rowList
        cases colList
        exact ⟨_, rfl⟩

/-- A place that is meant only once holds the element that is meant for it. -/
theorem Store.Inserted.entry_eq (h : s.Inserted s' dst source places) (distinct : places.Nodup)
    {k : Nat} {place : Nat × Nat} (here : places[k]? = some place) :
    (s'.read dst).entry place.1 place.2 = source.value s k := by
  refine h.last k place here fun k' later there => ?_
  have bound : k' < places.length := (List.getElem?_eq_some_iff.1 there).1
  exact List.nodup_iff_getElem?_ne_getElem?.1 distinct k k' later bound (here.trans there.symm)

namespace Operation

/-- **What an insertion leaves, and what reading at its address returns then.**  An insertion
succeeds iff its address means places and its source fits them.  Then each of these places holds
the last element that is meant for it, nothing else has changed, and as long as no place is meant
twice, reading at the address returns the source. -/
theorem insertion_round_trips (has : s.Has dst) (source : Source) (address : Address) :
    ((∃ s', (insertion dst source address).perform s = .ok s') ↔
      ∃ block places, address.Means s (s.read dst).shape block places ∧
        source.Fits s block address) ∧
    ∀ s' block places, (insertion dst source address).perform s = .ok s' →
      address.Means s (s.read dst).shape block places →
      s.Inserted s' dst source places ∧
      (places.Nodup → ∃ m, (Term.submatrix dst address).eval s' = .ok m ∧ m.shape = block ∧
        (∀ k < m.size, m.flat k = source.value s k) ∧
        ∀ cell rows cols, source = .matrix cell → address = .grid rows cols → m = s.read cell) ∧
      (address.isSingle = true →
        (Term.element dst address).eval s' = .ok (source.value s 0)) := by
  constructor
  · simp only [perform_insertion_eq_ok_iff]
    constructor
    · rintro ⟨_, block, places, means, fits, -⟩
      exact ⟨block, places, means, fits⟩
    · rintro ⟨block, places, means, fits⟩
      exact ⟨_, block, places, means, fits, rfl⟩
  · intro s' block places ok means
    obtain ⟨_, _, means', fits, rfl⟩ := perform_insertion_eq_ok_iff.1 ok
    obtain ⟨rfl, rfl⟩ := means.unique means'
    have inserted := inserted_of_overwrite has means fits
    obtain ⟨m, submatrix, element, shape, entries⟩ :=
      Term.eval_submatrix (inserted.shape.symm ▸ means.write _)
    refine ⟨inserted, fun distinct => ?_, fun single => ?_⟩
    · have elements : ∀ k < m.size, m.flat k = source.value s k := by
        intro k bound
        have inside : k < places.length := by
          rw [means.inside.1, ← shape]
          exact bound
        have here : places[k]? = some places[k] := List.getElem?_eq_getElem inside
        rw [entries k _ here, inserted.entry_eq distinct here]
      refine ⟨m, submatrix, shape, elements, ?_⟩
      rintro cell rows cols rfl rfl
      exact Matrix.ext_flat (shape.trans fits.symm) elements
    · obtain ⟨place, rfl⟩ := means.single single
      have here : [place][0]? = some place := rfl
      rw [element, entries 0 place here, inserted.entry_eq (List.nodup_singleton place) here]

/-- The elements of a square are written back in reverse order, out of the square itself. -/
theorem insertion_round_trips_of_reversal :
    let square : Matrix := .ofFn 2 2 fun i j => (2 * i + j).toFloat
    let s : Store :=
      { matrices := #[square], integers := #[3, 0, 2, 1]
        sequences := #[.listed [⟨0⟩, ⟨2⟩, ⟨3⟩, ⟨1⟩]] }
    let address : Address := .flat (.sequence ⟨0⟩)
    s.Has (⟨0⟩ : Cell .matrix) ∧ ∃ s' m,
      (insertion ⟨0⟩ (.matrix ⟨0⟩) address).perform s = .ok s' ∧
      (s'.read (⟨0⟩ : Cell .matrix)).entry 0 0 = square.flat 3 ∧
      (Term.submatrix ⟨0⟩ address).eval s' = .ok m ∧ ∀ k < 4, m.flat k = square.flat k := by
  intro square s address
  have has : s.Has (⟨0⟩ : Cell .matrix) := Nat.zero_lt_one
  have order : (Index.sequence ⟨0⟩).values s 4 = .ok [3, 2, 1, 0] :=
    congrArg Except.ok (Runs.toList_listed [3, 2, 1, 0])
  have inside : ∀ i ∈ ([3, 2, 1, 0] : List Int64), InBounds 4 i := by simp [InBounds]
  have places : ([3, 2, 1, 0] : List Int64).map (fun i => (i.toInt.toNat / 2, i.toInt.toNat % 2)) =
      [(1, 1), (1, 0), (0, 1), (0, 0)] := by decide
  have means : address.Means s square.shape ⟨1, 4⟩ [(1, 1), (1, 0), (0, 1), (0, 0)] :=
    places ▸ @Address.Means.flat s square.shape _ _ order inside
  have fits : (Source.matrix ⟨0⟩).Fits s ⟨1, 4⟩ address := rfl
  obtain ⟨succeeds, leaves⟩ := insertion_round_trips has (.matrix ⟨0⟩) address
  obtain ⟨s', ok⟩ := succeeds.2 ⟨_, _, means, fits⟩
  obtain ⟨inserted, returned, -⟩ := leaves s' _ _ ok means
  have distinct : [(1, 1), (1, 0), (0, 1), (0, 0)].Nodup := by decide
  obtain ⟨m, read, shape, elements, -⟩ := returned distinct
  have size : m.size = 4 := congrArg (fun shape : Shape => shape.rows * shape.cols) shape
  have here : [(1, 1), (1, 0), (0, 1), (0, 0)][3]? = some (0, 0) := rfl
  exact ⟨has, s', m, ok, inserted.entry_eq distinct here, read, fun k bound =>
    elements k (size ▸ bound)⟩

end Operation

end

end MatrixCalc
