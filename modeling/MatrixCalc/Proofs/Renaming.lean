import MatrixCalc.Proofs.Reads

/-!
# Renaming cells

A term computes the same in two stores in which what it reads means the same under other names, and
which recipe an operator or a function has does not depend on names either.

* `Store.meaning` : what a cell means: its content, or the indices of a sequence for every size.
* `Term.eval_rename` : **evaluation commutes with renaming**.
* `Recipe.binary_rename`, `Recipe.ofCall_rename`, … : so does the choice of recipes.
-/

namespace MatrixCalc

/-- Other names for cells. -/
abbrev Renaming := (kind : Kind) → Cell kind → Cell kind

/-! ### Renamed things -/

namespace IndexSequence

mutual

/-- The sequence with its cells renamed. -/
def rename (ρ : Renaming) : IndexSequence → IndexSequence
  | listed cells => listed (cells.map (ρ .integer))
  | progression start step stop =>
    progression (ρ .integer start) (step.map (ρ .integer)) (ρ .integer stop)
  | span start stop => span (start.map (ρ .integer)) (stop.map (ρ .integer))
  | joined parts => joined (renameParts ρ parts)

/-- The sequences with their cells renamed. -/
def renameParts (ρ : Renaming) : List IndexSequence → List IndexSequence
  | [] => []
  | part :: parts => rename ρ part :: renameParts ρ parts

end

theorem renameParts_eq (ρ : Renaming) (parts : List IndexSequence) :
    renameParts ρ parts = parts.map (rename ρ) := by
  induction parts with
  | nil => rfl
  | cons part parts ih => rw [renameParts, ih, List.map_cons]

end IndexSequence

/-- The content with its cells renamed. -/
def Kind.renameContent (ρ : Renaming) : (kind : Kind) → kind.Content → kind.Content
  | .sequence, s => s.rename ρ
  | .matrix, x | .double, x | .integer, x => x

theorem Kind.renameContent_of_ne {ρ : Renaming} {kind : Kind} (h : kind ≠ .sequence)
    (value : kind.Content) : kind.renameContent ρ value = value := by
  cases kind
  case sequence => exact absurd rfl h
  all_goals rfl

/-- The variable under its other name. -/
def Variable.rename (ρ : Renaming) (v : Variable) : Variable := ⟨v.kind, ρ v.kind v.cell⟩

/-- The operand under its other name. -/
def Scalar.rename (ρ : Renaming) : Scalar → Scalar
  | integer cell => integer (ρ .integer cell)
  | double cell => double (ρ .double cell)

/-- The index with its cell renamed. -/
def Index.rename (ρ : Renaming) : Index → Index
  | single cell => single (ρ .integer cell)
  | sequence cell => sequence (ρ .sequence cell)

/-- The address with its cells renamed. -/
def Address.rename (ρ : Renaming) : Address → Address
  | flat index => flat (index.rename ρ)
  | grid rows cols => grid (rows.rename ρ) (cols.rename ρ)

/-- The source with its cell renamed. -/
def Source.rename (ρ : Renaming) : Source → Source
  | matrix cell => matrix (ρ .matrix cell)
  | scalar operand => scalar (operand.rename ρ)

namespace Term

/-- The term with its cells renamed. -/
def rename (ρ : Renaming) : {kind : Kind} → Term kind → Term kind
  | _, integerArith op a b => integerArith op (ρ .integer a) (ρ .integer b)
  | _, integerUnary f a => integerUnary f (ρ .integer a)
  | _, integer a => integer (ρ .integer a)
  | _, scalarArith op a b => scalarArith op (a.rename ρ) (b.rename ρ)
  | _, scalarUnary f a => scalarUnary f (a.rename ρ)
  | _, measure f a => measure f (ρ .matrix a)
  | _, normP a p => normP (ρ .matrix a) (p.rename ρ)
  | _, dot a b => dot (ρ .matrix a) (ρ .matrix b)
  | _, element m address => element (ρ .matrix m) (address.rename ρ)
  | _, scalar a => scalar (a.rename ρ)
  | _, onlyElement m => onlyElement (ρ .matrix m)
  | _, matrixArith op a b => matrixArith op (ρ .matrix a) (ρ .matrix b)
  | _, broadcast op m s scalarFirst => broadcast op (ρ .matrix m) (s.rename ρ) scalarFirst
  | _, solve a b => solve (ρ .matrix a) (ρ .matrix b)
  | _, elementwise f a => elementwise f (ρ .matrix a)
  | _, matrixUnary f a => matrixUnary f (ρ .matrix a)
  | _, reduceAlong how rows a => reduceAlong how rows (ρ .matrix a)
  | _, filled rows cols value => filled (ρ .integer rows) (ρ .integer cols) value
  | _, eye n => eye (ρ .integer n)
  | _, kron a b => kron (ρ .matrix a) (ρ .matrix b)
  | _, submatrix m address => submatrix (ρ .matrix m) (address.rename ρ)
  | _, inserted m source address =>
    inserted (ρ .matrix m) (source.rename ρ) (address.rename ρ)
  | _, literal rows => literal (rows.map fun row => row.map (Variable.rename ρ))
  | _, matrix m => matrix (ρ .matrix m)
  | _, sequence a => sequence (ρ .sequence a)

end Term

/-- The recipe with the cells that it reads renamed. -/
def Recipe.rename (ρ : Renaming) (r : Recipe) : Recipe := ⟨r.name, r.term.rename ρ⟩

variable {ρ : Renaming}

/-! ### Sequences -/

namespace IndexSequence

variable {read read' : Cell .integer → Int64}

/-- A sequence whose cells keep their names is the same. -/
theorem rename_eq_self (s : IndexSequence) (h : ∀ c ∈ s.cells, ρ .integer c = c) :
    s.rename ρ = s := by
  induction s using IndexSequence.rec (motive_2 := fun parts =>
    (∀ c ∈ cellsOfParts parts, ρ .integer c = c) → renameParts ρ parts = parts) with
  | listed cells =>
    rw [rename, List.map_congr_left (g := id) fun c mem => h c (by rwa [IndexSequence.cells]),
      List.map_id]
  | progression start step stop =>
    simp only [cells, List.mem_append, List.mem_cons] at h
    cases step with
    | none => simp [rename, h]
    | some step => simp [rename, h]
  | span start stop =>
    simp only [cells, List.mem_append] at h
    cases start <;> cases stop <;> simp_all [rename]
  | joined parts ih => rw [rename, ih h]
  | nil => rfl
  | cons part parts one more =>
    rename_i h
    simp only [cellsOfParts, List.mem_append] at h
    rw [renameParts, one fun c mem => h c (.inl mem), more fun c mem => h c (.inr mem)]

/-- The names that matter are those of the cells. -/
theorem rename_congr {ρ' : Renaming} (s : IndexSequence)
    (h : ∀ c ∈ s.cells, ρ .integer c = ρ' .integer c) : s.rename ρ = s.rename ρ' := by
  induction s using IndexSequence.rec (motive_2 := fun parts =>
    (∀ c ∈ cellsOfParts parts, ρ .integer c = ρ' .integer c) →
      renameParts ρ parts = renameParts ρ' parts) with
  | listed cells =>
    rw [rename, rename, List.map_congr_left fun c mem => h c (by rwa [IndexSequence.cells])]
  | progression start step stop =>
    simp only [cells, List.mem_append, List.mem_cons] at h
    cases step with
    | none => simp [rename, h]
    | some step => simp [rename, h]
  | span start stop =>
    simp only [cells, List.mem_append] at h
    cases start <;> cases stop <;> simp_all [rename]
  | joined parts ih => rw [rename, rename, ih h]
  | nil => rfl
  | cons part parts one more =>
    rename_i h
    simp only [cellsOfParts, List.mem_append] at h
    rw [renameParts, renameParts, one fun c mem => h c (.inl mem), more fun c mem => h c (.inr mem)]

theorem cells_rename (s : IndexSequence) :
    (s.rename ρ).cells = s.cells.map (ρ .integer) := by
  induction s using IndexSequence.rec (motive_2 := fun parts =>
    cellsOfParts (renameParts ρ parts) = (cellsOfParts parts).map (ρ .integer)) with
  | listed cells => rfl
  | progression start step stop => cases step <;> rfl
  | span start stop => cases start <;> cases stop <;> rfl
  | joined parts ih => exact ih
  | nil => rfl
  | cons part parts one more =>
    rw [renameParts, cellsOfParts, cellsOfParts, one, more, List.map_append]

/-- The runs of a sequence depend on what its cells hold, not on their names. -/
theorem runs_rename (size : Nat) (s : IndexSequence)
    (h : ∀ c ∈ s.cells, read' (ρ .integer c) = read c) :
    (s.rename ρ).runs read' size = s.runs read size := by
  induction s using IndexSequence.rec (motive_2 := fun parts =>
    (∀ c ∈ cellsOfParts parts, read' (ρ .integer c) = read c) →
      runsOfParts read' size (renameParts ρ parts) = runsOfParts read size parts) with
  | listed cells =>
    have values : cells.map (read' ∘ ρ .integer) = cells.map read :=
      List.map_congr_left fun c mem => h c (by rwa [IndexSequence.cells])
    simp only [rename, runs, List.map_map, values]
  | progression start step stop =>
    simp only [cells, List.mem_append, List.mem_cons] at h
    cases step with
    | none => simp [rename, runs, h]
    | some step => simp [rename, runs, h]
  | span start stop =>
    simp only [cells, List.mem_append] at h
    cases start <;> cases stop <;> simp_all [rename, runs]
  | joined parts ih => exact ih h
  | nil => rfl
  | cons part parts one more =>
    rename_i h
    simp only [cellsOfParts, List.mem_append] at h
    simp only [renameParts, runsOfParts]
    rw [one fun c mem => h c (.inl mem), more fun c mem => h c (.inr mem)]

theorem needsSize_rename (ρ : Renaming) (s : IndexSequence) :
    (s.rename ρ).needsSize = s.needsSize := by
  induction s using IndexSequence.rec (motive_2 := fun parts =>
    anyNeedsSize (renameParts ρ parts) = anyNeedsSize parts) with
  | listed => rfl
  | progression => rfl
  | span start stop => cases stop <;> rfl
  | joined parts ih => exact ih
  | nil => rfl
  | cons part parts one more => rw [renameParts, anyNeedsSize, anyNeedsSize, one, more]

/-- The static length of a sequence depends on its constants, not on the names of its cells. -/
theorem staticLength_rename {constant constant' : Cell .integer → Option Int64}
    (s : IndexSequence) (same : ∀ c ∈ s.cells, constant' (ρ .integer c) = constant c) :
    (s.rename ρ).staticLength constant' = s.staticLength constant := by
  induction s using IndexSequence.rec (motive_2 := fun parts =>
    (∀ c ∈ cellsOfParts parts, constant' (ρ .integer c) = constant c) → ∀ total,
      staticLengthOfParts constant' total (renameParts ρ parts) =
        staticLengthOfParts constant total parts) with
  | listed cells => exact congrArg some (List.length_map _)
  | progression start step stop =>
    simp only [cells, List.mem_append, List.mem_cons] at same
    cases step with
    | none => simp [rename, staticLength, same]
    | some step => simp [rename, staticLength, same]
  | span start stop =>
    simp only [cells, List.mem_append] at same
    cases start <;> cases stop <;> simp_all [rename, staticLength]
  | joined parts ih => exact ih same 0
  | nil => rfl
  | cons part parts one more =>
    rename_i same total
    simp only [cellsOfParts, List.mem_append] at same
    simp only [renameParts, staticLengthOfParts]
    rw [one fun c mem => same c (.inl mem)]
    simp only [more fun c mem => same c (.inr mem)]

end IndexSequence

/-! ### What variables mean -/

namespace Runs

theorem toListOnto_append (a b : List Int64) (runs : List Run) :
    toListOnto (a ++ b) runs = b.reverse ++ toListOnto a runs := by
  fun_induction toListOnto a runs with
  | case1 a runs ended =>
    rw [toListOnto]
    split <;> simp_all
  | case2 a runs i rest next ih =>
    rw [← ih, toListOnto]
    split <;> simp_all

theorem toList_of_next? {runs rest : List Run} {i : Int64} (h : next? runs = some (i, rest)) :
    toList runs = i :: toList rest := by
  have first := toListOnto_append [] [i] rest
  rw [toList, toListOnto]
  split <;> simp_all [toList]

theorem toList_of_next?_eq_none {runs : List Run} (h : next? runs = none) : toList runs = [] := by
  rw [toList, toListOnto]
  split
  · rfl
  · rename_i found
    rw [h] at found
    cases found

theorem next?_append (a b : List Run) : next? (a ++ b) =
    ((next? a).map fun found => (found.1, found.2 ++ b)).or (next? b) := by
  induction a with
  | nil => rfl
  | cons run a ih =>
    simp only [List.cons_append, next?]
    cases run.next? with
    | some => rfl
    | none => exact ih

theorem toList_append (a b : List Run) : toList (a ++ b) = toList a ++ toList b := by
  -- each index that is handed out leaves fewer behind
  induction remaining : Runs.remaining a using Nat.strong_induction_on generalizing a with
  | _ n ih =>
    have first := next?_append a b
    cases next : next? a with
    | some found =>
      obtain ⟨i, rest⟩ := found
      rw [next] at first
      have fewer : Runs.remaining rest < n := remaining ▸ remaining_next?_lt next
      rw [toList_of_next? first, toList_of_next? next, ih _ fewer rest rfl, List.cons_append]
    | none =>
      rw [next] at first
      rw [toList_of_next?_eq_none next, List.nil_append]
      change next? (a ++ b) = next? b at first
      cases last : next? b with
      | some found => rw [toList_of_next? (first.trans last), toList_of_next? last]
      | none => rw [toList_of_next?_eq_none (first.trans last), toList_of_next?_eq_none last]

theorem collectOnto_eq {ε β : Type} (f : Int64 → Except ε β) (done : List β) (runs : List Run) :
    collectOnto f done runs = ((toList runs).mapM f).map (done.reverse ++ ·) := by
  fun_induction collectOnto f done runs with
  | case1 done runs ended =>
    simp [toList_of_next?_eq_none ended, Except.map, pure, Except.pure]
  | case2 done runs i rest next answer found ih =>
    rw [ih, toList_of_next? next, List.mapM_cons, found]
    cases (toList rest).mapM f with
    | ok more => simp [Except.map, bind, Except.bind, pure, Except.pure]
    | error e => rfl
  | case3 done runs i rest next e found =>
    rw [toList_of_next? next, List.mapM_cons, found]
    rfl

/-- Handing out indices one by one is going through the list of them. -/
theorem collect_eq {ε β : Type} (f : Int64 → Except ε β) (runs : List Run) :
    collect f runs = (toList runs).mapM f := by
  rw [collect, collectOnto_eq]
  cases (toList runs).mapM f <;> rfl

end Runs

/-- The indices of a sequence, given the contents of its bounds and the size of what it
addresses. -/
def IndexSequence.indices (read : Cell .integer → Int64) (size : Nat) (s : IndexSequence) :
    Except NumericFailure (List Int64) := (s.runs read size).map Runs.toList

/-- What a variable of a kind means: its content, or the indices for every size. -/
abbrev Kind.Meaning : Kind → Type
  | .matrix => Matrix
  | .double => Float
  | .integer => Int64
  | .sequence => Nat → Except NumericFailure (List Int64)

/-- What a content means, given the contents of the integer cells. -/
def Kind.meaning (read : Cell .integer → Int64) : (kind : Kind) → kind.Content → kind.Meaning
  | .matrix, m => m
  | .double, x => x
  | .integer, n => n
  | .sequence, s => fun size => s.indices read size

/-- What a cell means. -/
def Store.meaning (s : Store) {kind : Kind} (cell : Cell kind) : kind.Meaning :=
  kind.meaning s.read (s.read cell)

section Meaning

variable {s s' : Store} {read read' : Cell .integer → Int64}

theorem Kind.meaning_eq_iff {kind : Kind} (h : kind ≠ .sequence) {value value' : kind.Content} :
    kind.meaning read' value' = kind.meaning read value ↔ value' = value := by
  cases kind
  case sequence => exact absurd rfl h
  all_goals rfl

theorem Store.meaning_eq_iff {kind : Kind} (h : kind ≠ .sequence) {cell cell' : Cell kind} :
    s'.meaning cell' = s.meaning cell ↔ s'.read cell' = s.read cell := Kind.meaning_eq_iff h

/-- A sequence means the same if its cells hold the same under their other names. -/
theorem IndexSequence.indices_rename (size : Nat) (s : IndexSequence)
    (h : ∀ c ∈ s.cells, read' (ρ .integer c) = read c) :
    (s.rename ρ).indices read' size = s.indices read size := by
  rw [indices, indices, runs_rename size s h]

/-- A content means the same if the cells that it refers to hold the same. -/
theorem Kind.meaning_congr {kind : Kind} (value : kind.Content)
    (h : ∀ c ∈ kind.cellsOf value, read' c = read c) :
    kind.meaning read' value = kind.meaning read value := by
  cases kind
  case sequence =>
    funext size
    have same := @IndexSequence.indices_rename (fun _ c => c) _ _ size value h
    rwa [IndexSequence.rename_eq_self value fun _ _ => rfl] at same
  all_goals rfl

/-! ### Evaluation -/

/-- The variables mean in the second store, under their other names, what they mean in the first. -/
def Store.Matches (s : Store) (ρ : Renaming) (s' : Store) (vs : List Variable) : Prop :=
  ∀ v ∈ vs, s'.meaning (ρ v.kind v.cell) = s.meaning v.cell

theorem Store.Matches.mono {vs ws : List Variable} (h : s.Matches ρ s' vs)
    (sub : ∀ w ∈ ws, w ∈ vs) : s.Matches ρ s' ws := fun w mem => h w (sub w mem)

theorem Store.Matches.meaning {vs : List Variable} (h : s.Matches ρ s' vs) {kind : Kind}
    {cell : Cell kind} (mem : (⟨kind, cell⟩ : Variable) ∈ vs) :
    s'.meaning (ρ kind cell) = s.meaning cell := h _ mem

theorem readScalar_rename {operand : Scalar} (h : s.Matches ρ s' [operand.toVariable]) :
    s'.readScalar (operand.rename ρ) = s.readScalar operand := by
  cases operand with
  | integer cell =>
    have content : s'.read (ρ .integer cell) = s.read cell := h ⟨.integer, cell⟩ List.mem_cons_self
    exact congrArg Int64.toFloat content
  | double cell => exact h ⟨.double, cell⟩ List.mem_cons_self

theorem Index.resolve_sequence (cell : Cell .sequence) (axis : Axis) (size : Nat) :
    (sequence cell).resolve s axis size =
      (s.meaning cell size).mapError Error.numeric >>= (·.mapM (check axis size)) := by
  simp only [resolve, Store.runs, Store.meaning, Kind.meaning, IndexSequence.indices]
  cases (s.read cell).runs s.read size with
  | ok runs => exact Runs.collect_eq _ runs
  | error cause => rfl

theorem Index.resolve_rename {index : Index} (h : s.Matches ρ s' [index.toVariable])
    (axis : Axis) (size : Nat) :
    (index.rename ρ).resolve s' axis size = index.resolve s axis size := by
  cases index with
  | single cell =>
    have content : s'.read (ρ .integer cell) = s.read cell :=
      h ⟨.integer, cell⟩ List.mem_cons_self
    simp only [rename, resolve, content]
  | sequence cell =>
    have indices : s'.meaning (ρ .sequence cell) = s.meaning cell :=
      h ⟨.sequence, cell⟩ List.mem_cons_self
    rw [rename, resolve_sequence, resolve_sequence, indices]

theorem Address.select_rename {address : Address} (h : s.Matches ρ s' address.variables)
    (shape : Shape) : (address.rename ρ).select s' shape = address.select s shape := by
  cases address with
  | flat index =>
    simp only [rename, select]
    rw [Index.resolve_rename h]
  | grid rows cols =>
    simp only [rename, select]
    rw [Index.resolve_rename (h.mono (by simp [Address.variables])),
      Index.resolve_rename (h.mono (by simp [Address.variables]))]

theorem Address.checkFit_rename (address : Address) (selection : Selection) (source : Matrix) :
    (address.rename ρ).checkFit selection source = address.checkFit selection source := by
  cases address <;> rfl

theorem Source.insertInto_rename {source : Source} {address : Address}
    (h : s.Matches ρ s' (source.toVariable :: address.variables)) (m : Matrix) :
    (source.rename ρ).insertInto s' m (address.rename ρ) = source.insertInto s m address := by
  have places := Address.select_rename (h.mono fun w mem => List.mem_cons_of_mem _ mem) m.shape
  cases source with
  | matrix cell =>
    have block : s'.read (ρ .matrix cell) = s.read cell :=
      h ⟨.matrix, cell⟩ List.mem_cons_self
    simp only [rename, insertInto, places, block, Address.checkFit_rename]
  | scalar operand =>
    have number := @readScalar_rename _ _ _ operand (h.mono (by simp [toVariable]))
    simp only [rename, insertInto, places, number]

theorem Literal.block_sequence (cell : Cell .sequence) :
    block s ⟨.sequence, cell⟩ = (s.meaning cell 0).map fun indices =>
      let values := (indices.map Int64.toFloat).toArray
      Matrix.ofFn 1 values.size fun _ j => values.getD j 0.0 := by
  simp only [block, Store.runs, Store.meaning, Kind.meaning, IndexSequence.indices]
  cases (s.read cell).runs s.read 0 <;> rfl

theorem Literal.block_rename {v : Variable} (h : s.Matches ρ s' [v]) :
    Literal.block s' (v.rename ρ) = Literal.block s v := by
  have same := h v List.mem_cons_self
  rcases v with ⟨_ | _ | _ | _, cell⟩
  case sequence =>
    have indices : s'.meaning (ρ .sequence cell) = s.meaning cell := same
    rw [Variable.rename, Literal.block_sequence, Literal.block_sequence, indices]
  case matrix => exact congrArg Except.ok same
  case double => exact congrArg (fun x => Except.ok (Matrix.fill 1 1 x)) same
  case integer => exact congrArg (fun n => Except.ok (Matrix.fill 1 1 (Int64.toFloat n))) same

theorem mapM_map_congr {ε α β γ : Type} {f : β → Except ε γ} {g : α → Except ε γ} {r : α → β}
    {xs : List α} (h : ∀ x ∈ xs, f (r x) = g x) : (xs.map r).mapM f = xs.mapM g := by
  induction xs with
  | nil => rfl
  | cons x xs ih =>
    rw [List.map_cons, List.mapM_cons, List.mapM_cons, h x (by simp),
      ih fun y mem => h y (by simp [mem])]

theorem Literal.layOut_rename {rows : Literal} (h : s.Matches ρ s' rows.flatten) :
    Literal.layOut s' (rows.map fun row => row.map (Variable.rename ρ)) =
      Literal.layOut s rows := by
  have blocks : List.mapM (fun row : List Variable => row.mapM (Literal.block s'))
      (rows.map fun row => row.map (Variable.rename ρ)) =
      List.mapM (fun row : List Variable => row.mapM (Literal.block s)) rows :=
    mapM_map_congr fun row inRows => mapM_map_congr fun v inRow =>
      Literal.block_rename (h.mono fun w mem => by
        obtain rfl := List.mem_singleton.1 mem
        exact List.mem_flatten.2 ⟨row, inRows, inRow⟩)
  simp only [layOut, blocks]

/-- **Evaluation does not depend on the names of cells**, only on what the operands mean. -/
theorem Term.eval_rename {kind : Kind} (t : Term kind) (scalar : kind ≠ .sequence)
    (h : s.Matches ρ s' t.operands) : (t.rename ρ).eval s' = t.eval s := by
  -- what the operands hold, kind by kind
  have matrix : ∀ {c : Cell .matrix}, (⟨.matrix, c⟩ : Variable) ∈ t.operands →
      s'.read (ρ .matrix c) = s.read c := fun mem => h.meaning mem
  have integer : ∀ {c : Cell .integer}, (⟨.integer, c⟩ : Variable) ∈ t.operands →
      s'.read (ρ .integer c) = s.read c := fun mem => h.meaning mem
  have number : ∀ {x : Scalar}, x.toVariable ∈ t.operands →
      s'.readScalar (x.rename ρ) = s.readScalar x := fun mem =>
    readScalar_rename (h.mono (by simpa using mem))
  have address : ∀ {x : Address}, (∀ v ∈ x.variables, v ∈ t.operands) → ∀ shape,
      (x.rename ρ).select s' shape = x.select s shape := fun mem =>
    Address.select_rename (h.mono mem)
  cases t with
  | sequence a => exact absurd rfl scalar
  | literal rows => exact Literal.layOut_rename h
  | inserted m source place =>
    simp only [rename, eval, matrix (c := m) (by simp [operands])]
    exact Source.insertInto_rename (h.mono fun w mem => List.mem_cons_of_mem _ mem) _
  | element m place | submatrix m place =>
    simp only [rename, eval, matrix (c := m) (by simp [operands]),
      address (x := place) (by simp +contextual [operands])]
  | _ =>
    simp only [operands, List.mem_cons, List.not_mem_nil, or_false] at matrix integer number
    simp [rename, eval, matrix, integer, number]

/-- The value of a term means the same, also if it is a sequence. -/
theorem Term.meaning_eval_rename {kind : Kind} (t : Term kind) (h : s.Matches ρ s' t.operands) :
    ((t.rename ρ).eval s').map (kind.meaning s'.read) = (t.eval s).map (kind.meaning s.read) := by
  by_cases scalar : kind = .sequence
  · subst scalar
    cases t with
    | sequence a => exact congrArg Except.ok (h.meaning (by simp [operands]))
  · rw [t.eval_rename scalar h]
    have same : kind.meaning s'.read = kind.meaning s.read := by
      funext value
      exact (Kind.meaning_eq_iff scalar).2 rfl
    rw [same]

end Meaning

/-! ### Recipes -/

namespace Recipe

variable (ρ : Renaming)

theorem elementwise_rename (name : String) (f : ElementFn) (whole : Option IntegerFn)
    (a : Variable) :
    elementwise name f whole (a.rename ρ) = (elementwise name f whole a).map (rename ρ) := by
  rcases a with ⟨_ | _ | _ | _, cell⟩ <;> cases whole <;> rfl

theorem ofMatrix_rename (name : String) (f : MatrixFn) (scalar : Option ElementFn)
    (a : Variable) :
    ofMatrix name f scalar (a.rename ρ) = (ofMatrix name f scalar a).map (rename ρ) := by
  rcases a with ⟨_ | _ | _ | _, cell⟩ <;> cases scalar <;> rfl

theorem ofMeasure_rename (name : String) (f : MatrixMeasure) (scalar : ElementFn)
    (whole : Option IntegerFn) (a : Variable) : ofMeasure name f scalar whole (a.rename ρ) =
      (ofMeasure name f scalar whole a).map (rename ρ) := by
  rcases a with ⟨_ | _ | _ | _, cell⟩ <;> cases whole <;> rfl

theorem ofOperator_rename (o : Operator) (a b : Variable) :
    ofOperator o (a.rename ρ) (b.rename ρ) = (ofOperator o a b).map (rename ρ) := by
  obtain ⟨name, scalar, matrix, integer, broadcast⟩ := o
  rcases a with ⟨_ | _ | _ | _, x⟩ <;> rcases b with ⟨_ | _ | _ | _, y⟩ <;> cases matrix <;>
    cases integer <;> cases broadcast <;> rfl

theorem solve_rename (a b : Variable) :
    solve (a.rename ρ) (b.rename ρ) = (solve a b).map (rename ρ) := by
  rcases a with ⟨_ | _ | _ | _, x⟩ <;> rcases b with ⟨_ | _ | _ | _, y⟩ <;> rfl

theorem divide_rename (a b : Variable) :
    divide (a.rename ρ) (b.rename ρ) = (divide a b).map (rename ρ) := by
  rcases a with ⟨_ | _ | _ | _, x⟩ <;> rcases b with ⟨_ | _ | _ | _, y⟩ <;> rfl

theorem binary_rename (s : Symbol) (a b : Variable) :
    binary s (a.rename ρ) (b.rename ρ) = (binary s a b).map (rename ρ) := by
  cases s <;> simp only [binary]
  case plus | minus | times | power | elementTimes | elementDivide | elementPower =>
    exact ofOperator_rename ρ _ a b
  case divideRight => exact divide_rename ρ a b
  case divideLeft => exact divide_rename ρ b a
  all_goals rfl

theorem unary_rename (s : Symbol) (a : Variable) :
    unary s (a.rename ρ) = (unary s a).map (rename ρ) := by
  cases s
  case neg => exact elementwise_rename ρ _ _ _ a
  case transpose => rcases a with ⟨_ | _ | _ | _, cell⟩ <;> rfl
  all_goals rfl

theorem ofFunction1_rename (f : Builtin) (a : Variable) :
    ofFunction1 f (a.rename ρ) = (ofFunction1 f a).map (rename ρ) := by
  cases f
  case inv | pinv | rref | diag => exact ofMatrix_rename ρ _ _ _ a
  case det | trace | normF | max | min | sum => exact ofMeasure_rename ρ _ _ _ _ a
  case abs | sin | cos | atan | exp | log | sqrt => exact elementwise_rename ρ _ _ _ a
  case eye => rcases a with ⟨_ | _ | _ | _, cell⟩ <;> rfl
  all_goals rfl

variable {constant constant' : Cell .integer → Option Int64}

theorem along_rename (name : String) (how : Reduction) (a axis : Variable)
    (same : ∀ c, axis = ⟨.integer, c⟩ → constant' (ρ .integer c) = constant c) :
    along constant' name how (a.rename ρ) (axis.rename ρ) =
      (along constant name how a axis).map (rename ρ) := by
  rcases a with ⟨_ | _ | _ | _, x⟩ <;> rcases axis with ⟨_ | _ | _ | _, y⟩
  case matrix.integer =>
    simp only [Variable.rename, along, same y rfl]
    split <;> rfl
  all_goals rfl

theorem ofFunction2_rename (f : Builtin) (a b : Variable)
    (same : ∀ c, b = ⟨.integer, c⟩ → constant' (ρ .integer c) = constant c) :
    ofFunction2 constant' f (a.rename ρ) (b.rename ρ) =
      (ofFunction2 constant f a b).map (rename ρ) := by
  cases f <;> simp only [ofFunction2]
  case max | min | sum => exact along_rename ρ _ _ a b same
  case atan2 | pow => exact ofOperator_rename ρ _ a b
  case solve => exact solve_rename ρ a b
  case normP | zeros | ones | kron | dot =>
    rcases a with ⟨_ | _ | _ | _, x⟩ <;> rcases b with ⟨_ | _ | _ | _, y⟩ <;> rfl
  all_goals rfl

theorem ofCall_rename (f : Builtin) (args : List Variable)
    (same : ∀ c, ⟨.integer, c⟩ ∈ args → constant' (ρ .integer c) = constant c) :
    ofCall constant' f (args.map (Variable.rename ρ)) =
      (ofCall constant f args).map (rename ρ) := by
  unfold ofCall
  rw [List.length_map]
  split
  · rfl
  · match args with
    | [] => rfl
    | [a] => exact ofFunction1_rename ρ f a
    | [a, b] => exact ofFunction2_rename ρ f a b fun c eq => same c (by simp [eq])
    | a :: b :: c :: rest => simp [Except.map]

theorem ofAddress_rename (m : Cell .matrix) (address : Address) :
    ofAddress (ρ .matrix m) (address.rename ρ) = (ofAddress m address).rename ρ := by
  have single : ∀ i : Index, (i.rename ρ).isSingle = i.isSingle := by
    intro i
    cases i <;> rfl
  have same : (address.rename ρ).isSingle = address.isSingle := by
    cases address <;> simp only [Address.rename, Address.isSingle, single]
  unfold ofAddress
  rw [same]
  split <;> rfl

end Recipe

end MatrixCalc
