import MatrixCalc.Proofs.Literals.Foreseen

/-!
# Counting indices ahead

The number of indices of a sequence is computed from its bounds, without enumerating them.  It is
found by a division, where the enumeration takes one step after another, and given up where it does
not fit into a machine word.

* `IndexSequence.parts_induction` : induction on a sequence, for all parts of a joined one at once.
* `IndexSequence.runs_congr_size` : a sequence that needs no size has the same indices for all.
* `IndexSequence.steady_of_staticLength` : what is counted ahead needs no size and cannot fail.
* `IndexSequence.staticLength_of_known` : where the bounds are known, the count is found.
* `IndexSequence.staticLength_agrees` : **the count is the number of indices enumerated**.
-/

namespace MatrixCalc

namespace IndexSequence

variable {constant : Cell .integer → Option Int64} {read : Cell .integer → Int64} {size : Nat}
  {s : IndexSequence} {parts : List IndexSequence}

/-- Induction on a sequence, for all parts of a joined one at once. -/
@[elab_as_elim]
theorem parts_induction {P : IndexSequence → Prop} (listed : ∀ cells, P (listed cells))
    (progression : ∀ start step stop, P (progression start step stop))
    (span : ∀ start stop, P (span start stop))
    (joined : ∀ parts, (∀ part ∈ parts, P part) → P (joined parts)) (s : IndexSequence) : P s := by
  induction s using IndexSequence.rec (motive_2 := fun parts => ∀ part ∈ parts, P part) with
  | listed cells => exact listed cells
  | progression start step stop => exact progression start step stop
  | span start stop => exact span start stop
  | joined parts ih => exact joined parts ih
  | nil =>
    rename_i mem
    cases mem
  | cons part parts one more =>
    rename_i mem
    rcases List.mem_cons.1 mem with rfl | mem
    · exact one
    · exact more _ mem

/-! ### Open ends -/

theorem anyNeedsSize_eq_false_iff :
    anyNeedsSize parts = false ↔ ∀ part ∈ parts, part.needsSize = false := by
  induction parts with
  | nil => simp [anyNeedsSize]
  | cons part parts ih => simp [anyNeedsSize, ih]

/-- A sequence needs a size iff a span in it has no end. -/
theorem needsSize_eq_false_iff :
    s.needsSize = false ↔ ∀ start, ¬ PartOf (span start none) s := by
  induction s using parts_induction with
  | listed cells =>
    refine ⟨fun _ start inside => ?_, fun _ => rfl⟩
    cases inside
  | progression start step stop =>
    refine ⟨fun _ start inside => ?_, fun _ => rfl⟩
    cases inside
  | span start stop =>
    cases stop with
    | none =>
      refine ⟨fun closed => ?_, fun closed => absurd .itself (closed start)⟩
      cases closed
    | some stop =>
      refine ⟨fun _ start inside => ?_, fun _ => rfl⟩
      cases inside
  | joined parts ih =>
    rw [needsSize, anyNeedsSize_eq_false_iff]
    constructor
    · intro closed start inside
      cases inside with
      | part mem inside => exact (ih _ mem).1 (closed _ mem) start inside
    · exact fun closed part mem => (ih part mem).2 fun start inside =>
        closed start (.part mem inside)

theorem runsOfParts_congr {size' : Nat}
    (same : ∀ part ∈ parts, part.runs read size = part.runs read size') :
    runsOfParts read size parts = runsOfParts read size' parts := by
  induction parts with
  | nil => rfl
  | cons part parts ih =>
    obtain ⟨first, rest⟩ := List.forall_mem_cons.1 same
    rw [runsOfParts, runsOfParts, first, ih rest]

/-- A sequence that needs no size has the same runs, or the same failure, for every size. -/
theorem runs_congr_size (closed : s.needsSize = false) (size size' : Nat) :
    s.runs read size = s.runs read size' := by
  induction s using parts_induction with
  | listed cells => rfl
  | progression start step stop => rfl
  | span start stop =>
    cases stop with
    | none => cases closed
    | some stop => rfl
  | joined parts ih =>
    rw [needsSize, anyNeedsSize_eq_false_iff] at closed
    exact runsOfParts_congr fun part mem => ih part mem (closed part mem)

/-- A sequence without open ends and steps of zero has its runs for every size. -/
theorem lists_of_closed (closed : s.needsSize = false) (nonzero : ¬ s.HasZeroStep read)
    (size : Nat) : Lists (s.runs read size) (s.listing read 0) := by
  rw [runs_congr_size closed size 0]
  exact (runs_correct (Nat.zero_le _) s).2 nonzero

/-! ### What is counted ahead -/

theorem exists_of_staticLengthOfParts {total n : Nat}
    (known : staticLengthOfParts constant total parts = some n) :
    ∀ part ∈ parts, ∃ m, part.staticLength constant = some m := by
  induction parts generalizing total with
  | nil => exact List.forall_mem_nil _
  | cons part parts ih =>
    rw [staticLengthOfParts] at known
    obtain ⟨m, counted, rest⟩ := Option.bind_eq_some_iff.1 known
    dsimp only at rest
    split at rest
    · exact List.forall_mem_cons.2 ⟨⟨m, counted⟩, ih rest⟩
    · cases rest

/-- A sequence whose indices are counted ahead needs no size, and no step in it is zero. -/
theorem steady_of_staticLength (holds : ∀ c value, constant c = some value → read c = value)
    {n : Nat} (known : s.staticLength constant = some n) :
    s.needsSize = false ∧ ¬ s.HasZeroStep read := by
  induction s using parts_induction generalizing n with
  | listed cells => exact ⟨rfl, not_hasZeroStep_listed cells⟩
  | progression start step stop =>
    refine ⟨rfl, fun zero => ?_⟩
    have counted := progressionLength_of_progression holds known
    rw [hasZeroStep_progression.1 zero] at counted
    cases counted
  | span start stop =>
    obtain ⟨last, rfl, -⟩ := progressionLength_of_span holds known
    exact ⟨rfl, not_hasZeroStep_span start _⟩
  | joined parts ih =>
    have counted := exists_of_staticLengthOfParts known
    rw [needsSize, anyNeedsSize_eq_false_iff, hasZeroStep_joined]
    constructor
    · intro part mem
      obtain ⟨m, known⟩ := counted part mem
      exact (ih part mem known).1
    · rintro ⟨part, mem, zero⟩
      obtain ⟨m, known⟩ := counted part mem
      exact (ih part mem known).2 zero

/-! ### What can be counted ahead -/

theorem elim_of_known (holds : ∀ c value, constant c = some value → read c = value)
    {bound : Option (Cell .integer)} (default : Int64)
    (known : ∀ c ∈ bound, ∃ value, constant c = some value) :
    bound.elim (some default) constant = some ((bound.map read).getD default) := by
  cases bound with
  | none => rfl
  | some cell =>
    obtain ⟨value, eq⟩ := known cell rfl
    rw [Option.elim_some, Option.map_some, Option.getD_some, eq, holds _ _ eq]

theorem constant_of_known (holds : ∀ c value, constant c = some value → read c = value)
    {cell : Cell .integer} (known : ∃ value, constant cell = some value) :
    constant cell = some (read cell) := by
  obtain ⟨value, eq⟩ := known
  rw [eq, holds _ _ eq]

theorem progressionLength_of_short {start step stop : Int64} (nonzero : step ≠ 0)
    (fits : (terms start.toInt step.toInt stop.toInt).length < 2 ^ 64) :
    progressionLength start step stop =
      some (terms start.toInt step.toInt stop.toInt).length := by
  rw [terms, List.length_map, List.length_range] at fits ⊢
  rw [progressionLength_eq nonzero]
  exact if_pos fits

/-- A sum that fits is found from its parts: no part of it can pass the bound. -/
theorem staticLengthOfParts_of_known {total : Nat}
    (counted : ∀ part ∈ parts, (part.listing read size).length < 2 ^ 64 →
      part.staticLength constant = some (part.listing read size).length)
    (fits : total + (listingOfParts read size parts).length < 2 ^ 64) :
    staticLengthOfParts constant total parts =
      some (total + (listingOfParts read size parts).length) := by
  induction parts generalizing total with
  | nil => rfl
  | cons part parts ih =>
    obtain ⟨first, rest⟩ := List.forall_mem_cons.1 counted
    rw [listingOfParts, List.length_append, ← Nat.add_assoc] at fits ⊢
    rw [staticLengthOfParts, first (by omega), ← ih rest fits]
    exact if_pos (show total + (part.listing read size).length < 2 ^ 64 by omega)

/-- **The number of indices is found ahead** where the bounds are known, unless it does not fit. -/
theorem staticLength_of_known (holds : ∀ c value, constant c = some value → read c = value)
    (known : ∀ c ∈ s.cells, ∃ value, constant c = some value) (closed : s.needsSize = false)
    (nonzero : ¬ s.HasZeroStep read) (fits : (s.listing read size).length < 2 ^ 64) :
    s.staticLength constant = some (s.listing read size).length := by
  induction s using parts_induction with
  | listed cells => exact congrArg some (List.length_map _).symm
  | progression start step stop =>
    have step' := elim_of_known holds 1 fun c (mem : c ∈ step) =>
      known c (by simp [cells, Option.mem_def.1 mem])
    rw [hasZeroStep_progression] at nonzero
    rw [listing_progression] at fits ⊢
    rw [staticLength_progression, constant_of_known holds (known start (by simp [cells])),
      constant_of_known holds (known stop (by simp [cells])), step']
    exact progressionLength_of_short nonzero fits
  | span start stop =>
    cases stop with
    | none => cases closed
    | some stop =>
      have start' := elim_of_known holds 0 fun c (mem : c ∈ start) =>
        known c (by simp [cells, Option.mem_def.1 mem])
      rw [listing_span] at fits ⊢
      rw [staticLength_span, start', Option.bind_some, Option.bind_some,
        constant_of_known holds (known stop (by simp [cells]))]
      exact progressionLength_of_short (by decide) fits
  | joined parts ih =>
    rw [cells, cellsOfParts_eq] at known
    rw [needsSize, anyNeedsSize_eq_false_iff] at closed
    rw [hasZeroStep_joined] at nonzero
    have counted := @staticLengthOfParts_of_known constant read size parts 0 (fun part mem short =>
      ih part mem (fun c inside => known c (List.mem_flatMap.2 ⟨part, mem, inside⟩))
        (closed part mem) (fun zero => nonzero ⟨part, mem, zero⟩) short)
    rw [Nat.zero_add] at counted
    exact counted fits

/-- **The count agrees with the enumeration.**  Let `constant` know the values of some cells.  Where
it counts the indices, the sequence needs no size, and for every size exactly so many are handed
out.  Where it knows all cells, no end is open and no step is zero, it counts the indices, if there
are fewer than `2 ^ 64`.  A sequence that needs no size enumerates the same, or fails alike, for
every size. -/
theorem staticLength_agrees (s : IndexSequence) {constant : Cell .integer → Option Int64}
    {read : Cell .integer → Int64} (holds : ∀ c value, constant c = some value → read c = value) :
    (∀ n, s.staticLength constant = some n → s.needsSize = false ∧
      ∀ size, ∃ runs l, s.runs read size = .ok runs ∧ Runs.Yields runs l ∧ l.length = n) ∧
    ((∀ c ∈ s.cells, ∃ value, constant c = some value) →
      (∀ start, ¬ PartOf (span start none) s) → ¬ s.HasZeroStep read →
      ∀ size, ∃ runs l, s.runs read size = .ok runs ∧ Runs.Yields runs l ∧
        (l.length < 2 ^ 64 → s.staticLength constant = some l.length)) ∧
    (s.needsSize = false → ∀ size size', s.runs read size = s.runs read size') := by
  refine ⟨fun n known => ?_, fun known closed nonzero size => ?_, runs_congr_size⟩
  · obtain ⟨closed, nonzero⟩ := steady_of_staticLength holds known
    refine ⟨closed, fun size => ?_⟩
    obtain ⟨runs, ok, listed⟩ := lists_of_closed closed nonzero size
    refine ⟨runs, _, ok, Runs.yields_iff.2 rfl, ?_⟩
    rw [← length_of_staticLength holds known, ← listed, List.length_map]
  · rw [← needsSize_eq_false_iff] at closed
    obtain ⟨runs, ok, listed⟩ := lists_of_closed closed nonzero size
    have length : (s.listing read 0).length = (Runs.toList runs).length := by
      rw [← listed, List.length_map]
    refine ⟨runs, _, ok, Runs.yields_iff.2 rfl, fun fits => ?_⟩
    rw [← length]
    exact staticLength_of_known holds known closed nonzero (length ▸ fits)

/-- All integers from the smallest to the largest are too many, but half of them are not. -/
theorem staticLength_agrees_at_extremes :
    let constant (c : Cell .integer) : Option Int64 :=
      [Int64.minValue, Int64.maxValue, 2, 0][c.id]?
    let read (c : Cell .integer) : Int64 := (constant c).getD 0
    let s := joined [progression ⟨0⟩ (some ⟨2⟩) ⟨1⟩, listed [⟨3⟩]]
    (∀ c value, constant c = some value → read c = value) ∧
      (progression ⟨0⟩ none ⟨1⟩).staticLength constant = none ∧
      s.staticLength constant = some (2 ^ 63 + 1) ∧ s.needsSize = false ∧
      ∀ size, ∃ runs l, s.runs read size = .ok runs ∧ Runs.Yields runs l ∧
        l.length = 2 ^ 63 + 1 := by
  intro constant read s
  have holds : ∀ c value, constant c = some value → read c = value := by
    intro c value known
    show (constant c).getD 0 = value
    rw [known, Option.getD_some]
  have counted : s.staticLength constant = some (2 ^ 63 + 1) := by decide +kernel
  exact ⟨holds, by decide +kernel, counted, (staticLength_agrees s holds).1 _ counted⟩

end IndexSequence

end MatrixCalc
