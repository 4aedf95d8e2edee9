import MatrixCalc.Proofs.Literals.Layout

/-!
# What is foreseen of a literal

The check of a literal takes numbers to be single entries and sequences to be rows, as long as it
can tell how many indices they have.  Where it is right about that, it refuses no literal that could
be built.

* `IndexSequence.length_of_staticLength` : the number of indices that follows from constants.
* `Literal.checkStatic_of_fits` : **blocks that fit, with the shapes that are foreseen, pass the
  check**.
-/

namespace MatrixCalc

namespace IndexSequence

/-! ### Numbers of indices -/

/-- The closed form counts the terms, as long as there are fewer than `2 ^ 64`. -/
theorem progressionLength_eq {start step stop : Int64} (nonzero : step ≠ 0) :
    progressionLength start step stop =
      if termCount start.toInt step.toInt stop.toInt < Nat.pow 2 64 then
        some (termCount start.toInt step.toInt stop.toInt) else none := by
  have nonzero' := toInt_ne_zero nonzero
  have zero_lt : 0 < Nat.pow 2 64 := by decide
  rw [progressionLength, if_neg nonzero]
  simp only [Int64.lt_iff_toInt_lt, Int64.toInt_zero]
  by_cases up : 0 < step.toInt
  · rw [termCount, if_pos up]
    split
    · have negative : (stop.toInt - start.toInt) / step.toInt < 0 :=
        Int.ediv_neg_of_neg_of_pos (by omega) up
      have none : ((stop.toInt - start.toInt) / step.toInt + 1).toNat = 0 := by omega
      rw [none, if_pos zero_lt]
    · rw [Int.tdiv_eq_ediv_of_nonneg (by omega)]
  · have down : 0 < -step.toInt := by omega
    rw [termCount, if_neg up]
    split
    · have negative : (start.toInt - stop.toInt) / -step.toInt < 0 :=
        Int.ediv_neg_of_neg_of_pos (by omega) down
      have none : ((start.toInt - stop.toInt) / -step.toInt + 1).toNat = 0 := by omega
      rw [none, if_pos zero_lt]
    · rw [← Int.neg_sub start.toInt, ← Int.neg_neg step.toInt, Int.neg_tdiv, Int.tdiv_neg,
        Int.neg_neg, Int.neg_neg, Int.tdiv_eq_ediv_of_nonneg (by omega)]

theorem termCount_of_progressionLength {start step stop : Int64} {n : Nat}
    (known : progressionLength start step stop = some n) :
    termCount start.toInt step.toInt stop.toInt = n := by
  have nonzero : step ≠ 0 := by
    rintro rfl
    cases known
  rw [progressionLength_eq nonzero] at known
  split at known
  · exact Option.some.inj known
  · cases known

variable {constant : Cell .integer → Option Int64} {read : Cell .integer → Int64} {size : Nat}

theorem length_terms_of_progressionLength {start step stop : Int64} {n : Nat}
    (known : progressionLength start step stop = some n) :
    (terms start.toInt step.toInt stop.toInt).length = n := by
  rw [terms, List.length_map, List.length_range, termCount_of_progressionLength known]

theorem listing_progression (start stop : Cell .integer) (step : Option (Cell .integer)) :
    (progression start step stop).listing read size =
      terms (read start).toInt ((step.map read).getD 1).toInt (read stop).toInt := by
  cases step <;> rfl

theorem listing_span (start : Option (Cell .integer)) (stop : Cell .integer) :
    (span start (some stop)).listing read size =
      terms ((start.map read).getD 0).toInt (1 : Int64).toInt (read stop).toInt := by
  cases start <;> rfl

theorem staticLength_progression (start stop : Cell .integer) (step : Option (Cell .integer)) :
    (progression start step stop).staticLength constant = (constant start).bind fun first =>
      (constant stop).bind fun last => (step.elim (some 1) constant).bind fun step =>
        progressionLength first step last := by
  cases step <;> rfl

theorem staticLength_span (start stop : Option (Cell .integer)) :
    (span start stop).staticLength constant = (start.elim (some 0) constant).bind fun first =>
      (stop.bind constant).bind fun last => progressionLength first 1 last := by
  cases start <;> cases stop <;> rfl

/-- The bound of a sequence that is left out has a value of its own. -/
theorem getD_of_elim (holds : ∀ c value, constant c = some value → read c = value)
    {bound : Option (Cell .integer)} {default value : Int64}
    (known : bound.elim (some default) constant = some value) :
    (bound.map read).getD default = value := by
  cases bound with
  | none => exact Option.some.inj known
  | some cell => exact holds cell value known

/-- Where the terms of a progression are counted, they are those of its bounds. -/
theorem progressionLength_of_progression
    (holds : ∀ c value, constant c = some value → read c = value) {start stop : Cell .integer}
    {step : Option (Cell .integer)} {n : Nat}
    (known : (progression start step stop).staticLength constant = some n) :
    progressionLength (read start) ((step.map read).getD 1) (read stop) = some n := by
  rw [staticLength_progression] at known
  obtain ⟨first, start', known⟩ := Option.bind_eq_some_iff.1 known
  obtain ⟨last, stop', known⟩ := Option.bind_eq_some_iff.1 known
  obtain ⟨by', step', counted⟩ := Option.bind_eq_some_iff.1 known
  rw [holds _ _ start', holds _ _ stop', getD_of_elim holds step', counted]

/-- Where the indices of a span are counted, it has an end. -/
theorem progressionLength_of_span (holds : ∀ c value, constant c = some value → read c = value)
    {start stop : Option (Cell .integer)} {n : Nat}
    (known : (span start stop).staticLength constant = some n) :
    ∃ last, stop = some last ∧
      progressionLength ((start.map read).getD 0) 1 (read last) = some n := by
  rw [staticLength_span] at known
  obtain ⟨first, start', known⟩ := Option.bind_eq_some_iff.1 known
  obtain ⟨value, stop', counted⟩ := Option.bind_eq_some_iff.1 known
  obtain ⟨last, rfl, last'⟩ := Option.bind_eq_some_iff.1 stop'
  refine ⟨last, rfl, ?_⟩
  rw [getD_of_elim holds start', holds _ _ last', counted]

/-- The number of indices that follows from constants is the number of integers that the sequence
stands for. -/
theorem length_of_staticLength (holds : ∀ c value, constant c = some value → read c = value)
    {s : IndexSequence} {n : Nat} (known : s.staticLength constant = some n) :
    (s.listing read size).length = n := by
  induction s using IndexSequence.rec (motive_2 := fun parts => ∀ total n,
    staticLengthOfParts constant total parts = some n →
      total + (listingOfParts read size parts).length = n) generalizing n with
  | listed cells =>
    cases known
    exact List.length_map _
  | progression start step stop =>
    rw [listing_progression]
    exact length_terms_of_progressionLength (progressionLength_of_progression holds known)
  | span start stop =>
    obtain ⟨last, rfl, counted⟩ := progressionLength_of_span holds known
    rw [listing_span]
    exact length_terms_of_progressionLength counted
  | joined parts ih =>
    rw [listing, ← ih 0 n known, Nat.zero_add]
  | nil =>
    rename_i total n known
    cases known
    rfl
  | cons part parts one more =>
    rename_i total n known
    rw [staticLengthOfParts] at known
    obtain ⟨first, counted, rest⟩ := Option.bind_eq_some_iff.1 known
    dsimp only at rest
    split at rest
    · rw [listingOfParts, List.length_append, one counted, ← Nat.add_assoc]
      exact more _ _ rest
    · cases rest

end IndexSequence

/-! ### Known shapes -/

namespace Literal

/-- The shapes, as far as they are known, are those of the blocks. -/
def Foresees (shapes : List (Option Shape)) (blocks : List Matrix) : Prop :=
  List.Forall₂ (fun shape b => ∀ known, shape = some known → b.shape = known) shapes blocks

variable {shapes : List (Option Shape)} {blocks : List Matrix}

theorem sameHeights_of_level (foreseen : Foresees shapes blocks) {before : Option Nat} {h : Nat}
    (level : ∀ b ∈ blocks, b.rows = h) (same : ∀ height, before = some height → height = h) :
    sameHeights shapes before = true := by
  induction foreseen generalizing before with
  | nil => rfl
  | @cons shape b shapes blocks first rest ih =>
    obtain ⟨here, later⟩ := List.forall_mem_cons.1 level
    cases shape with
    | none => exact ih later same
    | some shape =>
      have height : shape.rows = h := by rw [← first shape rfl, ← here]; rfl
      have next : ∀ height, some shape.rows = some height → height = h := by
        rintro _ ⟨⟩
        exact height
      cases before with
      | none => exact ih later next
      | some height' =>
        rw [sameHeights, ih later next, height, same height' rfl, beq_self_eq_true]
        rfl

theorem width_of_staticWidth (foreseen : Foresees shapes blocks) {total w : Nat}
    (known : staticWidth total shapes = some w) : w = total + width blocks := by
  induction foreseen generalizing total with
  | nil =>
    cases known
    rfl
  | @cons shape b shapes blocks first rest ih =>
    cases shape with
    | none => cases known
    | some shape =>
      rw [staticWidth] at known
      split at known
      · have cols : shape.cols = b.cols := by rw [← first shape rfl]; rfl
        rw [ih known, width, width, List.map_cons, List.sum_cons, cols, Nat.add_assoc]
      · cases known

variable {s : Store} {constant : Cell .integer → Option Int64}

theorem checkStaticFrom_of_fits {rows : Literal} {blocks : List (List Matrix)}
    (foreseen : List.Forall₂ (fun row => Foresees (row.map (staticShape s constant))) rows blocks)
    (heights : ∀ row ∈ blocks, ∃ h, ∀ b ∈ row, b.rows = h) {w : Nat}
    (widths : ∀ row ∈ blocks, width row = w) {r : Nat} {before : Option Nat}
    (same : ∀ width, before = some width → width = w) :
    checkStaticFrom s constant r before rows = .ok () := by
  induction foreseen generalizing r before with
  | nil => rfl
  | @cons row blocks rows more first rest ih =>
    obtain ⟨⟨h, level⟩, heights⟩ := List.forall_mem_cons.1 heights
    obtain ⟨wide, widths⟩ := List.forall_mem_cons.1 widths
    have even : sameHeights (row.map (staticShape s constant)) none = true :=
      sameHeights_of_level first level (by rintro _ ⟨⟩)
    unfold checkStaticFrom
    simp only [even, Bool.not_true, Bool.false_eq_true, if_false]
    split
    · -- the width of this row is known, and that of an earlier one
      rename_i found expected known
      rw [width_of_staticWidth first known, Nat.zero_add, wide, same expected rfl, if_pos rfl]
      refine ih heights widths ?_
      rintro _ ⟨⟩
      rfl
    · rename_i found known
      refine ih heights widths ?_
      rintro _ ⟨⟩
      rw [width_of_staticWidth first known, Nat.zero_add, wide]
    · exact ih heights widths same

/-- **Blocks that fit, with the shapes that are foreseen, pass the check.** -/
theorem checkStatic_of_fits {rows : Literal} {blocks : List (List Matrix)}
    (foreseen : List.Forall₂ (fun row => Foresees (row.map (staticShape s constant))) rows blocks)
    (fits : Fits blocks) : checkStatic s constant rows = .ok () := by
  obtain ⟨w, widths⟩ := fits.widths
  refine checkStaticFrom_of_fits foreseen fits.heights widths ?_
  rintro _ ⟨⟩

/-! ### Known shapes and later contents -/

/-- The sequence among the variables have the number of indices in a later store that was known in
an earlier one. -/
def Counted (s later : Store) (constant : Cell .integer → Option Int64) (row : List Variable) :
    Prop :=
  ∀ cell : Cell .sequence, ⟨.sequence, cell⟩ ∈ row → ∀ n,
    (s.read cell).staticLength constant = some n →
      ((later.read cell).listing later.read 0).length = n

theorem shape_of_shows {later : Store} {v : Variable} {b : Matrix} (shows : Shows later v b)
    (counted : Counted s later constant [v]) {known : Shape}
    (foreseen : staticShape s constant v = some known) : b.shape = known := by
  rcases v with ⟨_ | _ | _ | _, cell⟩
  case matrix => cases foreseen
  case double =>
    cases foreseen
    exact shows.1
  case integer =>
    cases foreseen
    exact shows.1
  case sequence =>
    obtain ⟨n, length, rfl⟩ := Option.map_eq_some_iff.1 foreseen
    obtain ⟨-, l, listed, shape, -⟩ := shows
    rw [shape, ← counted cell (List.mem_singleton.2 rfl) n length, ← listed, List.length_map]

/-- **What is foreseen holds** of the blocks that a later store shows, if the numbers of indices
that were known are the same. -/
theorem foresees_of_shown {later : Store} {rows : Literal} {blocks : List (List Matrix)}
    (shown : Shown later rows blocks) (counted : Counted s later constant rows.flatten) :
    List.Forall₂ (fun row => Foresees (row.map (staticShape s constant))) rows blocks := by
  induction shown with
  | nil => exact .nil
  | @cons row blocks rows more first rest ih =>
    rw [List.flatten_cons] at counted
    refine .cons ?_ (ih fun cell mem => counted cell (List.mem_append_right _ mem))
    rw [Foresees, List.forall₂_map_left_iff]
    refine ((List.forall₂_and_left _ _).2 ⟨fun v mem => mem, first⟩).imp fun v b both known => ?_
    refine shape_of_shows both.2 fun cell mem => counted cell (List.mem_append_left _ ?_)
    rw [List.mem_singleton.1 mem]
    exact both.1

end Literal

end MatrixCalc
