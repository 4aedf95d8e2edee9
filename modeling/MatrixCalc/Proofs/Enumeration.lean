import MatrixCalc.Proofs.Renaming

/-!
# What sequences enumerate

The indices of a sequence are produced one at a time, with additions that end a progression where
the sum is no 64-bit integer.  `IndexSequence.listing` is what a sequence stands for: lists of
integers without bounds, with a progression given by its first term, its step and its number of
terms.

* `lt_termCount` : a term of a progression is counted iff it has not passed the end.
* `Runs.Yields` : the indices that come out of a list of runs, one after another, until none is
  left.
* `Runs.toList_stepped` : the indices of a progression are its terms, also next to the largest
  and smallest integers.
* `IndexSequence.enumerates` : **a sequence yields what it stands for, unless a step is zero**.
-/

namespace MatrixCalc

/-! ### Progressions of integers -/

/-- The integer has not passed the end of a progression. -/
def Within (step stop i : Int) : Prop := if 0 < step then i ≤ stop else stop ≤ i

instance (step stop i : Int) : Decidable (Within step stop i) := by
  unfold Within
  infer_instance

/-- The number of terms of a progression. -/
def termCount (start step stop : Int) : Nat :=
  if 0 < step then ((stop - start) / step + 1).toNat else ((start - stop) / -step + 1).toNat

/-- The terms `start`, `start + step`, `start + 2 * step` and so on, as long as they have not
passed `stop`. -/
def terms (start step stop : Int) : List Int :=
  (List.range (termCount start step stop)).map fun k : Nat => start + (k : Int) * step

section

variable {start step stop : Int}

/-- Exactly the terms that have not passed the end are counted. -/
theorem lt_termCount (nonzero : step ≠ 0) (k : Nat) :
    k < termCount start step stop ↔ Within step stop (start + k * step) := by
  by_cases up : 0 < step
  · have reached : (k : Int) ≤ (stop - start) / step ↔ k * step ≤ stop - start :=
      Int.le_ediv_iff_mul_le up
    simp only [termCount, Within, if_pos up]
    omega
  · have down : 0 < -step := by omega
    have reached : (k : Int) ≤ (start - stop) / -step ↔ k * -step ≤ start - stop :=
      Int.le_ediv_iff_mul_le down
    have flip : (k : Int) * -step = -(k * step) := Int.mul_neg ..
    simp only [termCount, Within, if_neg up]
    omega

theorem termCount_eq (nonzero : step ≠ 0) {n : Nat}
    (counted : ∀ k : Nat, k < n ↔ Within step stop (start + k * step)) :
    termCount start step stop = n :=
  eq_of_forall_lt_iff fun k => (lt_termCount nonzero k).trans (counted k).symm

/-- Behind a term that has passed the end all have. -/
theorem not_within_add (passed : ¬ Within step stop start) (k : Nat) :
    ¬ Within step stop (start + k * step) := by
  by_cases up : 0 < step
  · have farther : 0 ≤ (k : Int) * step := Int.mul_nonneg (Int.natCast_nonneg k) up.le
    simp only [Within, if_pos up] at passed ⊢
    omega
  · have farther : (k : Int) * step ≤ 0 :=
      Int.mul_nonpos_of_nonneg_of_nonpos (Int.natCast_nonneg k) (by omega)
    simp only [Within, if_neg up] at passed ⊢
    omega

theorem terms_of_not_within (nonzero : step ≠ 0) (passed : ¬ Within step stop start) :
    terms start step stop = [] := by
  have count : termCount start step stop = 0 :=
    termCount_eq nonzero fun k => by simp [not_within_add passed k]
  rw [terms, count]
  rfl

theorem terms_of_within (nonzero : step ≠ 0) (within : Within step stop start) :
    terms start step stop = start :: terms (start + step) step stop := by
  have shift (k : Nat) : start + ((k + 1 : Nat) : Int) * step = start + step + k * step := by
    push_cast
    ring
  have count : termCount start step stop = termCount (start + step) step stop + 1 := by
    refine termCount_eq nonzero fun k => ?_
    cases k with
    | zero => simpa using within
    | succ k => rw [Nat.add_lt_add_iff_right, lt_termCount nonzero, shift]
  simp only [terms, count, List.range_succ_eq_map, List.map_cons, List.map_map]
  congr 1
  · simp
  · exact List.map_congr_left fun k _ => shift k

end

/-! ### Progressions of 64-bit integers -/

theorem within_toInt (step stop i : Int64) :
    Within step.toInt stop.toInt i.toInt ↔ Run.reaches step stop i = true := by
  by_cases up : 0 < step
  · have up' : 0 < step.toInt := Int64.lt_iff_toInt_lt.1 up
    simp only [Within, if_pos up', Run.reaches, if_pos up, decide_eq_true_eq,
      Int64.le_iff_toInt_le]
  · have up' : ¬ 0 < step.toInt := fun positive => up (Int64.lt_iff_toInt_lt.2 positive)
    simp only [Within, if_neg up', Run.reaches, if_neg up, decide_eq_true_eq,
      Int64.le_iff_toInt_le]

theorem toInt_ne_zero {step : Int64} (h : step ≠ 0) : step.toInt ≠ 0 :=
  fun zero => h (Int64.toInt_inj.1 (zero.trans Int64.toInt_zero.symm))

/-- Where the sum is no 64-bit integer, it has passed every end. -/
theorem not_within_of_checkedAdd {i step : Int64} (h : checkedAdd i step = none) (stop : Int64) :
    ¬ Within step.toInt stop.toInt (i.toInt + step.toInt) := by
  have outside : ¬ (Int64.minValue.toInt ≤ i.toInt + step.toInt ∧
      i.toInt + step.toInt ≤ Int64.maxValue.toInt) := by
    intro inside
    rw [checkedAdd, if_pos inside] at h
    cases h
  rw [toInt_minValue, toInt_maxValue] at outside
  have := i.le_toInt
  have := i.toInt_lt
  have := stop.le_toInt
  have := stop.toInt_lt
  by_cases up : 0 < step.toInt
  · simp only [Within, if_pos up]
    omega
  · simp only [Within, if_neg up]
    omega

namespace Runs

variable {runs : List Run} {l : List Int64}

/-- The runs hand out these indices, one after another, and then have none left. -/
inductive Yields : List Run → List Int64 → Prop
  | done {runs : List Run} (none_left : next? runs = none) : Yields runs []
  | more {runs rest : List Run} {i : Int64} {l : List Int64} (first : next? runs = some (i, rest))
      (others : Yields rest l) : Yields runs (i :: l)

/-- Every list of runs comes to an end, with its list of indices. -/
theorem yields_iff : Yields runs l ↔ toList runs = l := by
  constructor
  · intro yields
    induction yields with
    | done none_left => exact toList_of_next?_eq_none none_left
    | more first _ ih => rw [toList_of_next? first, ih]
  · rintro rfl
    -- each index that is handed out leaves fewer behind
    induction remaining : Runs.remaining runs using Nat.strong_induction_on generalizing runs with
    | _ n ih =>
      cases next : next? runs with
      | none =>
        rw [toList_of_next?_eq_none next]
        exact .done next
      | some found =>
        obtain ⟨i, rest⟩ := found
        rw [toList_of_next? next]
        exact .more next (ih _ (remaining ▸ remaining_next?_lt next) rfl)

theorem toList_listed (values : List Int64) : toList [.listed values] = values := by
  induction values with
  | nil => exact toList_of_next?_eq_none rfl
  | cons i values ih => rw [@toList_of_next? _ [.listed values] i rfl, ih]

theorem toList_stepped_none {step stop : Int64} (nonzero : step ≠ 0) :
    toList [.stepped none step stop nonzero] = [] := toList_of_next?_eq_none rfl

/-- A progression of 64-bit integers has the terms of the progression of integers. -/
theorem toList_stepped (i step stop : Int64) (nonzero : step ≠ 0) :
    (toList [.stepped (some i) step stop nonzero]).map Int64.toInt =
      terms i.toInt step.toInt stop.toInt := by
  have nonzero' := toInt_ne_zero nonzero
  -- on the number of terms from `i` on
  induction count : termCount i.toInt step.toInt stop.toInt generalizing i with
  | zero =>
    have passed : ¬ Within step.toInt stop.toInt i.toInt := by
      have none : ¬ 0 < termCount i.toInt step.toInt stop.toInt := by omega
      rw [lt_termCount nonzero'] at none
      simpa using none
    rw [terms_of_not_within nonzero' passed]
    rw [within_toInt, Bool.not_eq_true] at passed
    have next : next? [.stepped (some i) step stop nonzero] = none := by
      simp [next?, Run.next?, passed]
    rw [toList_of_next?_eq_none next]
    rfl
  | succ n ih =>
    have within : Within step.toInt stop.toInt i.toInt := by
      have one : 0 < termCount i.toInt step.toInt stop.toInt := by omega
      rw [lt_termCount nonzero'] at one
      simpa using one
    have rest := terms_of_within nonzero' within
    have next : next? [.stepped (some i) step stop nonzero] =
        some (i, [.stepped (checkedAdd i step) step stop nonzero]) := by
      simp [next?, Run.next?, (within_toInt step stop i).1 within]
    rw [toList_of_next? next, List.map_cons, rest]
    congr 1
    cases sum : checkedAdd i step with
    | none =>
      rw [toList_stepped_none, terms_of_not_within nonzero' (not_within_of_checkedAdd sum stop)]
      rfl
    | some j =>
      rw [← toInt_checkedAdd sum]
      refine ih j ?_
      have lengths := congrArg List.length rest
      simp only [terms, List.length_map, List.length_range, List.length_cons] at lengths
      rw [toInt_checkedAdd sum]
      omega

end Runs

namespace IndexSequence

/-! ### What a sequence stands for -/

mutual

/-- The integers that a sequence stands for, given the contents of its bounds and the size of what
it addresses. -/
def listing (read : Cell .integer → Int64) (size : Nat) : IndexSequence → List Int
  | listed cells => cells.map fun c => (read c).toInt
  | progression start step stop =>
    terms (read start).toInt ((step.map fun c => (read c).toInt).getD 1) (read stop).toInt
  | span start stop =>
    terms ((start.map fun c => (read c).toInt).getD 0) 1
      ((stop.map fun c => (read c).toInt).getD (size - 1))
  | joined parts => listingOfParts read size parts

/-- The integers of a list of sequences, one sequence after another. -/
def listingOfParts (read : Cell .integer → Int64) (size : Nat) :
    List IndexSequence → List Int
  | [] => []
  | part :: parts => listing read size part ++ listingOfParts read size parts

end

/-- The sequence is a part of another, at any depth. -/
inductive PartOf (s : IndexSequence) : IndexSequence → Prop
  | itself : PartOf s s
  | part {part : IndexSequence} {parts : List IndexSequence} (mem : part ∈ parts)
      (inside : PartOf s part) : PartOf s (joined parts)

/-- Some progression anywhere in the sequence has step zero. -/
def HasZeroStep (read : Cell .integer → Int64) (s : IndexSequence) : Prop :=
  ∃ start step stop, PartOf (progression start (some step) stop) s ∧ read step = 0

variable {read : Cell .integer → Int64} {size : Nat}

theorem not_hasZeroStep_listed (cells : List (Cell .integer)) :
    ¬ HasZeroStep read (listed cells) := by
  rintro ⟨_, _, _, inside, -⟩
  cases inside

theorem not_hasZeroStep_span (start stop : Option (Cell .integer)) :
    ¬ HasZeroStep read (span start stop) := by
  rintro ⟨_, _, _, inside, -⟩
  cases inside

theorem hasZeroStep_progression {start stop : Cell .integer} {step : Option (Cell .integer)} :
    HasZeroStep read (progression start step stop) ↔ (step.map read).getD 1 = 0 := by
  constructor
  · rintro ⟨_, _, _, inside, zero⟩
    cases inside
    exact zero
  · intro zero
    cases step with
    | none => cases zero
    | some step => exact ⟨start, step, stop, .itself, zero⟩

theorem hasZeroStep_joined {parts : List IndexSequence} :
    HasZeroStep read (joined parts) ↔ ∃ part ∈ parts, HasZeroStep read part := by
  constructor
  · rintro ⟨start, step, stop, inside, zero⟩
    cases inside with
    | part mem inside => exact ⟨_, mem, start, step, stop, inside, zero⟩
  · rintro ⟨part, mem, start, step, stop, inside, zero⟩
    exact ⟨start, step, stop, .part mem inside, zero⟩

theorem toInt_lastIndex (fits : size ≤ 2 ^ 63 - 1) : (lastIndex size).toInt = size - 1 := by
  have least : min size (Nat.pow 2 63 - 1) = size := Nat.min_eq_left fits
  rw [lastIndex, least]
  exact Int64.toInt_ofInt_of_le (by omega) (by omega)

theorem ofProgression_of_ne {start step stop : Int64} (nonzero : step ≠ 0) :
    Run.ofProgression start step stop = .ok (.stepped (some start) step stop nonzero) :=
  dif_neg nonzero

/-- There are runs, and they list these integers. -/
def Lists (found : Except NumericFailure (List Run)) (expected : List Int) : Prop :=
  ∃ runs, found = .ok runs ∧ (Runs.toList runs).map Int64.toInt = expected

theorem lists_progression {start stop : Cell .integer} {step : Option (Cell .integer)}
    (nonzero : (step.map read).getD 1 ≠ 0) :
    Lists ((progression start step stop).runs read size)
      ((progression start step stop).listing read size) := by
  refine ⟨_, by rw [runs, ofProgression_of_ne nonzero]; rfl, ?_⟩
  rw [Runs.toList_stepped, listing]
  cases step <;> rfl

theorem lists_span (fits : size ≤ 2 ^ 63 - 1) (start stop : Option (Cell .integer)) :
    Lists ((span start stop).runs read size) ((span start stop).listing read size) := by
  have one : (1 : Int64) ≠ 0 := by decide
  refine ⟨_, by rw [runs, ofProgression_of_ne one]; rfl, ?_⟩
  rw [Runs.toList_stepped, listing]
  cases start <;> cases stop <;> simp [toInt_lastIndex fits]

/-- A sequence fails where a step is zero, and otherwise its runs list what it stands for. -/
theorem runs_correct (fits : size ≤ 2 ^ 63 - 1) (s : IndexSequence) :
    (s.HasZeroStep read → s.runs read size = .error .zeroStep) ∧
    (¬ s.HasZeroStep read → Lists (s.runs read size) (s.listing read size)) := by
  induction s using IndexSequence.rec (motive_2 := fun parts =>
    ((∃ part ∈ parts, HasZeroStep read part) →
      runsOfParts read size parts = .error .zeroStep) ∧
    ((¬ ∃ part ∈ parts, HasZeroStep read part) →
      Lists (runsOfParts read size parts) (listingOfParts read size parts))) with
  | listed cells =>
    refine ⟨fun zero => absurd zero (not_hasZeroStep_listed cells), fun _ => ⟨_, rfl, ?_⟩⟩
    rw [Runs.toList_listed, List.map_map]
    rfl
  | progression start step stop =>
    rw [hasZeroStep_progression]
    refine ⟨fun zero => ?_, lists_progression⟩
    rw [runs, zero]
    rfl
  | span start stop =>
    exact ⟨fun zero => absurd zero (not_hasZeroStep_span start stop),
      fun _ => lists_span fits start stop⟩
  | joined parts ih =>
    rw [hasZeroStep_joined]
    exact ih
  | nil =>
    refine ⟨?_, fun _ => ⟨[], rfl, by rw [Runs.toList_of_next?_eq_none rfl]; rfl⟩⟩
    rintro ⟨part, mem, -⟩
    cases mem
  | cons part parts one more =>
    simp only [List.mem_cons, exists_eq_or_imp]
    by_cases zero : part.HasZeroStep read
    · refine ⟨fun _ => ?_, fun none => absurd (.inl zero) none⟩
      rw [runsOfParts, one.1 zero]
      rfl
    · obtain ⟨first, found, listed⟩ := one.2 zero
      simp only [zero, false_or, runsOfParts, found]
      refine ⟨fun later => by rw [more.1 later]; rfl, fun none => ?_⟩
      obtain ⟨rest, found', listed'⟩ := more.2 none
      refine ⟨first ++ rest, by rw [found']; rfl, ?_⟩
      rw [Runs.toList_append, List.map_append, listed, listed', listingOfParts]

/-- **A sequence yields what it stands for.**  Against a size up to `2 ^ 63 - 1` it fails iff a
step of a progression in it is zero.  Otherwise handing out its indices comes to an end, and they
are, in order, the integers that it stands for. -/
theorem enumerates (read : Cell .integer → Int64) {size : Nat} (fits : size ≤ 2 ^ 63 - 1)
    (s : IndexSequence) :
    (s.runs read size = .error .zeroStep ↔ s.HasZeroStep read) ∧
    (¬ s.HasZeroStep read → ∃ runs l, s.runs read size = .ok runs ∧ Runs.Yields runs l ∧
      l.map Int64.toInt = s.listing read size) := by
  obtain ⟨fails, succeeds⟩ := @runs_correct read _ fits s
  refine ⟨⟨fun failed => ?_, fails⟩, fun nonzero => ?_⟩
  · by_contra nonzero
    obtain ⟨runs, ok, -⟩ := succeeds nonzero
    cases failed.symm.trans ok
  · obtain ⟨runs, ok, listed⟩ := succeeds nonzero
    exact ⟨runs, _, ok, Runs.yields_iff.2 rfl, listed⟩

/-- Next to the largest and the smallest integer a progression ends and does not wrap around. -/
theorem enumerates_of_extremes :
    let read (c : Cell .integer) : Int64 :=
      [Int64.maxValue - 1, Int64.maxValue, Int64.minValue + 1, -1, Int64.minValue].getD c.id 0
    let s := joined [progression ⟨0⟩ none ⟨1⟩, progression ⟨2⟩ (some ⟨3⟩) ⟨4⟩, span none none]
    2 ≤ 2 ^ 63 - 1 ∧ ¬ s.HasZeroStep read ∧
      ∃ runs l, s.runs read 2 = .ok runs ∧ Runs.Yields runs l ∧ l.map Int64.toInt =
        [2 ^ 63 - 2, 2 ^ 63 - 1, -2 ^ 63 + 1, -2 ^ 63, 0, 1] := by
  intro read s
  have nonzero : ¬ s.HasZeroStep read := by
    simp [s, read, hasZeroStep_joined, hasZeroStep_progression, not_hasZeroStep_span]
  obtain ⟨runs, l, ok, yields, values⟩ := (@enumerates read 2 (by decide) s).2 nonzero
  exact ⟨by decide, nonzero, runs, l, ok, yields, values.trans (by decide +kernel)⟩

end IndexSequence

end MatrixCalc
