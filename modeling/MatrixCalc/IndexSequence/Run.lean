import MatrixCalc.Error

/-!
# Runs of indices

A `Run` is a list of indices or an arithmetic progression that has not been enumerated yet.  A
list of runs stands for their concatenation; its indices are produced one at a time, so a long
progression costs nothing until it is consumed.  Progressions end instead of wrapping around at
the ends of the 64-bit integers.

* `Runs.remaining_next?_lt` : every index produced leaves less to produce, so consumption ends.
-/

namespace MatrixCalc

theorem toInt_minValue : Int64.minValue.toInt = -9223372036854775808 := by decide

theorem toInt_maxValue : Int64.maxValue.toInt = 9223372036854775807 := by decide

/-- The sum of two integers, if it is a 64-bit integer. -/
def checkedAdd (a b : Int64) : Option Int64 :=
  let sum := a.toInt + b.toInt
  if Int64.minValue.toInt ≤ sum ∧ sum ≤ Int64.maxValue.toInt then some (Int64.ofInt sum) else none

theorem toInt_checkedAdd {a b c : Int64} (h : checkedAdd a b = some c) :
    c.toInt = a.toInt + b.toInt := by
  simp only [checkedAdd] at h
  split at h
  · rename_i range
    simp only [Option.some.injEq] at h
    subst h
    rw [toInt_minValue, toInt_maxValue] at range
    exact Int64.toInt_ofInt_of_le (by omega) (by omega)
  · simp at h

/-- A part of a sequence of indices. -/
inductive Run where
  /-- Indices written out. -/
  | listed (values : List Int64)
  /-- The indices from `next` on in steps of `step`, as long as they do not pass `stop`. -/
  | stepped (next : Option Int64) (step stop : Int64) (step_ne : step ≠ 0)

namespace Run

/-- The index has not passed the end of a progression. -/
def reaches (step stop i : Int64) : Bool := if 0 < step then i ≤ stop else stop ≤ i

/-- The first index and what is left. -/
def next? : Run → Option (Int64 × Run)
  | listed [] => none
  | listed (i :: values) => some (i, listed values)
  | stepped none _ _ _ => none
  | stepped (some i) step stop step_ne =>
    if reaches step stop i then some (i, stepped (checkedAdd i step) step stop step_ne) else none

/-- A bound for the number of indices left. -/
def remaining : Run → Nat
  | listed values => values.length
  | stepped none _ _ _ => 0
  | stepped (some i) step _ _ =>
    if 0 < step then (Int64.maxValue.toInt + 1 - i.toInt).toNat
    else (i.toInt - Int64.minValue.toInt + 1).toNat

theorem remaining_next?_lt {r r' : Run} {i : Int64} (h : r.next? = some (i, r')) :
    r'.remaining < r.remaining := by
  unfold next? at h
  split at h
  · simp at h
  · simp only [Option.some.injEq, Prod.mk.injEq] at h
    obtain ⟨-, rfl⟩ := h
    simp [remaining]
  · simp at h
  · rename_i j step stop step_ne
    split at h
    · simp only [Option.some.injEq, Prod.mk.injEq] at h
      obtain ⟨-, rfl⟩ := h
      have low := j.le_toInt
      have high := j.toInt_lt
      have least := toInt_minValue
      have greatest := toInt_maxValue
      cases hsum : checkedAdd j step with
      | none => simp only [remaining]; split <;> omega
      | some k =>
        have sum := toInt_checkedAdd hsum
        have low' := k.le_toInt
        have high' := k.toInt_lt
        simp only [remaining]
        by_cases up : 0 < step
        · have : (0 : Int) < step.toInt := by simpa [Int64.lt_iff_toInt_lt] using up
          simp only [up, if_true]
          omega
        · have : step.toInt ≠ 0 := fun zero => step_ne (Int64.toInt_inj.1 (by simpa using zero))
          have : ¬ (0 : Int) < step.toInt := by simpa [Int64.lt_iff_toInt_lt] using up
          simp only [up, if_false]
          omega
    · simp at h

/-- The progression from `start` in steps of `step` to `stop`. -/
def ofProgression (start step stop : Int64) : Except NumericFailure Run :=
  if h : step = 0 then .error .zeroStep else .ok (stepped (some start) step stop h)

end Run

namespace Runs

/-- The first index of a list of runs and what is left. -/
def next? : List Run → Option (Int64 × List Run)
  | [] => none
  | run :: runs =>
    match run.next? with
    | some (i, run) => some (i, run :: runs)
    | none => next? runs

/-- A bound for the number of indices left. -/
def remaining : List Run → Nat
  | [] => 0
  | run :: runs => run.remaining + remaining runs

theorem remaining_next?_lt {runs runs' : List Run} {i : Int64}
    (h : next? runs = some (i, runs')) : remaining runs' < remaining runs := by
  induction runs with
  | nil => simp [next?] at h
  | cons run runs ih =>
    simp only [next?] at h
    split at h
    · rename_i first
      simp only [Option.some.injEq, Prod.mk.injEq] at h
      obtain ⟨rfl, rfl⟩ := h
      have := Run.remaining_next?_lt first
      simp only [remaining]
      omega
    · have := ih h
      simp only [remaining] at this ⊢
      omega

/-- The first `n` indices. -/
def take : Nat → List Run → List Int64
  | 0, _ => []
  | n + 1, runs =>
    match next? runs with
    | some (i, runs) => i :: take n runs
    | none => []

/-- Hands the indices to `f` one by one, up to the first error; `done` holds the answers so far,
last one first. -/
def collectOnto {ε β : Type} (f : Int64 → Except ε β) (done : List β) (runs : List Run) :
    Except ε (List β) :=
  match _step : next? runs with
  | none => .ok done.reverse
  | some (i, rest) =>
    match f i with
    | .ok answer => collectOnto f (answer :: done) rest
    | .error e => .error e
termination_by remaining runs
decreasing_by exact remaining_next?_lt _step

/-- What `f` answers for the indices, in order; the first error ends it. -/
def collect {ε β : Type} (f : Int64 → Except ε β) (runs : List Run) : Except ε (List β) :=
  collectOnto f [] runs

/-- All indices, those of `done` put in front, last one first. -/
def toListOnto (done : List Int64) (runs : List Run) : List Int64 :=
  match _step : next? runs with
  | none => done.reverse
  | some (i, rest) => toListOnto (i :: done) rest
termination_by remaining runs
decreasing_by exact remaining_next?_lt _step

/-- All indices. -/
def toList (runs : List Run) : List Int64 := toListOnto [] runs

end Runs

end MatrixCalc
