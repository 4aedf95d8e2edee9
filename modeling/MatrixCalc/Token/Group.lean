import MatrixCalc.Token

/-!
# Groups

A group is what stands between an opening bracket and the bracket that closes it.  `untilClose`
cuts a group out of a list of tokens, `splitTop` cuts a list at the separators that stand in no
group.  Both count brackets without regard to their shape; a closing bracket that closes nothing
does not count.

* `append_of_untilClose` : nothing is lost when a group is cut out.
* `length_of_untilClose` : what follows a group is shorter than the list.
* `splitTop_ne_nil` : there is always a first piece.
-/

namespace MatrixCalc

variable {τ : Type} [HasSymbol τ]

/-- The tokens up to the bracket that closes the group they stand in, that bracket, and what
follows it; `depth` groups have been opened inside. -/
def untilClose : Nat → List τ → Option (List τ × τ × List τ)
  | _, [] => none
  | depth, t :: ts =>
    match bracketRole t, depth with
    | .closing, 0 => some ([], t, ts)
    | .closing, depth + 1 =>
      (untilClose depth ts).map fun (inside, close, rest) => (t :: inside, close, rest)
    | .opening, depth =>
      (untilClose (depth + 1) ts).map fun (inside, close, rest) => (t :: inside, close, rest)
    | .neutral, depth =>
      (untilClose depth ts).map fun (inside, close, rest) => (t :: inside, close, rest)

/-- The token put in front of the first of a list of pieces. -/
def consToFirst (t : τ) : List (List τ) → List (List τ)
  | [] => [[t]]
  | piece :: pieces => (t :: piece) :: pieces

/-- The pieces between the separators that stand in no group; `depth` groups are open.  Empty
pieces are kept. -/
def splitTop (separator : Symbol) : Nat → List τ → List (List τ)
  | _, [] => [[]]
  | depth, t :: ts =>
    match bracketRole t with
    | .opening => consToFirst t (splitTop separator (depth + 1) ts)
    | .closing => consToFirst t (splitTop separator (depth - 1) ts)
    | .neutral =>
      if isSymbol separator t && depth == 0 then [] :: splitTop separator depth ts
      else consToFirst t (splitTop separator depth ts)

theorem append_of_untilClose {depth : Nat} {ts inside rest : List τ} {close : τ}
    (h : untilClose depth ts = some (inside, close, rest)) : inside ++ close :: rest = ts := by
  induction ts generalizing depth inside with
  | nil => simp [untilClose] at h
  | cons t ts ih =>
    simp only [untilClose] at h
    split at h
    · simp at h
      simp [h]
    all_goals
      simp only [Option.map_eq_some_iff, Prod.exists, Prod.mk.injEq] at h
      obtain ⟨inside', close', rest', found, rfl, rfl, rfl⟩ := h
      simp [ih found]

theorem length_of_untilClose {depth : Nat} {ts inside rest : List τ} {close : τ}
    (h : untilClose depth ts = some (inside, close, rest)) :
    inside.length + rest.length + 1 = ts.length := by
  have := congrArg List.length (append_of_untilClose h)
  simp at this
  omega

theorem splitTop_ne_nil (separator : Symbol) (depth : Nat) (ts : List τ) :
    splitTop separator depth ts ≠ [] := by
  have cons_ne : ∀ (t : τ) (pieces : List (List τ)), consToFirst t pieces ≠ [] := by
    intro t pieces
    cases pieces <;> simp [consToFirst]
  cases ts with
  | nil => simp [splitTop]
  | cons t ts =>
    simp only [splitTop]
    split
    · exact cons_ne _ _
    · exact cons_ne _ _
    · split
      · simp
      · exact cons_ne _ _

end MatrixCalc
