import MatrixCalc.Proofs.Invocation.Nesting

/-!
# Levels of groups

A group that stands in no other has level 1, and the groups in it have one level more than it has
itself.  The levels of a list are read off by counting brackets; cutting a list into groups and
pieces agrees with that count.

* `levelsBy` : the levels of the groups of a list, of all or of some.
* `levelsBy_of_untilClose` : the groups of a list whose first group is cut out.
* `levelsBy_of_splitTop` : the groups of a list are those of its pieces.
* `Delves` : the list goes at least so many groups deep.
-/

namespace MatrixCalc

variable {τ : Type} [HasSymbol τ]

/-- The levels of the groups of a list, in the order of their opening brackets; `depth` groups are
open around the list.  Only those count of which `counts` holds, given the opening bracket and what
follows it. -/
def levelsBy (counts : τ → Option τ → Bool) : Nat → List τ → List Nat
  | _, [] => []
  | depth, t :: ts =>
    match bracketRole t with
    | .opening =>
      (if counts t ts.head? then [depth + 1] else []) ++ levelsBy counts (depth + 1) ts
    | .closing => levelsBy counts (depth - 1) ts
    | .neutral => levelsBy counts depth ts

/-- The levels of all groups of a list. -/
def levels (ts : List τ) : List Nat := levelsBy (fun _ _ => true) 0 ts

/-- The bracket opens anything but a matrix literal with nothing in it. -/
def opensFilled (opening : τ) (next : Option τ) : Bool :=
  !(isSymbol .bracketLeft opening && next.any fun t => bracketRole t == .closing)

/-- The levels of all groups of a list but the matrix literals with nothing in them. -/
def filledLevels (ts : List τ) : List Nat := levelsBy opensFilled 0 ts

variable {counts : τ → Option τ → Bool}

/-! ### Cutting lists -/

/-- Groups that are open around a list add to its levels. -/
theorem levelsBy_append {depth : Nat} {xs : List τ} (closed : nesting depth xs = some 0)
    (more : Nat) (ys : List τ) : levelsBy counts (depth + more) (xs ++ ys) =
      (levelsBy counts depth xs).map (· + more) ++ levelsBy counts more ys := by
  induction xs generalizing depth with
  | nil =>
    cases closed
    rw [Nat.zero_add]
    rfl
  | cons t xs ih =>
    simp only [nesting] at closed
    simp only [List.cons_append, levelsBy]
    cases role : bracketRole t with
    | neutral =>
      rw [role] at closed
      exact ih closed
    | opening =>
      rw [role] at closed
      -- a group that is open at the end would not be closed
      have head : (xs ++ ys).head? = xs.head? := by
        cases xs with
        | nil => cases closed
        | cons => rfl
      have inner := ih closed
      rw [Nat.add_right_comm] at inner
      simp only [head, inner, List.map_append, List.append_assoc]
      congr 1
      split
      · simp only [List.map_cons, List.map_nil, Nat.add_right_comm]
      · rfl
    | closing =>
      rw [role] at closed
      cases depth with
      | zero => cases closed
      | succ depth =>
        have inner := ih closed
        simpa only [Nat.add_right_comm, Nat.add_sub_cancel] using inner

/-- The groups behind an opening bracket: those of its group, one level higher, and the others. -/
theorem levelsBy_of_untilClose {ts inside rest : List τ} {close : τ}
    (cut : untilClose 0 ts = some (inside, close, rest)) : levelsBy counts 1 ts =
      (levelsBy counts 0 inside).map (· + 1) ++ levelsBy counts 0 rest := by
  obtain ⟨closed, role⟩ := nesting_of_untilClose cut
  have split := @levelsBy_append τ _ counts 0 inside closed 1 (close :: rest)
  rw [append_of_untilClose cut] at split
  simpa only [levelsBy, role] using split

/-- In a group a list is not cut, so its first piece starts like the list. -/
theorem head?_of_splitTop {separator : Symbol} {depth : Nat} {ts first : List τ}
    {pieces : List (List τ)} (h : splitTop separator (depth + 1) ts = first :: pieces) :
    first.head? = ts.head? := by
  cases ts with
  | nil =>
    cases h
    rfl
  | cons t ts =>
    have further : ∀ {depth'}, consToFirst t (splitTop separator depth' ts) = first :: pieces →
        first.head? = some t := by
      intro depth' eq
      obtain ⟨_, _, split⟩ := exists_splitTop separator depth' ts
      rw [split] at eq
      cases eq
      rfl
    simp only [splitTop] at h
    split at h
    · exact further h
    · exact further h
    · rw [if_neg (by simp)] at h
      exact further h

theorem levelsBy_of_first {separator : Symbol} {depth : Nat} {ts first : List τ}
    {pieces : List (List τ)} (h : splitTop separator depth ts = first :: pieces) :
    levelsBy counts depth ts =
      levelsBy counts depth first ++ pieces.flatMap (levelsBy counts 0) := by
  induction ts generalizing depth first pieces with
  | nil =>
    cases h
    rfl
  | cons t ts ih =>
    simp only [splitTop] at h
    cases role : bracketRole t with
    | opening =>
      rw [role] at h
      obtain ⟨first', pieces', split⟩ := exists_splitTop separator (depth + 1) ts
      rw [split] at h
      cases h
      simp only [levelsBy, role, ih split, head?_of_splitTop split, List.append_assoc]
    | closing =>
      rw [role] at h
      obtain ⟨first', pieces', split⟩ := exists_splitTop separator (depth - 1) ts
      rw [split] at h
      cases h
      simp only [levelsBy, role, ih split]
    | neutral =>
      rw [role] at h
      dsimp only at h
      split at h
      · rename_i separates
        obtain rfl : depth = 0 := eq_of_beq (Bool.and_eq_true_iff.1 separates).2
        cases h
        obtain ⟨first', pieces', split⟩ := exists_splitTop separator 0 ts
        simp only [levelsBy, role, ih split, split, List.flatMap_cons, List.nil_append]
      · obtain ⟨first', pieces', split⟩ := exists_splitTop separator depth ts
        rw [split] at h
        cases h
        simp only [levelsBy, role, ih split]

/-- **The groups of a list are those of its pieces**, one piece after another. -/
theorem levelsBy_of_splitTop (separator : Symbol) (ts : List τ) :
    levelsBy counts 0 ts = (splitTop separator 0 ts).flatMap (levelsBy counts 0) := by
  obtain ⟨first, pieces, split⟩ := exists_splitTop separator 0 ts
  rw [levelsBy_of_first split, split, List.flatMap_cons]

/-! ### Filled groups -/

/-- The levels depend only on where which symbols stand. -/
theorem filledLevels_congr {σ : Type} [HasSymbol σ] {ts : List τ} {us : List σ}
    (same : ts.map symbol? = us.map symbol?) : filledLevels ts = filledLevels us := by
  have roles {t : τ} {u : σ} (eq : symbol? t = symbol? u) : bracketRole t = bracketRole u := by
    rw [bracketRole, bracketRole, eq]
  have counted {t : τ} {u : σ} (eq : symbol? t = symbol? u) {ts : List τ} {us : List σ}
      (rest : ts.map symbol? = us.map symbol?) :
      opensFilled t ts.head? = opensFilled u us.head? := by
    rw [opensFilled, opensFilled, isSymbol, isSymbol, eq]
    cases ts <;> cases us
    · rfl
    · cases rest
    · cases rest
    · simp [roles (List.cons.inj rest).1]
  have from' : ∀ depth, levelsBy opensFilled depth ts = levelsBy opensFilled depth us := by
    induction ts generalizing us with
    | nil =>
      cases us with
      | nil => exact fun _ => rfl
      | cons => cases same
    | cons t ts ih =>
      cases us with
      | nil => cases same
      | cons u us =>
        obtain ⟨first, rest⟩ := List.cons.inj same
        intro depth
        simp only [levelsBy, roles first, counted first rest, ih rest]
  exact from' 0

/-- The list has a group of level `n` or more, matrix literals with nothing in them apart; every
list has level 0. -/
def Delves (n : Nat) (ts : List τ) : Prop := n = 0 ∨ ∃ level ∈ filledLevels ts, n ≤ level

theorem delves_succ_iff {n : Nat} {ts : List τ} :
    Delves (n + 1) ts ↔ ∃ level ∈ filledLevels ts, n < level := by
  simp [Delves]

theorem delves_congr {σ : Type} [HasSymbol σ] {n : Nat} {ts : List τ} {us : List σ}
    (same : ts.map symbol? = us.map symbol?) : Delves n ts ↔ Delves n us := by
  rw [Delves, Delves, filledLevels_congr same]

theorem delves_neutral_iff {n : Nat} {t : τ} {ts : List τ} (role : bracketRole t = .neutral) :
    Delves n (t :: ts) ↔ Delves n ts := by
  rw [Delves, Delves, filledLevels, levelsBy, role]
  rfl

/-- A list goes as deep as one of its pieces. -/
theorem delves_iff_exists_piece {n : Nat} (separator : Symbol) (ts : List τ) :
    Delves n ts ↔ ∃ piece ∈ splitTop separator 0 ts, Delves n piece := by
  obtain ⟨first, pieces, split⟩ := exists_splitTop separator 0 ts
  simp only [Delves, filledLevels, levelsBy_of_splitTop separator ts, List.mem_flatMap]
  constructor
  · rintro (rfl | ⟨level, ⟨piece, mem, inPiece⟩, deep⟩)
    · exact ⟨first, by simp [split], .inl rfl⟩
    · exact ⟨piece, mem, .inr ⟨level, inPiece, deep⟩⟩
  · rintro ⟨piece, mem, rfl | ⟨level, inPiece, deep⟩⟩
    · exact .inl rfl
    · exact .inr ⟨level, ⟨piece, mem, inPiece⟩, deep⟩

/-- A bracket opens a matrix literal with nothing in it iff nothing stands in its group. -/
theorem opensFilled_of_untilClose {t : τ} {ts inside rest : List τ} {close : τ}
    (cut : untilClose 0 ts = some (inside, close, rest)) :
    opensFilled t ts.head? = true ↔ ¬ (isSymbol .bracketLeft t = true ∧ inside = []) := by
  obtain ⟨closed, closing⟩ := nesting_of_untilClose cut
  rw [← append_of_untilClose cut]
  cases inside with
  | nil => simp [opensFilled, closing]
  | cons u inside =>
    have inner : bracketRole u ≠ .closing := by
      intro role
      simp only [nesting, role] at closed
      cases closed
    simp [opensFilled, inner]

/-- A list that starts with a group goes one level deeper than what stands in the group, unless
that is a matrix literal with nothing in it, or as deep as what follows the group. -/
theorem delves_opening_iff {n : Nat} {t : τ} {ts inside rest : List τ} {close : τ}
    (role : bracketRole t = .opening) (cut : untilClose 0 ts = some (inside, close, rest)) :
    Delves (n + 1) (t :: ts) ↔
      (¬ (isSymbol .bracketLeft t = true ∧ inside = []) ∧ Delves n inside) ∨
        Delves (n + 1) rest := by
  have split : filledLevels (t :: ts) = (if opensFilled t ts.head? then [1] else []) ++
      ((filledLevels inside).map (· + 1) ++ filledLevels rest) := by
    rw [filledLevels, levelsBy, role, Nat.zero_add, levelsBy_of_untilClose cut]
    rfl
  have inner : (∃ level ∈ (filledLevels inside).map (· + 1), n < level) ↔
      ∃ level ∈ filledLevels inside, n ≤ level := by
    simp
  rw [delves_succ_iff, delves_succ_iff, split]
  simp only [List.mem_append, or_and_right, exists_or, inner, Delves, ← or_assoc]
  refine or_congr_left ?_
  by_cases filled : opensFilled t ts.head? = true
  · simp [filled, (opensFilled_of_untilClose cut).1 filled]
  · -- a literal with nothing in it has no group inside either
    have hollow := not_not.1 (mt (opensFilled_of_untilClose cut).2 filled)
    simp [filled, hollow, filledLevels, levelsBy]

end MatrixCalc
