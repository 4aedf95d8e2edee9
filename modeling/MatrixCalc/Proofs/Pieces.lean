import Mathlib
import MatrixCalc.Token.Group

/-!
# Pieces of a list

A list is cut at the separators that stand in no group.  The pieces and these separators are the
list, and no piece can be cut again.

* `topSeparators` : the separators that stand in no group.
* `length_splitTop` : there is one piece more than there are such separators.
* `topSeparators_of_mem_splitTop` : no piece holds one.
* `rejoin_splitTop` : the pieces with the separators in between are the list.
* `splitTop_map`, `untilClose_map` : lists that carry the same symbols are cut at the same places.
-/

namespace MatrixCalc

variable {τ : Type} [HasSymbol τ] {separator : Symbol}

/-- The number of groups that are open behind a token, of which `depth` are open before it.  A
closing bracket that closes nothing does not count. -/
def depthBehind (depth : Nat) (t : τ) : Nat :=
  match bracketRole t with
  | .opening => depth + 1
  | .closing => depth - 1
  | .neutral => depth

/-- The separators that stand in no group; `depth` groups are open. -/
def topSeparators (separator : Symbol) : Nat → List τ → List τ
  | _, [] => []
  | depth, t :: ts =>
    if isSymbol separator t = true ∧ depth = 0 then
      t :: topSeparators separator (depthBehind depth t) ts
    else topSeparators separator (depthBehind depth t) ts

/-- Pieces with separators in between. -/
def rejoin {α : Type} : List (List α) → List α → List α
  | piece :: pieces, s :: separators => piece ++ s :: rejoin pieces separators
  | pieces, _ => pieces.flatten

theorem Token.isSymbol_iff {t : Token} : isSymbol separator t = true ↔ t = .symbol separator := by
  cases t <;> simp [isSymbol, symbol?]

section Rejoin

variable {α : Type} {x : α} {pieces : List (List α)} {separators : List α}

theorem perm_rejoin (enough : pieces.length = separators.length + 1) :
    (rejoin pieces separators).Perm (pieces.flatten ++ separators) := by
  induction separators generalizing pieces with
  | nil =>
    obtain ⟨piece, rfl⟩ := List.length_eq_one_iff.1 enough
    exact .of_eq (List.append_nil _).symm
  | cons s separators ih =>
    obtain ⟨piece, pieces, rfl⟩ := List.exists_cons_of_length_eq_add_one enough
    have rest := ih (Nat.succ.inj enough)
    show (piece ++ s :: rejoin pieces separators).Perm
      ((piece ++ pieces.flatten) ++ s :: separators)
    rw [List.append_assoc]
    exact ((rest.cons s).trans List.perm_middle.symm).append_left piece

/-- With the same separator everywhere, the pieces are intercalated. -/
theorem rejoin_eq_intercalate (same : ∀ s ∈ separators, s = x)
    (enough : pieces.length = separators.length + 1) :
    rejoin pieces separators = [x].intercalate pieces := by
  induction separators generalizing pieces with
  | nil =>
    obtain ⟨piece, rfl⟩ := List.length_eq_one_iff.1 enough
    simp [rejoin, List.intercalate]
  | cons s separators ih =>
    obtain ⟨piece, pieces, rfl⟩ := List.exists_cons_of_length_eq_add_one enough
    obtain ⟨next, pieces, rfl⟩ := List.exists_cons_of_length_eq_add_one (Nat.succ.inj enough)
    obtain ⟨rfl, same⟩ := List.forall_mem_cons.1 same
    have rest := ih same (Nat.succ.inj enough)
    show piece ++ s :: rejoin (next :: pieces) separators = _
    rw [rest]
    simp [List.intercalate]

end Rejoin

/-! ### One cut -/

theorem bracketRole_of_isSymbol (plain : separator.role = .neutral) {t : τ}
    (is : isSymbol separator t = true) : bracketRole t = .neutral := by
  simp only [bracketRole, eq_of_beq is, plain]

/-- A separator in no group ends a piece; any other token belongs to the first one. -/
theorem splitTop_cons (plain : separator.role = .neutral) (depth : Nat) (t : τ) (ts : List τ) :
    splitTop separator depth (t :: ts) =
      if isSymbol separator t = true ∧ depth = 0 then
        [] :: splitTop separator (depthBehind depth t) ts
      else consToFirst t (splitTop separator (depthBehind depth t) ts) := by
  simp only [splitTop, depthBehind]
  by_cases is : isSymbol separator t = true
  · simp [bracketRole_of_isSymbol plain is, is]
  · cases bracketRole t <;> simp [is]

theorem exists_splitTop (separator : Symbol) (depth : Nat) (ts : List τ) :
    ∃ first pieces, splitTop separator depth ts = first :: pieces :=
  List.exists_cons_of_ne_nil (splitTop_ne_nil separator depth ts)

theorem exists_consToFirst (separator : Symbol) (t : τ) (depth : Nat) (ts : List τ) :
    ∃ first pieces, splitTop separator depth ts = first :: pieces ∧
      consToFirst t (splitTop separator depth ts) = (t :: first) :: pieces := by
  obtain ⟨first, pieces, eq⟩ := exists_splitTop separator depth ts
  exact ⟨first, pieces, eq, by rw [eq]; rfl⟩

/-! ### All cuts -/

/-- **There is one piece more than there are separators.** -/
theorem length_splitTop (plain : separator.role = .neutral) (depth : Nat) (ts : List τ) :
    (splitTop separator depth ts).length = (topSeparators separator depth ts).length + 1 := by
  induction ts generalizing depth with
  | nil => rfl
  | cons t ts ih =>
    rw [splitTop_cons plain, topSeparators]
    by_cases top : isSymbol separator t = true ∧ depth = 0
    · rw [if_pos top, if_pos top, List.length_cons, List.length_cons, ih]
    · obtain ⟨first, pieces, eq, eq'⟩ := exists_consToFirst separator t (depthBehind depth t) ts
      rw [if_neg top, if_neg top, ← ih, eq', eq]
      rfl

/-- **No piece holds a separator** that stands in no group of the piece.  In front of the first
piece, `depth` groups are open. -/
theorem topSeparators_of_splitTop (plain : separator.role = .neutral) {depth : Nat}
    {ts first : List τ} {pieces : List (List τ)}
    (split : splitTop separator depth ts = first :: pieces) :
    topSeparators separator depth first = [] ∧
      ∀ piece ∈ pieces, topSeparators separator 0 piece = [] := by
  induction ts generalizing depth first pieces with
  | nil =>
    cases split
    exact ⟨rfl, List.forall_mem_nil _⟩
  | cons t ts ih =>
    obtain ⟨first', pieces', eq, eq'⟩ := exists_consToFirst separator t (depthBehind depth t) ts
    obtain ⟨here, more⟩ := ih eq
    rw [splitTop_cons plain] at split
    by_cases top : isSymbol separator t = true ∧ depth = 0
    · rw [if_pos top, eq] at split
      cases split
      -- no group is open where the list is cut
      have still : depthBehind depth t = 0 := by
        simp only [depthBehind, bracketRole_of_isSymbol plain top.1, top.2]
      rw [still] at here
      exact ⟨rfl, List.forall_mem_cons.2 ⟨here, more⟩⟩
    · rw [if_neg top, eq'] at split
      cases split
      refine ⟨?_, more⟩
      rw [topSeparators, if_neg top, here]

theorem topSeparators_of_mem_splitTop (plain : separator.role = .neutral) {ts piece : List τ}
    (mem : piece ∈ splitTop separator 0 ts) : topSeparators separator 0 piece = [] := by
  obtain ⟨first, pieces, split⟩ := exists_splitTop separator 0 ts
  rw [split] at mem
  obtain ⟨here, more⟩ := topSeparators_of_splitTop plain split
  rcases List.mem_cons.1 mem with rfl | mem
  · exact here
  · exact more piece mem

/-- **The pieces with the separators in between are the list.** -/
theorem rejoin_splitTop (plain : separator.role = .neutral) (depth : Nat) (ts : List τ) :
    rejoin (splitTop separator depth ts) (topSeparators separator depth ts) = ts := by
  induction ts generalizing depth with
  | nil => rfl
  | cons t ts ih =>
    rw [splitTop_cons plain, topSeparators]
    by_cases top : isSymbol separator t = true ∧ depth = 0
    · rw [if_pos top, if_pos top]
      exact congrArg (t :: ·) (ih _)
    · obtain ⟨first, pieces, eq, eq'⟩ := exists_consToFirst separator t (depthBehind depth t) ts
      have rest := ih (depthBehind depth t)
      rw [eq] at rest
      rw [if_neg top, if_neg top, eq']
      cases seps : topSeparators separator (depthBehind depth t) ts with
      | nil =>
        rw [seps] at rest
        exact congrArg (t :: ·) rest
      | cons s more =>
        rw [seps] at rest
        exact congrArg (t :: ·) rest

theorem isSymbol_of_mem_topSeparators {depth : Nat} {ts : List τ} {s : τ}
    (mem : s ∈ topSeparators separator depth ts) : isSymbol separator s = true := by
  induction ts generalizing depth with
  | nil => cases mem
  | cons t ts ih =>
    rw [topSeparators] at mem
    by_cases top : isSymbol separator t = true ∧ depth = 0
    · rw [if_pos top] at mem
      rcases List.mem_cons.1 mem with rfl | mem
      · exact top.1
      · exact ih mem
    · rw [if_neg top] at mem
      exact ih mem

/-- The pieces of a list hold its elements, in order. -/
theorem flatten_splitTop_sublist (separator : Symbol) (depth : Nat) (ts : List τ) :
    (splitTop separator depth ts).flatten.Sublist ts := by
  induction ts generalizing depth with
  | nil => exact .slnil
  | cons t ts ih =>
    have kept : ∀ depth,
        (consToFirst t (splitTop separator depth ts)).flatten.Sublist (t :: ts) := by
      intro depth
      obtain ⟨first, pieces, eq, eq'⟩ := exists_consToFirst separator t depth ts
      have rest := ih depth
      rw [eq] at rest
      rw [eq']
      exact rest.cons_cons t
    rw [splitTop]
    cases bracketRole t with
    | opening | closing => exact kept _
    | neutral =>
      by_cases top : (isSymbol separator t && depth == 0) = true
      · simp only [top, if_true]
        exact (ih depth).cons t
      · simp only [top]
        exact kept depth

/-! ### Lists that carry the same symbols -/

section Map

variable {σ : Type} [HasSymbol σ] {f : σ → τ} {ts : List σ}

theorem bracketRole_map {t : σ} (same : symbol? (f t) = symbol? t) :
    bracketRole (f t) = bracketRole t := by
  simp only [bracketRole, same]

/-- Lists are cut at the same places if their elements carry the same symbols. -/
theorem splitTop_map (same : ∀ t ∈ ts, symbol? (f t) = symbol? t) (separator : Symbol)
    (depth : Nat) :
    splitTop separator depth (ts.map f) = (splitTop separator depth ts).map (·.map f) := by
  have cons : ∀ (t : σ) (pieces : List (List σ)),
      consToFirst (f t) (pieces.map (·.map f)) = (consToFirst t pieces).map (·.map f) := by
    intro t pieces
    cases pieces <;> rfl
  induction ts generalizing depth with
  | nil => rfl
  | cons t ts ih =>
    have first := same t List.mem_cons_self
    have separates : isSymbol separator (f t) = isSymbol separator t := by
      simp only [isSymbol, first]
    simp only [List.map_cons, splitTop, bracketRole_map first, separates,
      ih fun t mem => same t (List.mem_cons_of_mem _ mem), cons]
    cases bracketRole t with
    | opening | closing => rfl
    | neutral =>
      by_cases top : (isSymbol separator t && depth == 0) = true
      · simp [top]
      · simp [top]

/-- Groups end at the same places, too. -/
theorem untilClose_map (same : ∀ t ∈ ts, symbol? (f t) = symbol? t) (depth : Nat) :
    untilClose depth (ts.map f) =
      (untilClose depth ts).map fun cut => (cut.1.map f, f cut.2.1, cut.2.2.map f) := by
  induction ts generalizing depth with
  | nil => rfl
  | cons t ts ih =>
    have rest := ih fun t mem => same t (List.mem_cons_of_mem _ mem)
    simp only [List.map_cons, untilClose, bracketRole_map (same t List.mem_cons_self), rest]
    cases bracketRole t with
    | neutral | opening =>
      simp only [Option.map_map]
      rfl
    | closing =>
      cases depth with
      | zero => rfl
      | succ depth =>
        simp only [Option.map_map]
        rfl

end Map

end MatrixCalc
