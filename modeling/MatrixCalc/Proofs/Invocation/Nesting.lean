import MatrixCalc.Proofs.Pieces

/-!
# Balanced lists and sealed ones

Brackets and separators are looked for from left to right, with a count of the groups that are
open.  A group that is complete does not take part in that: it is carried along as one piece.

* `nesting` : the number of groups that are open behind a list; it exists iff no closing bracket
  closes a group that stands before the list.
* `Sealed` : the list is carried along as one piece.
* `sealed_group` : a balanced list in brackets is sealed.
-/

namespace MatrixCalc

variable {τ : Type} [HasSymbol τ]

/-- The number of groups that are open behind a list, of which `depth` are open before it; none if
the list closes one that was opened still earlier. -/
def nesting : Nat → List τ → Option Nat
  | depth, [] => some depth
  | depth, t :: ts =>
    match bracketRole t, depth with
    | .closing, 0 => none
    | .closing, depth + 1 => nesting depth ts
    | .opening, depth => nesting (depth + 1) ts
    | .neutral, depth => nesting depth ts

/-- Every group that is opened in the list is closed in it, and no other. -/
abbrev Balanced (ts : List τ) : Prop := nesting 0 ts = some 0

/-- The list is carried along as one piece by whoever looks for brackets or separators. -/
structure Sealed (ts : List τ) : Prop where
  untilClose : ∀ depth more, untilClose depth (ts ++ more) =
    (untilClose depth more).map fun cut => (ts ++ cut.1, cut.2)
  splitTop : ∀ separator depth more,
    splitTop separator depth (ts ++ more) = ts.foldr consToFirst (splitTop separator depth more)
  nesting : ∀ depth more, nesting depth (ts ++ more) = nesting depth more

/-! ### Counting open groups -/

theorem nesting_append (depth : Nat) (xs ys : List τ) :
    nesting depth (xs ++ ys) = (nesting depth xs).bind (nesting · ys) := by
  induction xs generalizing depth with
  | nil => rfl
  | cons t xs ih =>
    simp only [List.cons_append, nesting]
    split
    · rfl
    all_goals exact ih _

/-- Groups that are open before a list stay open if it closes none of them. -/
theorem nesting_add {depth depth' : Nat} {xs : List τ} (h : nesting depth xs = some depth')
    (more : Nat) : nesting (depth + more) xs = some (depth' + more) := by
  induction xs generalizing depth with
  | nil =>
    cases h
    rfl
  | cons t xs ih =>
    simp only [nesting] at h ⊢
    cases role : bracketRole t with
    | neutral =>
      rw [role] at h
      exact ih h
    | opening =>
      rw [role] at h
      have inner := ih h
      rwa [Nat.add_right_comm] at inner
    | closing =>
      rw [role] at h
      cases depth with
      | zero => cases h
      | succ depth =>
        rw [Nat.add_right_comm]
        exact ih h

theorem untilClose_append_of_nesting {depth depth' : Nat} {xs : List τ}
    (h : nesting depth xs = some depth') (ys : List τ) :
    untilClose depth (xs ++ ys) = (untilClose depth' ys).map fun cut => (xs ++ cut.1, cut.2) := by
  induction xs generalizing depth with
  | nil =>
    cases h
    rw [List.nil_append]
    cases untilClose depth' ys <;> rfl
  | cons t xs ih =>
    simp only [nesting] at h
    simp only [List.cons_append, untilClose]
    cases role : bracketRole t with
    | neutral | opening =>
      rw [role] at h
      simp only [ih h, Option.map_map]
      rfl
    | closing =>
      rw [role] at h
      cases depth with
      | zero => cases h
      | succ depth =>
        simp only [ih h, Option.map_map]
        rfl

/-- Inside of a group, nothing is split. -/
theorem splitTop_append_of_nesting (separator : Symbol) {depth depth' : Nat} {xs : List τ}
    (h : nesting depth xs = some depth') (ys : List τ) :
    splitTop separator (depth + 1) (xs ++ ys) =
      xs.foldr consToFirst (splitTop separator (depth' + 1) ys) := by
  induction xs generalizing depth with
  | nil =>
    cases h
    rfl
  | cons t xs ih =>
    simp only [nesting] at h
    simp only [List.cons_append, splitTop, List.foldr_cons]
    cases role : bracketRole t with
    | neutral =>
      rw [role] at h
      have inside : (isSymbol separator t && depth + 1 == 0) = false := by simp
      simp only [inside, ih h]
      rfl
    | opening =>
      rw [role] at h
      exact congrArg (consToFirst t) (ih h)
    | closing =>
      rw [role] at h
      cases depth with
      | zero => cases h
      | succ depth => exact congrArg (consToFirst t) (ih h)

/-- The inside of a group closes what it opens. -/
theorem nesting_of_untilClose {depth : Nat} {ts inside rest : List τ} {close : τ}
    (h : untilClose depth ts = some (inside, close, rest)) :
    nesting depth inside = some 0 ∧ bracketRole close = .closing := by
  induction ts generalizing depth inside with
  | nil => cases h
  | cons t ts ih =>
    simp only [untilClose] at h
    cases role : bracketRole t with
    | neutral | opening =>
      simp only [role, Option.map_eq_some_iff, Prod.exists, Prod.mk.injEq] at h
      obtain ⟨_, _, _, found, rfl, rfl, rfl⟩ := h
      simpa only [nesting, role] using ih found
    | closing =>
      cases depth with
      | zero =>
        simp only [role] at h
        cases h
        exact ⟨rfl, role⟩
      | succ depth =>
        simp only [role, Option.map_eq_some_iff, Prod.exists, Prod.mk.injEq] at h
        obtain ⟨_, _, _, found, rfl, rfl, rfl⟩ := h
        simpa only [nesting, role] using ih found

/-- A group is found whatever follows it. -/
theorem untilClose_append {depth : Nat} {ts inside rest : List τ} {close : τ}
    (h : untilClose depth ts = some (inside, close, rest)) (more : List τ) :
    untilClose depth (ts ++ more) = some (inside, close, rest ++ more) := by
  obtain ⟨closed, role⟩ := nesting_of_untilClose h
  rw [← append_of_untilClose h, List.append_assoc, untilClose_append_of_nesting closed]
  simp [untilClose, role]

/-! ### Sealed lists -/

/-- **A balanced list in brackets is one piece.** -/
theorem sealed_group {opening close : τ} {inside : List τ}
    (opens : bracketRole opening = .opening) (closes : bracketRole close = .closing)
    (balanced : Balanced inside) : Sealed (opening :: inside ++ [close]) where
  untilClose depth more := by
    have within := untilClose_append_of_nesting (nesting_add balanced (depth + 1)) (close :: more)
    simp only [Nat.zero_add] at within
    rw [List.append_assoc, List.singleton_append, List.cons_append]
    simp only [untilClose, opens, within, closes, Option.map_map]
    congr 1
    funext cut
    simp
  splitTop separator depth more := by
    have within := splitTop_append_of_nesting separator (nesting_add balanced depth) (close :: more)
    simp only [Nat.zero_add] at within
    rw [List.append_assoc, List.singleton_append, List.cons_append]
    simp only [splitTop, opens, within, closes, Nat.add_sub_cancel, List.foldr_append,
      List.foldr_cons, List.foldr_nil, List.cons_append]
  nesting depth more := by
    have within := nesting_append (depth + 1) inside (close :: more)
    have inner := nesting_add balanced (depth + 1)
    rw [Nat.zero_add] at inner
    rw [inner] at within
    rw [List.append_assoc, List.singleton_append, List.cons_append]
    simp only [nesting, opens, within, Option.bind_some, closes]

/-- A token that is no symbol can stand before a sealed list. -/
theorem Sealed.cons {t : τ} {ts : List τ} (h : Sealed ts) (plain : symbol? t = none) :
    Sealed (t :: ts) := by
  have role : bracketRole t = .neutral := by simp [bracketRole, plain]
  have separates : ∀ separator, isSymbol separator t = false := by simp [isSymbol, plain]
  refine ⟨fun depth more => ?_, fun separator depth more => ?_, fun depth more => ?_⟩
  · simp only [List.cons_append, MatrixCalc.untilClose, role, h.untilClose, Option.map_map]
    rfl
  · simp [MatrixCalc.splitTop, role, separates, h.splitTop]
  · simp only [List.cons_append, MatrixCalc.nesting, role, h.nesting]

/-! ### Pieces -/

omit [HasSymbol τ] in
theorem foldr_consToFirst (xs first : List τ) (pieces : List (List τ)) :
    xs.foldr consToFirst (first :: pieces) = (xs ++ first) :: pieces := by
  induction xs with
  | nil => rfl
  | cons t xs ih => rw [List.foldr_cons, ih, consToFirst, List.cons_append]

/-- The pieces of a balanced list are balanced. -/
theorem nesting_of_splitTop (separator : Symbol) {depth : Nat} {ts first : List τ}
    {pieces : List (List τ)} (balanced : nesting depth ts = some 0)
    (h : splitTop separator depth ts = first :: pieces) :
    nesting depth first = some 0 ∧ ∀ piece ∈ pieces, Balanced piece := by
  induction ts generalizing depth first pieces with
  | nil =>
    cases h
    exact ⟨balanced, nofun⟩
  | cons t ts ih =>
    have further : ∀ {depth' : Nat}, nesting depth' ts = some 0 →
        (∀ {first}, nesting depth' first = some 0 → nesting depth (t :: first) = some 0) →
        consToFirst t (splitTop separator depth' ts) = first :: pieces →
        nesting depth first = some 0 ∧ ∀ piece ∈ pieces, Balanced piece := by
      intro depth' rest step eq
      obtain ⟨first', pieces', split⟩ := exists_splitTop separator depth' ts
      rw [split] at eq
      cases eq
      obtain ⟨one, more⟩ := ih rest split
      exact ⟨step one, more⟩
    simp only [splitTop] at h
    simp only [nesting] at balanced
    cases role : bracketRole t with
    | opening =>
      rw [role] at h balanced
      exact further balanced (fun one => by simpa only [nesting, role] using one) h
    | closing =>
      rw [role] at h balanced
      cases depth with
      | zero => cases balanced
      | succ depth => exact further balanced (fun one => by simpa only [nesting, role] using one) h
    | neutral =>
      rw [role] at h balanced
      dsimp only at h
      split at h
      · rename_i separates
        obtain rfl : depth = 0 := eq_of_beq (Bool.and_eq_true_iff.1 separates).2
        cases h
        obtain ⟨one, rest, split⟩ := exists_splitTop separator 0 ts
        obtain ⟨here, more⟩ := ih balanced split
        refine ⟨rfl, fun piece mem => ?_⟩
        rw [split] at mem
        rcases List.mem_cons.1 mem with rfl | mem
        · exact here
        · exact more piece mem
      · exact further balanced (fun one => by simpa only [nesting, role] using one) h

/-- A list that is not split is its only piece. -/
theorem eq_of_splitTop_singleton {separator : Symbol} {depth : Nat} {ts piece : List τ}
    (h : splitTop separator depth ts = [piece]) : piece = ts := by
  induction ts generalizing depth piece with
  | nil =>
    cases h
    rfl
  | cons t ts ih =>
    have further : ∀ {depth' : Nat}, consToFirst t (splitTop separator depth' ts) = [piece] →
        piece = t :: ts := by
      intro depth' eq
      obtain ⟨first, pieces, split⟩ := exists_splitTop separator depth' ts
      rw [split] at eq
      cases eq
      rw [ih split]
    simp only [splitTop] at h
    split at h
    · exact further h
    · exact further h
    · split at h
      · rw [List.cons.injEq] at h
        exact absurd h.2 (splitTop_ne_nil _ _ _)
      · exact further h

end MatrixCalc
