import Mathlib
import MatrixCalc.Token.Group

/-!
# Brackets of two shapes

Whoever looks for the bracket that closes a group counts brackets without regard to their shape.
Where brackets are nested by shape that is good enough: the bracket that is found has the shape of
the one that opens the group.

* `Nested` : the brackets of a list are properly nested and matched by shape.
* `openBehind` : the brackets that are open behind a list, and `nested_iff` : a list is nested iff
  it leaves none open and closes none that it did not open.
* `Disciplined` : every bracket that is opened in a list is closed by one of its shape, with a
  nested list in between.  `disciplined_of_openBehind` : **the rest of a nested list is disciplined,
  wherever it starts.**
-/

namespace MatrixCalc

variable {τ : Type} [HasSymbol τ]

/-- An opening bracket and a closing one, both round or both square. -/
def SameShape (opening close : τ) : Prop :=
  symbol? opening = some .parenLeft ∧ symbol? close = some .parenRight ∨
    symbol? opening = some .bracketLeft ∧ symbol? close = some .bracketRight

/-- The brackets of the list are properly nested and matched by shape. -/
inductive Nested : List τ → Prop
  | nil : Nested []
  | token {t : τ} {ts : List τ} (neutral : bracketRole t = .neutral) (rest : Nested ts) :
      Nested (t :: ts)
  | group {opening close : τ} {inside rest : List τ} (shape : SameShape opening close)
      (inner : Nested inside) (outer : Nested rest) :
      Nested (opening :: inside ++ close :: rest)

/-- Every bracket that is opened in the list is closed in it by one of its shape, which is the one
that a count finds, and the tokens in between are nested. -/
def Disciplined (ts : List τ) : Prop :=
  ∀ before opening behind, ts = before ++ opening :: behind → bracketRole opening = .opening →
    ∃ inside close rest, untilClose 0 behind = some (inside, close, rest) ∧
      SameShape opening close ∧ Nested inside

/-! ### Open brackets -/

/-- The brackets that are open behind a token, innermost first; none if it closes a bracket of the
other shape or one that is not open. -/
def openAfter (opened : List Symbol) (t : τ) : Option (List Symbol) :=
  match symbol? t with
  | none => some opened
  | some s =>
    match s.role, opened with
    | .neutral, opened => some opened
    | .opening, opened => some (s :: opened)
    | .closing, o :: opened => if o = s.opener then some opened else none
    | .closing, [] => none

/-- The brackets that are open behind a list, of which `opened` are open before it. -/
def openBehind (opened : List Symbol) (ts : List τ) : Option (List Symbol) :=
  ts.foldlM openAfter opened

variable {opened : List Symbol} {t opening close : τ} {ts inside rest : List τ} {s : Symbol}

theorem openBehind_cons : openBehind opened (t :: ts) =
    (openAfter opened t).bind (openBehind · ts) := List.foldlM_cons

theorem openBehind_append (xs ys : List τ) : openBehind opened (xs ++ ys) =
    (openBehind opened xs).bind (openBehind · ys) := List.foldlM_append

theorem openAfter_of_neutral (h : bracketRole t = .neutral) : openAfter opened t = some opened := by
  cases is : symbol? t with
  | none => simp only [openAfter, is]
  | some s =>
    simp only [bracketRole, is] at h
    simp only [openAfter, is, h]

theorem openAfter_of_opening (is : symbol? t = some s) (h : bracketRole t = .opening) :
    openAfter opened t = some (s :: opened) := by
  simp only [bracketRole, is] at h
  simp only [openAfter, is, h]

/-- A closing bracket closes the innermost bracket, which has its shape. -/
theorem openAfter_of_closing (is : symbol? t = some s) (h : bracketRole t = .closing)
    {opened' : List Symbol} :
    openAfter opened t = some opened' ↔ opened = s.opener :: opened' := by
  simp only [bracketRole, is] at h
  simp only [openAfter, is, h]
  cases opened with
  | nil => simp
  | cons o opened =>
    by_cases same : o = s.opener
    · simp [same]
    · simp [same]

theorem exists_symbol (h : bracketRole t ≠ .neutral) : ∃ s, symbol? t = some s := by
  unfold bracketRole at h
  split at h
  · exact ⟨_, by assumption⟩
  · exact absurd rfl h

theorem SameShape.opens (h : SameShape opening close) : bracketRole opening = .opening := by
  rcases h with ⟨is, -⟩ | ⟨is, -⟩ <;> simp only [bracketRole, is] <;> rfl

theorem SameShape.closes (h : SameShape opening close) : bracketRole close = .closing := by
  rcases h with ⟨-, is⟩ | ⟨-, is⟩ <;> simp only [bracketRole, is] <;> rfl

/-- A closing bracket fits the opening one that is its opener. -/
theorem sameShape_of_opener {c : Symbol} (opens : symbol? opening = some c.opener)
    (is : symbol? close = some c) (closes : bracketRole close = .closing) :
    SameShape opening close := by
  simp only [bracketRole, is] at closes
  rcases (Symbol.role_eq_closing_iff c).1 closes with rfl | rfl
  · exact .inl ⟨opens, is⟩
  · exact .inr ⟨opens, is⟩

/-- A nested list leaves the open brackets as they are. -/
theorem Nested.openBehind (h : Nested ts) (opened : List Symbol) :
    openBehind opened ts = some opened := by
  induction h generalizing opened with
  | nil => rfl
  | token neutral _ ih =>
    rw [openBehind_cons, openAfter_of_neutral neutral]
    exact ih opened
  | @group opening close inside rest shape _ _ inner outer =>
    obtain ⟨s, is⟩ := exists_symbol (t := opening) (by rw [shape.opens]; decide)
    obtain ⟨c, is'⟩ := exists_symbol (t := close) (by rw [shape.closes]; decide)
    have fits : s = c.opener := by
      rcases shape with ⟨one, two⟩ | ⟨one, two⟩ <;> cases is.symm.trans one <;>
        cases is'.symm.trans two <;> rfl
    rw [List.cons_append, openBehind_cons, openAfter_of_opening is shape.opens, Option.bind_some,
      openBehind_append, inner, Option.bind_some, openBehind_cons,
      (openAfter_of_closing is' shape.closes).2 (by rw [fits]), Option.bind_some, outer]

/-! ### The bracket that closes a group -/

/-- **The bracket that a count finds has the right shape.**  Behind the opening bracket `s`, in
which the brackets `within` are open, a list closes all that is open.  Then the count finds the
bracket that closes `s`. -/
theorem exists_untilClose (within : List Symbol)
    (h : openBehind (within ++ s :: opened) ts = some []) :
    ∃ inside close rest c, untilClose within.length ts = some (inside, close, rest) ∧
      openBehind within inside = some [] ∧ symbol? close = some c ∧
      bracketRole close = .closing ∧ s = c.opener ∧ openBehind opened rest = some [] := by
  induction ts generalizing within with
  | nil => simp [openBehind] at h
  | cons t ts ih =>
    rw [openBehind_cons] at h
    simp only [untilClose]
    cases role : bracketRole t with
    | neutral =>
      rw [openAfter_of_neutral role] at h
      obtain ⟨inside, close, rest, c, cut, inner, closing⟩ := ih within h
      refine ⟨t :: inside, close, rest, c, ?_, ?_, closing⟩
      · simp only [cut, Option.map_some]
      · rw [openBehind_cons, openAfter_of_neutral role]
        exact inner
    | opening =>
      obtain ⟨o, is⟩ := exists_symbol (t := t) (by rw [role]; decide)
      rw [openAfter_of_opening is role] at h
      obtain ⟨inside, close, rest, c, cut, inner, closing⟩ := ih (o :: within) h
      refine ⟨t :: inside, close, rest, c, ?_, ?_, closing⟩
      · rw [List.length_cons] at cut
        simp only [cut, Option.map_some]
      · rw [openBehind_cons, openAfter_of_opening is role]
        exact inner
    | closing =>
      obtain ⟨c, is⟩ := exists_symbol (t := t) (by rw [role]; decide)
      obtain ⟨opened', after, more⟩ := Option.bind_eq_some_iff.1 h
      have inner := (openAfter_of_closing is role).1 after
      cases within with
      | nil =>
        cases inner
        exact ⟨[], t, ts, c, rfl, rfl, is, role, rfl, more⟩
      | cons o within =>
        obtain ⟨rfl, rfl⟩ := List.cons.inj inner
        obtain ⟨inside, close, rest, c', cut, inner, closing⟩ := ih within more
        refine ⟨t :: inside, close, rest, c', ?_, ?_, closing⟩
        · simp only [List.length_cons, cut, Option.map_some]
        · rw [openBehind_cons, (openAfter_of_closing is role).2 rfl]
          exact inner

theorem nested_of_openBehind {ts : List τ} (h : openBehind [] ts = some []) : Nested ts := by
  match ts with
  | [] => exact .nil
  | t :: ts =>
    rw [openBehind_cons] at h
    cases role : bracketRole t with
    | neutral =>
      rw [openAfter_of_neutral role, Option.bind_some] at h
      exact .token role (nested_of_openBehind h)
    | closing =>
      obtain ⟨c, is⟩ := exists_symbol (t := t) (by rw [role]; decide)
      obtain ⟨_, after, -⟩ := Option.bind_eq_some_iff.1 h
      cases (openAfter_of_closing is role).1 after
    | opening =>
      obtain ⟨s, is⟩ := exists_symbol (t := t) (by rw [role]; decide)
      rw [openAfter_of_opening is role, Option.bind_some] at h
      obtain ⟨inside, close, rest, c, cut, inner, is', closes, fits, outer⟩ :=
        exists_untilClose [] h
      have shorter := length_of_untilClose cut
      rw [← append_of_untilClose cut, ← List.cons_append]
      exact .group (sameShape_of_opener (fits ▸ is) is' closes) (nested_of_openBehind inner)
        (nested_of_openBehind outer)
termination_by ts.length
decreasing_by all_goals (simp only [List.length_cons]; omega)

/-- **A list is nested iff it leaves no bracket open and closes none that it did not open.** -/
theorem nested_iff : Nested ts ↔ openBehind [] ts = some [] :=
  ⟨fun h => h.openBehind [], nested_of_openBehind⟩

/-- What closes all brackets that were open before it is disciplined, so the rest of a nested list
is, wherever it starts. -/
theorem disciplined_of_openBehind (h : openBehind opened ts = some []) : Disciplined ts := by
  rintro before opening behind rfl role
  obtain ⟨s, is⟩ := exists_symbol (t := opening) (by rw [role]; decide)
  rw [openBehind_append] at h
  obtain ⟨between, -, h⟩ := Option.bind_eq_some_iff.1 h
  rw [openBehind_cons, openAfter_of_opening is role] at h
  obtain ⟨inside, close, rest, c, cut, inner, is', closes, fits, -⟩ :=
    exists_untilClose [] h
  exact ⟨inside, close, rest, cut, sameShape_of_opener (fits ▸ is) is' closes, nested_iff.2 inner⟩

theorem Disciplined.of_append {xs ys : List τ} (h : Disciplined (xs ++ ys)) : Disciplined ys := by
  rintro before opening behind rfl role
  exact h (xs ++ before) opening behind (List.append_assoc ..).symm role

theorem Disciplined.tail (h : Disciplined (t :: ts)) : Disciplined ts :=
  @of_append _ _ [t] ts h

theorem Nested.disciplined (h : Nested ts) : Disciplined ts :=
  disciplined_of_openBehind (h.openBehind [])

theorem Nested.append {us : List τ} (h : Nested ts) (h' : Nested us) : Nested (ts ++ us) := by
  rw [nested_iff, openBehind_append, h.openBehind, Option.bind_some, h'.openBehind]

/-- Only the symbols of a list matter. -/
theorem openBehind_congr {σ : Type} [HasSymbol σ] {us : List σ}
    (same : us.map symbol? = ts.map symbol?) (opened : List Symbol) :
    openBehind opened us = openBehind opened ts := by
  have only : ∀ {σ : Type} [HasSymbol σ] (us : List σ), openBehind opened us =
      (us.map symbol?).foldlM (fun opened (o : Option Symbol) => match o with
        | none => some opened
        | some s => openAfter opened (Token.symbol s)) opened := by
    intro σ _ us
    rw [List.foldlM_map]
    rfl
  rw [only us, only ts, same]

/-! ### Checking -/

instance : Decidable (SameShape opening close) :=
  inferInstanceAs (Decidable (_ ∧ _ ∨ _ ∧ _))

instance : Decidable (Nested ts) := decidable_of_iff _ nested_iff.symm

theorem disciplined_cons : Disciplined (t :: ts) ↔
    (bracketRole t = .opening → (untilClose 0 ts).any (fun (inside, close, _) =>
      SameShape t close ∧ Nested inside) = true) ∧ Disciplined ts := by
  constructor
  · intro h
    refine ⟨fun role => ?_, Disciplined.tail h⟩
    obtain ⟨inside, close, rest, cut, fits, inner⟩ := h [] t ts rfl role
    rw [cut]
    simp [fits, inner]
  · rintro ⟨first, more⟩ before opening behind eq role
    cases before with
    | nil =>
      obtain ⟨rfl, rfl⟩ := List.cons.inj eq
      have found := first role
      cases cut : untilClose 0 ts with
      | none =>
        rw [cut] at found
        cases found
      | some answer =>
        obtain ⟨inside, close, rest⟩ := answer
        rw [cut] at found
        obtain ⟨fits, inner⟩ : SameShape t close ∧ Nested inside := by simpa using found
        exact ⟨inside, close, rest, rfl, fits, inner⟩
    | cons u before =>
      obtain ⟨rfl, rfl⟩ := List.cons.inj eq
      exact more before opening behind rfl role

instance decidableDisciplined : (ts : List τ) → Decidable (Disciplined ts)
  | [] => .isTrue fun before _ _ eq => by cases before <;> cases eq
  | _ :: ts =>
    have := decidableDisciplined ts
    decidable_of_iff _ disciplined_cons.symm

/-- A bracket that is closed by one of the other shape is noticed. -/
example : ¬ Disciplined [Token.symbol .parenLeft, .symbol .bracketRight] := by decide

/-! ### Groups and pieces of nested lists -/

/-- A group is cut out, and what follows it closes what was open before the group. -/
theorem openBehind_of_untilClose (role : bracketRole opening = .opening)
    (h : openBehind opened (opening :: ts) = some []) :
    ∃ inside close rest, untilClose 0 ts = some (inside, close, rest) ∧
      SameShape opening close ∧ Nested inside ∧ openBehind opened rest = some [] := by
  obtain ⟨s, is⟩ := exists_symbol (t := opening) (by rw [role]; decide)
  rw [openBehind_cons, openAfter_of_opening is role] at h
  obtain ⟨inside, close, rest, c, cut, inner, is', closes, fits, outer⟩ :=
    exists_untilClose [] h
  exact ⟨inside, close, rest, cut, sameShape_of_opener (fits ▸ is) is' closes, nested_iff.2 inner,
    outer⟩

/-- The pieces of a nested list are nested; where brackets are open before the list, the first
piece closes them. -/
theorem openBehind_of_splitTop (separator : Symbol) {first : List τ} {pieces : List (List τ)}
    (h : openBehind opened ts = some [])
    (split : splitTop separator opened.length ts = first :: pieces) :
    openBehind opened first = some [] ∧ ∀ piece ∈ pieces, Nested piece := by
  induction ts generalizing opened first pieces with
  | nil =>
    cases split
    exact ⟨h, nofun⟩
  | cons t ts ih =>
    rw [openBehind_cons] at h
    obtain ⟨opened', after, rest⟩ := Option.bind_eq_some_iff.1 h
    have further : consToFirst t (splitTop separator opened'.length ts) = first :: pieces →
        openBehind opened first = some [] ∧ ∀ piece ∈ pieces, Nested piece := by
      intro eq
      obtain ⟨first', pieces', split⟩ :=
        List.exists_cons_of_ne_nil (splitTop_ne_nil separator opened'.length ts)
      rw [split] at eq
      cases eq
      obtain ⟨one, more⟩ := ih rest split
      exact ⟨by rwa [openBehind_cons, after], more⟩
    simp only [splitTop] at split
    cases role : bracketRole t with
    | opening =>
      obtain ⟨o, is⟩ := exists_symbol (t := t) (by rw [role]; decide)
      cases (openAfter_of_opening is role).symm.trans after
      rw [role] at split
      exact further split
    | closing =>
      obtain ⟨c, is⟩ := exists_symbol (t := t) (by rw [role]; decide)
      obtain rfl := (openAfter_of_closing is role).1 after
      rw [role] at split
      exact further split
    | neutral =>
      cases (openAfter_of_neutral role).symm.trans after
      rw [role] at split
      dsimp only at split
      split at split
      · rename_i separates
        obtain rfl : opened = [] :=
          List.length_eq_zero_iff.1 (eq_of_beq (Bool.and_eq_true_iff.1 separates).2)
        cases split
        obtain ⟨one, more, split⟩ :=
          List.exists_cons_of_ne_nil (splitTop_ne_nil separator 0 ts)
        obtain ⟨here, behind⟩ := ih rest split
        refine ⟨rfl, fun piece mem => ?_⟩
        change piece ∈ splitTop separator 0 ts at mem
        rw [split] at mem
        rcases List.mem_cons.1 mem with rfl | mem
        · exact nested_of_openBehind here
        · exact behind piece mem
      · exact further split

theorem nested_of_splitTop {separator : Symbol} (h : Nested ts) {piece : List τ}
    (mem : piece ∈ splitTop separator 0 ts) : Nested piece := by
  obtain ⟨first, pieces, split⟩ := List.exists_cons_of_ne_nil (splitTop_ne_nil separator 0 ts)
  obtain ⟨one, more⟩ := openBehind_of_splitTop separator (h.openBehind []) split
  rw [split] at mem
  rcases List.mem_cons.1 mem with rfl | mem
  · exact nested_of_openBehind one
  · exact more piece mem

end MatrixCalc
