import Mathlib
import MatrixCalc.Proofs.Pieces
import MatrixCalc.Proofs.Run

/-!
# Declarations that can be read

The declaration of a macro is its name, its parameters in round brackets with single commas between
them, `=` and its body.  Reading takes it apart from left to right and has many ways to refuse it;
in the end it accepts what writing gives.

* `Macro.readParams_eq_ok_iff` : the parameters that are read, up to the bracket that closes them.
* `Macro.declarable_of_ofTokens`, `Macro.Declarable.ofTokens_toTokens` : what is read is how the
  macro is written, and what is written is read.
* `Macro.ofTokens_eq_ok_iff` : **a list of tokens is read as a macro iff it is how that macro is
  written**, and the macro has no parameter twice, and a body that is not empty and has no `=`.
-/

namespace MatrixCalc

namespace Macro

variable {name : String} {known params : List String} {tokens rest : List Token} {m : Macro}

/-! ### Words and symbols -/

theorem readWord_eq_ok_iff {what : String} :
    readWord what tokens = .ok (name, rest) ↔ tokens = .word name :: rest := by
  cases tokens with
  | nil => simp [readWord]
  | cons t tokens => cases t <;> simp [readWord]

theorem readSymbol_eq_ok_iff {s : Symbol} :
    readSymbol s tokens = .ok rest ↔ tokens = .symbol s :: rest := by
  cases tokens with
  | nil => simp [readSymbol]
  | cons t tokens =>
    simp only [readSymbol, List.cons.injEq]
    by_cases is : t = .symbol s
    · subst is
      simp [Token.isSymbol_iff.2 rfl]
    · simp [mt Token.isSymbol_iff.1 is, is]

/-! ### Parameters -/

/-- Parameters with commas between them. -/
def paramTokens (params : List String) : List Token :=
  ((params.map fun param => [Token.word param]).intersperse [.symbol .comma]).flatten

theorem paramTokens_singleton (param : String) : paramTokens [param] = [.word param] := rfl

theorem paramTokens_cons_cons (param next : String) (params : List String) :
    paramTokens (param :: next :: params) =
      .word param :: .symbol .comma :: paramTokens (next :: params) := by
  simp [paramTokens]

/-- Parameters start with a word. -/
theorem exists_paramTokens (first : String) (more : List String) :
    ∃ behind, paramTokens (first :: more) = .word first :: behind := by
  cases more with
  | nil => exact ⟨[], rfl⟩
  | cons next more => exact ⟨_, paramTokens_cons_cons first next more⟩

theorem toTokens_eq (m : Macro) : m.toTokens = .word m.name :: .symbol .parenLeft ::
    (paramTokens m.params ++ .symbol .parenRight :: .symbol .assign :: m.body) := rfl

/-- **The parameters that are read**, one at least: words with single commas between them, none of
them twice, and the bracket behind them. -/
theorem readParams_eq_ok_iff (nodup : known.Nodup) :
    readParams name known tokens = .ok (params, rest) ↔ ∃ first more,
      params = known ++ first :: more ∧ params.Nodup ∧
        tokens = paramTokens (first :: more) ++ .symbol .parenRight :: rest := by
  fun_induction readParams name known tokens with
  | case1 known param rest' again =>
    refine iff_of_false nofun ?_
    rintro ⟨first, more, rfl, distinct, eq⟩
    obtain ⟨behind, start⟩ := exists_paramTokens first more
    rw [start] at eq
    cases eq
    exact (List.nodup_append'.1 distinct).2.2 again List.mem_cons_self
  | case2 known param new t rest' comma ih =>
    obtain rfl := Token.isSymbol_iff.1 comma
    have nodup' : (known ++ [param]).Nodup := by
      rw [List.nodup_append_comm]
      exact List.nodup_cons.2 ⟨new, nodup⟩
    rw [ih nodup']
    constructor
    · rintro ⟨first, more, rfl, distinct, rfl⟩
      exact ⟨param, first :: more, by simp, distinct, by simp [paramTokens_cons_cons]⟩
    · rintro ⟨first, more, rfl, distinct, eq⟩
      cases more with
      | nil => simp [paramTokens_singleton] at eq
      | cons next more =>
        rw [paramTokens_cons_cons] at eq
        obtain ⟨rfl, rfl⟩ : param = first ∧ rest' = _ := by simpa using eq
        exact ⟨next, more, by simp, distinct, rfl⟩
  | case3 known param new t rest' other =>
    constructor
    · intro h
      cases closing : readSymbol .parenRight (t :: rest') with
      | error e =>
        rw [closing] at h
        cases h
      | ok rest'' =>
        rw [closing] at h
        cases h
        cases readSymbol_eq_ok_iff.1 closing
        refine ⟨param, [], rfl, ?_, rfl⟩
        rw [List.nodup_append_comm]
        exact List.nodup_cons.2 ⟨new, nodup⟩
    · rintro ⟨first, more, rfl, distinct, eq⟩
      cases more with
      | nil =>
        obtain ⟨rfl, rfl, rfl⟩ : param = first ∧ t = .symbol .parenRight ∧ rest' = rest := by
          simpa [paramTokens_singleton] using eq
        rw [readSymbol_eq_ok_iff.2 rfl]
        rfl
      | cons next more =>
        rw [paramTokens_cons_cons] at eq
        obtain ⟨-, rfl, -⟩ : param = first ∧ t = _ ∧ rest' = _ := by simpa using eq
        exact absurd (Token.isSymbol_iff.2 rfl) other
  | case4 known param new =>
    refine iff_of_false nofun ?_
    rintro ⟨first, more, -, -, eq⟩
    obtain ⟨behind, start⟩ := exists_paramTokens first more
    rw [start] at eq
    simp at eq
  | case5 known t rest' noWord =>
    refine iff_of_false nofun ?_
    rintro ⟨first, more, -, -, eq⟩
    obtain ⟨behind, start⟩ := exists_paramTokens first more
    rw [start] at eq
    exact noWord first (List.cons.inj eq).1
  | case6 known =>
    refine iff_of_false nofun ?_
    rintro ⟨first, more, -, -, eq⟩
    obtain ⟨behind, start⟩ := exists_paramTokens first more
    rw [start] at eq
    cases eq

/-! ### Declarations -/

/-- A macro that can be declared: no parameter occurs twice, and the body is not empty and assigns
nothing. -/
structure Declarable (m : Macro) : Prop where
  /-- The parameters are distinct. -/
  distinct : m.params.Nodup
  /-- There is a body. -/
  filled : m.body ≠ []
  /-- There is no `=` in the body. -/
  plain : .symbol .assign ∉ m.body

/-- What is read behind the parameters. -/
theorem readBody_eq_ok_iff : (do
      let body ← readSymbol .assign tokens
      if body.isEmpty then throw (.emptyBody name)
      if body.any (isSymbol .assign) then throw (.assignmentInBody name)
      return ({ name, params, body } : Macro)) = Except.ok m ↔
    tokens = .symbol .assign :: m.body ∧ m.body ≠ [] ∧ .symbol .assign ∉ m.body ∧
      name = m.name ∧ params = m.params := by
  have assigns : ∀ body : List Token,
      body.any (isSymbol .assign) = true ↔ .symbol .assign ∈ body := by
    intro body
    simp [List.any_eq_true, Token.isSymbol_iff]
  cases found : readSymbol .assign tokens with
  | error e =>
    refine iff_of_false nofun ?_
    rintro ⟨eq, -⟩
    cases found.symm.trans (readSymbol_eq_ok_iff.2 eq)
  | ok body =>
    obtain rfl := readSymbol_eq_ok_iff.1 found
    show (if body.isEmpty then _ else _) = _ ↔ _
    by_cases empty : body = []
    · subst empty
      refine iff_of_false nofun ?_
      rintro ⟨eq, filled, -⟩
      exact filled (List.cons.inj eq).2.symm
    · rw [if_neg (mt List.isEmpty_iff.1 empty)]
      show (if body.any (isSymbol .assign) then _ else _) = _ ↔ _
      by_cases assigning : .symbol .assign ∈ body
      · rw [if_pos ((assigns body).2 assigning)]
        refine iff_of_false nofun ?_
        rintro ⟨eq, -, plain, -⟩
        exact plain ((List.cons.inj eq).2 ▸ assigning)
      · rw [if_neg (mt (assigns body).1 assigning)]
        constructor
        · intro h
          cases h
          exact ⟨rfl, empty, assigning, rfl, rfl⟩
        · rintro ⟨eq, -, -, rfl, rfl⟩
          cases eq
          rfl

theorem Declarable.ofTokens_toTokens (h : m.Declarable) : ofTokens m.toTokens = .ok m := by
  obtain ⟨name, params, body⟩ := m
  cases params with
  | nil => exact readBody_eq_ok_iff.2 ⟨rfl, h.filled, h.plain, rfl, rfl⟩
  | cons first more =>
    have between := (@readParams_eq_ok_iff name [] (first :: more) _ (.symbol .assign :: body)
      List.nodup_nil).2 ⟨first, more, rfl, h.distinct, rfl⟩
    obtain ⟨behind, start⟩ := exists_paramTokens first more
    rw [start] at between
    rw [toTokens_eq]
    show ofTokens (_ :: _ :: (paramTokens (first :: more) ++ _)) = _
    rw [start]
    refine except_bind_eq_ok_iff.2 ⟨(name, _), rfl, except_bind_eq_ok_iff.2 ⟨_, rfl, ?_⟩⟩
    exact except_bind_eq_ok_iff.2
      ⟨_, between, readBody_eq_ok_iff.2 ⟨rfl, h.filled, h.plain, rfl, rfl⟩⟩

theorem declarable_of_ofTokens (h : ofTokens tokens = .ok m) :
    m.Declarable ∧ tokens = m.toTokens := by
  obtain ⟨⟨name, rest₁⟩, word, h₁⟩ := except_bind_eq_ok_iff.1 h
  obtain ⟨rest₂, opening, h₂⟩ := except_bind_eq_ok_iff.1 h₁
  obtain rfl := readWord_eq_ok_iff.1 word
  obtain rfl := readSymbol_eq_ok_iff.1 opening
  dsimp only at h₂
  split at h₂
  · obtain ⟨rfl, filled, plain, rfl, none⟩ := readBody_eq_ok_iff.1 h₂
    refine ⟨⟨none ▸ List.nodup_nil, filled, plain⟩, ?_⟩
    rw [toTokens_eq, ← none]
    rfl
  · obtain ⟨⟨params, rest₃⟩, between, h₃⟩ := except_bind_eq_ok_iff.1 h₂
    obtain ⟨rfl, filled, plain, rfl, rfl⟩ := readBody_eq_ok_iff.1 h₃
    obtain ⟨first, more, eq, distinct, rfl⟩ := (readParams_eq_ok_iff List.nodup_nil).1 between
    refine ⟨⟨distinct, filled, plain⟩, ?_⟩
    rw [toTokens_eq, eq]
    rfl

/-- **A list of tokens is read as a macro iff it is how that macro is written**: a word, an opening
bracket, distinct words with single commas between them, a closing bracket, `=`, and a body that is
not empty and has no `=`.  So every such macro is read back from what is written. -/
theorem ofTokens_eq_ok_iff (tokens : List Token) (m : Macro) :
    (ofTokens tokens = .ok m ↔ m.Declarable ∧ tokens = m.toTokens) ∧
      (ofTokens m.toTokens = .ok m ↔ m.Declarable) := by
  refine ⟨⟨declarable_of_ofTokens, ?_⟩, fun h => (declarable_of_ofTokens h).1, ?_⟩
  · rintro ⟨declarable, rfl⟩
    exact declarable.ofTokens_toTokens
  · exact Declarable.ofTokens_toTokens

/-- A comma that nothing follows is refused. -/
example : (ofTokens [.word "f", .symbol .parenLeft, .word "a", .symbol .comma, .symbol .parenRight,
    .symbol .assign, .word "a"]).toOption.isNone = true := by rfl

end Macro

end MatrixCalc
