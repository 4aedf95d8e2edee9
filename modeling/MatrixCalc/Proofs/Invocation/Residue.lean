import MatrixCalc.Proofs.Invocation.Expansion
import MatrixCalc.Token.Lexer

/-!
# Invocations that an expansion leaves

A replacement is put in brackets, and the scan goes on behind it.  It never looks at the token in
front of a replacement again: if that is the name of a macro, name and bracket are an invocation
that stays in the result.  There is no other way for one to stay.

* `Macro.Invokes` : an invocation stands in the tokens.
* `Macro.Abuts` : the scan meets an invocation that stands directly behind the name of a macro.
* `Macro.Unfolds.invokes_iff` : an expansion leaves an invocation iff the scan meets such a place.
* `Macro.expand_complete_iff` : **an expansion is complete, and stable under a second one, iff the
  scan meets no invocation behind the name of a macro.**
-/

namespace MatrixCalc

namespace Macro

variable {table : Bindings Macro}

/-- The name of a macro, directly followed by an opening bracket, stands in the tokens. -/
def Invokes (table : Bindings Macro) (tokens : List Token) : Prop :=
  ∃ before name m after, table.find? name = some m ∧
    tokens = before ++ .word name :: .symbol .parenLeft :: after

/-- Expanding the tokens, the scan comes to an invocation whose name stands directly behind the
name of a macro: in the tokens themselves, or in what an invocation stands for. -/
inductive Abuts (table : Bindings Macro) : List Token → Prop
  | here {front name : String} {other m : Macro} {tokens : List Token}
      (before : table.find? front = some other) (found : table.find? name = some m) :
      Abuts table (.word front :: .word name :: .symbol .parenLeft :: tokens)
  | token {t : Token} {tokens : List Token} (plain : NoCall table t tokens)
      (more : Abuts table tokens) : Abuts table (t :: tokens)
  | inside {name : String} {m : Macro} {tokens inside rest : List Token} {close : Token}
      {args : List (List Token)} (found : table.find? name = some m)
      (cut : untilClose 0 tokens = some (inside, close, rest))
      (parsed : m.arguments inside = .ok args) (inner : Abuts table (m.instantiate args)) :
      Abuts table (.word name :: .symbol .parenLeft :: tokens)
  | behind {name : String} {m : Macro} {tokens inside rest : List Token} {close : Token}
      (found : table.find? name = some m)
      (cut : untilClose 0 tokens = some (inside, close, rest)) (more : Abuts table rest) :
      Abuts table (.word name :: .symbol .parenLeft :: tokens)

/-! ### Where an invocation can stand -/

/-- An invocation stands at the front of the tokens. -/
def Starts (table : Bindings Macro) (tokens : List Token) : Prop :=
  ∃ name m rest, table.find? name = some m ∧ tokens = .word name :: .symbol .parenLeft :: rest

section Places

variable {t : Token} {tokens xs ys : List Token}

theorem not_starts_iff : ¬ Starts table (t :: tokens) ↔ NoCall table t tokens := by
  constructor
  · intro h name m rest eq found eq'
    exact h ⟨name, m, rest, found, by rw [eq, eq']⟩
  · rintro plain ⟨name, m, rest, found, eq⟩
    cases eq
    exact plain name m rest rfl found rfl

theorem not_invokes_nil : ¬ Invokes table [] := by
  rintro ⟨before, name, m, after, -, eq⟩
  cases before <;> cases eq

/-- An invocation stands at the front or in the rest. -/
theorem invokes_cons_iff :
    Invokes table (t :: tokens) ↔ Starts table (t :: tokens) ∨ Invokes table tokens := by
  constructor
  · rintro ⟨before, name, m, after, found, eq⟩
    cases before with
    | nil => exact .inl ⟨name, m, after, found, eq⟩
    | cons u before =>
      cases eq
      exact .inr ⟨before, name, m, after, found, rfl⟩
  · rintro (⟨name, m, rest, found, eq⟩ | ⟨before, name, m, after, found, rfl⟩)
    · exact ⟨[], name, m, rest, found, eq⟩
    · exact ⟨t :: before, name, m, after, found, rfl⟩

/-- No invocation reaches over the end of tokens that end with a symbol. -/
theorem invokes_append_iff {s : Symbol} (ends : xs.getLast? = some (.symbol s)) :
    Invokes table (xs ++ ys) ↔ Invokes table xs ∨ Invokes table ys := by
  induction xs with
  | nil => cases ends
  | cons t xs ih =>
    rw [List.cons_append, invokes_cons_iff, invokes_cons_iff]
    cases xs with
    | nil =>
      cases ends
      simp [Starts, not_invokes_nil]
    | cons u xs =>
      rw [List.getLast?_cons_cons] at ends
      rw [ih ends, ← or_assoc]
      simp [Starts]

end Places

/-! ### What the scan meets -/

section Scan

variable {t : Token} {name : String} {m : Macro} {tokens inside rest : List Token}
  {close : Token} {args : List (List Token)}

theorem not_abuts_nil : ¬ Abuts table [] := by
  intro h
  cases h

/-- At an invocation, the scan goes into what it stands for and on behind it. -/
theorem abuts_call_iff (found : table.find? name = some m)
    (cut : untilClose 0 tokens = some (inside, close, rest))
    (parsed : m.arguments inside = .ok args) :
    Abuts table (.word name :: .symbol .parenLeft :: tokens) ↔
      Abuts table (m.instantiate args) ∨ Abuts table rest := by
  constructor
  · intro h
    cases h with
    | token plain => exact absurd rfl (plain name m tokens rfl found)
    | inside found' cut' parsed' inner =>
      rw [found] at found'
      cases found'
      rw [cut] at cut'
      cases cut'
      rw [parsed] at parsed'
      cases parsed'
      exact .inl inner
    | behind _ cut' more =>
      rw [cut] at cut'
      cases cut'
      exact .inr more
  · rintro (inner | more)
    · exact .inside found cut parsed inner
    · exact .behind found cut more

/-- At any other token, the scan goes on behind it. -/
theorem abuts_token_iff (plain : NoCall table t tokens) :
    Abuts table (t :: tokens) ↔
      (∃ front other, t = .word front ∧ table.find? front = some other) ∧ Starts table tokens ∨
        Abuts table tokens := by
  constructor
  · intro h
    cases h with
    | here before found => exact .inl ⟨⟨_, _, rfl, before⟩, _, _, _, found, rfl⟩
    | token _ more => exact .inr more
    | inside found | behind found => exact absurd rfl (plain _ _ _ rfl found)
  · rintro (⟨⟨front, other, rfl, before⟩, name, m, rest, found, rfl⟩ | more)
    · exact .here before found
    · exact .token plain more

/-- There is nothing to meet where no macro is named. -/
theorem not_abuts_of_unnamed (unnamed : ∀ name, .word name ∈ tokens → table.find? name = none) :
    ¬ Abuts table tokens := by
  induction tokens with
  | nil => exact not_abuts_nil
  | cons t tokens ih =>
    have free : ∀ name, t = .word name → table.find? name = none := by
      rintro name rfl
      exact unnamed name List.mem_cons_self
    rw [abuts_token_iff (noCall_of_free free)]
    rintro (⟨⟨front, other, eq, found⟩, -⟩ | more)
    · rw [free front eq] at found
      cases found
    · exact ih (fun name mem => unnamed name (List.mem_cons_of_mem _ mem)) more

end Scan

/-! ### The ends of an expansion -/

section Ends

variable {n : Nat} {t : Token} {tokens x y : List Token} {m : Macro} {args : List (List Token)}

theorem getLast?_instantiate : (m.instantiate args).getLast? = some (.symbol .parenRight) :=
  List.getLast?_concat

/-- A replacement stays in its opening bracket. -/
theorem Unfolds.parenLeft_of_instantiate (h : Unfolds table n (m.instantiate args) x) :
    ∃ y, x = .symbol .parenLeft :: y := by
  obtain ⟨y, rfl, -⟩ := h.of_noCall noCall_of_symbol
  exact ⟨y, rfl⟩

/-- An expansion ends with a bracket if the tokens do. -/
theorem Unfolds.getLast?_eq (h : Unfolds table n tokens x)
    (ends : tokens.getLast? = some (.symbol .parenRight)) :
    x.getLast? = some (.symbol .parenRight) := by
  induction h with
  | nil => cases ends
  | @call n name m tokens inside rest close args x y _ cut _ _ outer inner more =>
    have closed := inner getLast?_instantiate
    rw [List.getLast?_append]
    cases rest with
    | nil =>
      rw [outer.of_nil]
      exact closed
    | cons u rest =>
      have last : (u :: rest).getLast? = some (.symbol .parenRight) := by
        rw [← append_of_untilClose cut] at ends
        simpa [List.getLast?_cons, List.getLast?_append] using ends
      rw [more last]
      rfl
  | @token n t tokens y _ outer more =>
    cases tokens with
    | nil =>
      rw [outer.of_nil]
      exact ends
    | cons u tokens =>
      rw [List.getLast?_cons_cons] at ends
      rw [List.getLast?_cons, more ends]
      rfl

/-- An expansion starts with an opening bracket iff the tokens do, or start with an invocation. -/
theorem Unfolds.parenLeft_iff (h : Unfolds table n tokens x) :
    (∃ y, x = .symbol .parenLeft :: y) ↔
      (∃ rest, tokens = .symbol .parenLeft :: rest) ∨ Starts table tokens := by
  cases h with
  | nil => simp [Starts]
  | call found _ _ inner =>
    obtain ⟨y, rfl⟩ := inner.parenLeft_of_instantiate
    exact iff_of_true ⟨_, rfl⟩ (.inr ⟨_, _, _, found, rfl⟩)
  | token plain =>
    rw [or_iff_left (not_starts_iff.2 plain)]
    simp

/-- The name of a macro is followed by an opening bracket in the expansion, but not in the tokens,
iff an invocation stands behind it there. -/
theorem Unfolds.starts_iff (h : Unfolds table n tokens y) (plain : NoCall table t tokens) :
    Starts table (t :: y) ↔
      (∃ front other, t = .word front ∧ table.find? front = some other) ∧ Starts table tokens := by
  constructor
  · rintro ⟨name, m, rest, found, eq⟩
    cases eq
    refine ⟨⟨name, m, rfl, found⟩, ?_⟩
    obtain ⟨after, eq⟩ | starts := h.parenLeft_iff.1 ⟨rest, rfl⟩
    · exact absurd eq (plain name m after rfl found)
    · exact starts
  · rintro ⟨⟨front, other, rfl, before⟩, starts⟩
    obtain ⟨rest, rfl⟩ := h.parenLeft_iff.2 (.inr starts)
    exact ⟨front, other, rest, before, rfl⟩

end Ends

/-! ### What stays -/

variable {n : Nat} {tokens x expanded : List Token} {log log' : List Event}

/-- **An invocation stays in an expansion iff the scan meets one behind the name of a macro.** -/
theorem Unfolds.invokes_iff (h : Unfolds table n tokens x) :
    Invokes table x ↔ Abuts table tokens := by
  induction h with
  | nil => exact iff_of_false not_invokes_nil not_abuts_nil
  | call found cut parsed first _ inner more =>
    rw [invokes_append_iff (first.getLast?_eq getLast?_instantiate), inner, more,
      abuts_call_iff found cut parsed]
  | token plain rest more =>
    rw [invokes_cons_iff, rest.starts_iff plain, more, abuts_token_iff plain]

/-- Tokens that expand to themselves hold no invocation. -/
theorem Unfolds.not_invokes_of_eq (h : Unfolds table n tokens x) (same : x = tokens) :
    ¬ Invokes table tokens := by
  induction h with
  | nil => exact not_invokes_nil
  | call _ _ _ inner =>
    -- a bracket has taken the place of the name
    obtain ⟨_, rfl⟩ := inner.parenLeft_of_instantiate
    cases same
  | token plain _ more =>
    rw [List.cons.injEq] at same
    rw [invokes_cons_iff, not_or, not_starts_iff]
    exact ⟨plain, more same.2⟩

theorem replaceCalls_eq_pure (inner : List Token → Logged (List Token))
    (free : ¬ Invokes table tokens) : replaceCalls table inner tokens = pure tokens := by
  fun_induction replaceCalls table inner tokens with
  | case1 => rfl
  | case2 name tokens notFound ih =>
    rw [invokes_cons_iff, not_or] at free
    rw [ih free.2]
    rfl
  | case3 name tokens m found =>
    exact absurd ⟨[], name, m, tokens, found, rfl⟩ free
  | case4 name tokens m found =>
    exact absurd ⟨[], name, m, tokens, found, rfl⟩ free
  | case5 t tokens _ ih =>
    rw [invokes_cons_iff, not_or] at free
    rw [ih free.2]
    rfl

theorem expand_eq_pure (free : ¬ Invokes table tokens) : expand table tokens = pure tokens := by
  rw [expand]
  split
  · rfl
  · exact replaceCalls_eq_pure _ free

theorem isEmpty_of_invokes (h : Invokes table tokens) : table.isEmpty = false := by
  obtain ⟨_, name, m, _, found, -⟩ := h
  exact isEmpty_of_find? found

theorem isEmpty_of_abuts (h : Abuts table tokens) : table.isEmpty = false := by
  induction h with
  | here before => exact isEmpty_of_find? before
  | token _ _ ih => exact ih
  | inside found | behind found => exact isEmpty_of_find? found

/-- What an expansion leaves, for all tables. -/
theorem invokes_expanded_iff (run : expand table tokens log = .ok expanded log') :
    Invokes table expanded ↔ Abuts table tokens := by
  cases declared : table.isEmpty with
  | true =>
    refine iff_of_false (fun h => ?_) fun h => ?_
    · cases declared.symm.trans (isEmpty_of_invokes h)
    · cases declared.symm.trans (isEmpty_of_abuts h)
  | false => exact (unfolds_of_expand declared run).invokes_iff

/-- Tokens are their own expansion iff they hold no invocation. -/
theorem expand_eq_self_iff :
    (∃ log', expand table tokens log = .ok tokens log') ↔ ¬ Invokes table tokens := by
  constructor
  · rintro ⟨log', run⟩ left
    exact (unfolds_of_expand (isEmpty_of_invokes left) run).not_invokes_of_eq rfl left
  · intro free
    rw [expand_eq_pure free]
    exact ⟨log, rfl⟩

/-- **An expansion is complete iff the scan meets no invocation behind the name of a macro, and
exactly then a second expansion changes nothing.** -/
theorem expand_complete_iff (run : expand table tokens log = .ok expanded log') :
    (¬ Invokes table expanded ↔ ¬ Abuts table tokens) ∧
      ((∃ later, expand table expanded log' = .ok expanded later) ↔ ¬ Abuts table tokens) := by
  have left := invokes_expanded_iff run
  exact ⟨not_congr left, expand_eq_self_iff.trans (not_congr left)⟩

/-- Two squares: each invocation is replaced, and no other one appears. -/
theorem expand_complete_squares :
    ∃ (square : Macro) (tokens expanded : List Token) (log : List Event),
      square = ⟨"sq", ["x"], [.word "x", .symbol .times, .word "x"]⟩ ∧
      Token.tokenize "sq(2) + sq(3)" = .ok tokens ∧
      expand ⟨[(square.name, square)]⟩ tokens [] = .ok expanded log ∧
      ¬ Invokes ⟨[(square.name, square)]⟩ expanded := by
  let square : Macro := ⟨"sq", ["x"], [.word "x", .symbol .times, .word "x"]⟩
  let table : Bindings Macro := ⟨[(square.name, square)]⟩
  have run : expand table [.word "sq", .symbol .parenLeft, .integer 2, .symbol .parenRight,
        .symbol .plus, .word "sq", .symbol .parenLeft, .integer 3, .symbol .parenRight] [] =
      .ok [.symbol .parenLeft, .integer 2, .symbol .times, .integer 2, .symbol .parenRight,
        .symbol .plus, .symbol .parenLeft, .integer 3, .symbol .times, .integer 3,
        .symbol .parenRight] [.expanding "sq", .expanding "sq"] := by
    with_unfolding_all rfl
  have inside : ∀ n, ¬ Abuts table
      [.symbol .parenLeft, .integer n, .symbol .times, .integer n, .symbol .parenRight] := by
    intro n
    exact not_abuts_of_unnamed (by simp)
  refine ⟨square, _, _, _, rfl, by cbv, run, (expand_complete_iff run).1.2 ?_⟩
  rw [abuts_call_iff rfl rfl rfl, abuts_token_iff noCall_of_symbol, abuts_call_iff rfl rfl rfl]
  rintro (first | ⟨⟨_, _, eq, -⟩, -⟩ | second | nothing)
  · exact inside 2 first
  · cases eq
  · exact inside 3 second
  · exact not_abuts_nil nothing

/-- Two names in front of one bracket: the square becomes the argument of the name before it. -/
theorem expand_leaves_square :
    ∃ declared square list expanded again log log',
      Token.tokenize "sq(x) = x*x" = .ok declared ∧ ofTokens declared = .ok square ∧
      Token.tokenize "sq sq(2)" = .ok list ∧
      expand ⟨[(square.name, square)]⟩ list [] = .ok expanded log ∧
      Invokes ⟨[(square.name, square)]⟩ expanded ∧
      expand ⟨[(square.name, square)]⟩ expanded log = .ok again log' ∧ again ≠ expanded := by
  refine ⟨[.word "sq", .symbol .parenLeft, .word "x", .symbol .parenRight, .symbol .assign,
      .word "x", .symbol .times, .word "x"],
    ⟨"sq", ["x"], [.word "x", .symbol .times, .word "x"]⟩,
    [.word "sq", .word "sq", .symbol .parenLeft, .integer 2, .symbol .parenRight],
    [.word "sq", .symbol .parenLeft, .integer 2, .symbol .times, .integer 2, .symbol .parenRight],
    _, _, _, by cbv, rfl, by cbv, by with_unfolding_all rfl, ⟨[], _, _, _, rfl, rfl⟩,
    by with_unfolding_all rfl, ?_⟩
  intro same
  have := congrArg List.length same
  cases this

end Macro

end MatrixCalc
