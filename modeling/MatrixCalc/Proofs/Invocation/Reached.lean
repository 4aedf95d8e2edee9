import MatrixCalc.Proofs.Brackets.Discipline
import MatrixCalc.Proofs.Chain.Expansion

/-!
# What expansion reaches

The scan of a list reaches an expansion at each invocation.  The scan of what an invocation stands
for reaches further expansions, one level deeper; for a macro that invokes itself there is no end
of them.  Expansion succeeds iff it can do all that it reaches.

* `Macro.Reaches` : the expansions that are reached, with their depths and arguments.
* `Macro.Rewrites` : expansion as a rewriting of plain lists, without any limit, in which all
  parameters are replaced at once.
* `Macro.unfolds_iff_reaches` : **a nested list unfolds iff every expansion that is reached has the
  arguments that the macro takes, and none lies too deep.**
* `Macro.expand_exact` : expansion always ends, it succeeds in exactly these cases, and its result
  is that of the rewriting.
-/

namespace MatrixCalc

namespace Macro

variable {table : Bindings Macro} {m m' : Macro} {name : String} {opened : List Symbol}
  {tokens inside rest x y : List Token} {close : Token} {args : List (List Token)}
  {depth n : Nat}

/-! ### Simultaneous substitution -/

/-- What becomes of the tokens of a body when arguments are put in for all parameters at once. -/
structure Substitutes (m : Macro) (args : List (List Token)) (σ : Token → List Token) : Prop where
  /-- A parameter becomes its argument, in brackets unless that is a single token. -/
  param : ∀ (i : Nat) (param : String) (arg : List Token), m.params[i]? = some param →
    args[i]? = some arg → σ (.word param) = embed arg
  /-- Every other token stays. -/
  other : ∀ t, (∀ param ∈ m.params, t ≠ .word param) → σ t = [t]

/-- Of names that are distinct, each is bound to what stands at its place. -/
theorem lookup_zip_of_nodup {params : List String} (distinct : params.Nodup) {i : Nat}
    {param : String} {arg : List Token} (at_param : params[i]? = some param)
    (at_arg : args[i]? = some arg) : (params.zip args).lookup param = some arg := by
  induction params generalizing args i with
  | nil => cases at_param
  | cons first params ih =>
    cases args with
    | nil => cases at_arg
    | cons arg' args =>
      rw [List.zip_cons_cons, List.lookup_cons]
      cases i with
      | zero =>
        cases at_param
        cases at_arg
        rw [beq_self_eq_true]
      | succ i =>
        have differ : param ≠ first := by
          rintro rfl
          exact (List.nodup_cons.1 distinct).1 (List.mem_of_getElem? at_param)
        rw [beq_false_of_ne differ]
        exact ih (List.nodup_cons.1 distinct).2 at_param at_arg

/-- **Instances are made by simultaneous substitution.** -/
theorem substitutes_zip (distinct : m.params.Nodup) (args : List (List Token)) :
    m.Substitutes args (substitute (m.params.zip args)) where
  param i param arg at_param at_arg := by
    simp only [substitute, lookup_zip_of_nodup distinct at_param at_arg]
  other t outside := by
    cases t with
    | symbol | integer | double => rfl
    | word name =>
      have unbound : (m.params.zip args).lookup name = none := by
        refine List.lookup_eq_none_iff.2 fun entry mem => ?_
        rw [bne_iff_ne]
        rintro rfl
        exact outside _ (List.of_mem_zip mem).1 rfl
      simp only [substitute, unbound]

/-- There is one such substitution if there is an argument for each parameter. -/
theorem Substitutes.unique {σ σ' : Token → List Token} (h : m.Substitutes args σ)
    (h' : m.Substitutes args σ') (takes : m.Takes args) : σ = σ' := by
  funext t
  by_cases parameter : ∃ param ∈ m.params, t = .word param
  · obtain ⟨param, mem, rfl⟩ := parameter
    obtain ⟨i, inside, at_param⟩ := List.getElem_of_mem mem
    have at_param := List.getElem?_eq_some_iff.2 ⟨inside, at_param⟩
    obtain ⟨arg, at_arg⟩ : ∃ arg, args[i]? = some arg :=
      ⟨_, List.getElem?_eq_getElem (takes.count ▸ inside)⟩
    rw [h.param i _ _ at_param at_arg, h'.param i _ _ at_param at_arg]
  · have outside : ∀ param ∈ m.params, t ≠ .word param := fun param mem eq =>
      parameter ⟨param, mem, eq⟩
    rw [h.other t outside, h'.other t outside]

/-! ### Rewriting -/

/-- What tokens are rewritten to.  Invocations are replaced from left to right, and what they stand
for is rewritten in turn; nothing bounds how deep that goes. -/
inductive Rewrites (table : Bindings Macro) : List Token → List Token → Prop
  | nil : Rewrites table [] []
  | call {name : String} {m : Macro} {tokens inside rest : List Token} {close : Token}
      {σ : Token → List Token} {x y : List Token} (found : table.find? name = some m)
      (cut : untilClose 0 tokens = some (inside, close, rest)) (takes : m.Takes (pieces inside))
      (replaced : m.Substitutes (pieces inside) σ)
      (inner : Rewrites table (parenthesize (m.body.flatMap σ)) x) (more : Rewrites table rest y) :
      Rewrites table (.word name :: .symbol .parenLeft :: tokens) (x ++ y)
  | token {t : Token} {tokens y : List Token} (plain : NoCall table t tokens)
      (more : Rewrites table tokens y) : Rewrites table (t :: tokens) (t :: y)

/-- The tokens are rewritten to one list at most. -/
theorem Rewrites.unique (h : Rewrites table tokens x) (h' : Rewrites table tokens y) : x = y := by
  induction h generalizing y with
  | nil =>
    cases h'
    rfl
  | call found cut takes replaced _ _ inner more =>
    cases h' with
    | call found' cut' _ replaced' inner' more' =>
      cases found.symm.trans found'
      cases cut.symm.trans cut'
      cases replaced.unique replaced' takes
      rw [inner inner', more more']
    | token plain => exact absurd rfl (plain _ _ _ rfl found)
  | token plain _ more =>
    cases h' with
    | call found => exact absurd rfl (plain _ _ _ rfl found)
    | token _ more' => rw [more more']

/-- No macro of the table has a parameter twice. -/
def DistinctParams (table : Bindings Macro) : Prop :=
  ∀ name m, table.find? name = some m → m.params.Nodup

theorem Unfolds.rewrites (distinct : DistinctParams table) (h : Unfolds table n tokens x) :
    Rewrites table tokens x := by
  induction h with
  | nil => exact .nil
  | call found cut parsed _ _ inner more =>
    obtain ⟨rfl, takes⟩ := arguments_eq_ok_iff.1 parsed
    exact .call found cut takes (substitutes_zip (distinct _ _ found) _) inner more
  | token plain _ more => exact .token plain more

/-! ### Expansions that are reached -/

/-- The scan of the tokens reaches an expansion of the macro with the arguments.  An invocation in
the tokens themselves is an expansion at depth one, the invocations in what it stands for lie one
level deeper. -/
inductive Reaches (table : Bindings Macro) :
    List Token → Nat → Macro → List (List Token) → Prop
  | here {name : String} {m : Macro} {tokens inside rest : List Token} {close : Token}
      (found : table.find? name = some m)
      (cut : untilClose 0 tokens = some (inside, close, rest)) :
      Reaches table (.word name :: .symbol .parenLeft :: tokens) 1 m (pieces inside)
  | inner {name : String} {m m' : Macro} {tokens inside rest : List Token} {close : Token}
      {depth : Nat} {args : List (List Token)} (found : table.find? name = some m)
      (cut : untilClose 0 tokens = some (inside, close, rest)) (takes : m.Takes (pieces inside))
      (deeper : Reaches table (m.instantiate (pieces inside)) depth m' args) :
      Reaches table (.word name :: .symbol .parenLeft :: tokens) (depth + 1) m' args
  | behind {name : String} {m m' : Macro} {tokens inside rest : List Token} {close : Token}
      {depth : Nat} {args : List (List Token)} (found : table.find? name = some m)
      (cut : untilClose 0 tokens = some (inside, close, rest))
      (further : Reaches table rest depth m' args) :
      Reaches table (.word name :: .symbol .parenLeft :: tokens) depth m' args
  | token {m' : Macro} {t : Token} {tokens : List Token} {depth : Nat} {args : List (List Token)}
      (plain : NoCall table t tokens) (further : Reaches table tokens depth m' args) :
      Reaches table (t :: tokens) depth m' args

theorem Unfolds.pos (h : Unfolds table n tokens x) : 0 < n := by
  cases h <;> exact Nat.succ_pos _

/-- What is reached while tokens unfold can be done. -/
theorem Reaches.of_unfolds (reached : Reaches table tokens depth m args)
    (h : Unfolds table n tokens x) : m.Takes args ∧ depth < n := by
  induction reached generalizing n x with
  | here found cut =>
    obtain ⟨_, _, _, _, _, _, _, rfl, cut', parsed, inner, -, -⟩ := h.of_call found
    cases cut.symm.trans cut'
    obtain ⟨rfl, takes⟩ := arguments_eq_ok_iff.1 parsed
    exact ⟨takes, Nat.succ_lt_succ inner.pos⟩
  | inner found cut _ _ ih =>
    obtain ⟨_, _, _, _, _, _, _, rfl, cut', parsed, inner, -, -⟩ := h.of_call found
    cases cut.symm.trans cut'
    obtain ⟨rfl, -⟩ := arguments_eq_ok_iff.1 parsed
    obtain ⟨takes, less⟩ := ih inner
    exact ⟨takes, Nat.succ_lt_succ less⟩
  | behind found cut _ ih =>
    obtain ⟨_, _, _, _, _, _, _, rfl, cut', -, -, more, -⟩ := h.of_call found
    cases cut.symm.trans cut'
    exact ih more
  | token plain _ ih =>
    obtain ⟨_, -, more⟩ := h.of_noCall plain
    exact ih more

/-- If all that is reached can be done, the tokens unfold. -/
theorem unfolds_of_reaches (bodies : NestedBodies table)
    (closes : openBehind opened tokens = some [])
    (can : ∀ depth m args, Reaches table tokens depth m args → m.Takes args ∧ depth ≤ n) :
    ∃ x, Unfolds table (n + 1) tokens x := by
  -- what an invocation stands for may be longer, but the limit is smaller there
  induction n using Nat.strongRecOn generalizing opened tokens with
  | ind n deeper =>
    induction length : tokens.length using Nat.strongRecOn generalizing opened tokens with
    | ind l further =>
      cases tokens with
      | nil => exact ⟨[], .nil n⟩
      | cons t tokens =>
        by_cases plain : NoCall table t tokens
        · rw [openBehind_cons] at closes
          obtain ⟨between, -, closes⟩ := Option.bind_eq_some_iff.1 closes
          obtain ⟨y, more⟩ := further tokens.length (by rw [← length]; exact Nat.lt_succ_self _)
            closes (fun _ _ _ reached => can _ _ _ (.token plain reached)) rfl
          exact ⟨t :: y, .token plain more⟩
        · simp only [NoCall, not_forall, not_not] at plain
          obtain ⟨name, m, tokens, rfl, found, rfl⟩ := plain
          have closes' := closes
          rw [openBehind_cons, openAfter_of_neutral rfl, Option.bind_some] at closes'
          obtain ⟨inside, close, rest, cut, -⟩ := openBehind_of_untilClose rfl closes'
          obtain ⟨closes, nested⟩ := nested_of_invocation bodies found closes cut
          obtain ⟨takes, shallow⟩ := can _ _ _ (.here found cut)
          have parsed := arguments_eq_ok_iff.2 ⟨rfl, takes⟩
          obtain ⟨k, rfl⟩ := Nat.exists_eq_add_of_le' shallow
          obtain ⟨x, inner⟩ := deeper k (Nat.lt_succ_self k) ((nested _ parsed).openBehind [])
            fun _ _ _ reached => (can _ _ _ (.inner found cut takes reached)).imp_right
              Nat.le_of_succ_le_succ
          have shorter := length_of_untilClose cut
          obtain ⟨y, more⟩ := further rest.length
            (by rw [← length, List.length_cons, List.length_cons]; omega) closes
            (fun _ _ _ reached => can _ _ _ (.behind found cut reached)) rfl
          exact ⟨x ++ y, .call found cut parsed inner more⟩

/-- **Nested tokens unfold iff all that is reached can be done**: each expansion has the arguments
that its macro takes, and none lies deeper than the limit. -/
theorem unfolds_iff_reaches (bodies : NestedBodies table) (nested : Nested tokens) :
    (∃ x, Unfolds table (n + 1) tokens x) ↔
      ∀ depth m args, Reaches table tokens depth m args → m.Takes args ∧ depth ≤ n := by
  constructor
  · rintro ⟨x, h⟩ depth m args reached
    exact (reached.of_unfolds h).imp_right Nat.le_of_lt_succ
  · exact unfolds_of_reaches bodies (nested.openBehind [])

/-! ### Expansion -/

/-- Without macros, nothing is replaced. -/
theorem unfolds_self (empty : table.isEmpty = true) (n : Nat) (tokens : List Token) :
    Unfolds table (n + 1) tokens tokens := by
  induction tokens with
  | nil => exact .nil n
  | cons t tokens ih =>
    refine .token (fun name m _ _ found => ?_) ih
    rw [isEmpty_of_find? found] at empty
    cases empty

theorem expand_eq_ok_iff (log : List Event) :
    (∃ log', expand table tokens log = .ok x log') ↔
      Unfolds table (maxExpansionDepth + 1) tokens x := by
  unfold expand
  by_cases empty : table.isEmpty = true
  · rw [if_pos empty]
    constructor
    · rintro ⟨log', h⟩
      cases h
      exact unfolds_self empty _ _
    · intro h
      exact ⟨log, by rw [h.unique (unfolds_self empty maxExpansionDepth tokens)]; rfl⟩
  · rw [if_neg empty]
    constructor
    · rintro ⟨log', h⟩
      exact unfolds_of_expandWithin h
    · intro h
      exact h.expandWithin log

/-- The macro has been read from a text, with or without the word that announces a declaration. -/
def Parsed (m : Macro) : Prop :=
  m.Declared ∨ ∃ text tokens, Token.tokenize text = .ok tokens ∧ ofTokens tokens = .ok m

theorem Parsed.nested (h : m.Parsed) : Nested m.body := by
  rcases h with declared | ⟨text, tokens, read, parsed⟩
  · exact declared.nested
  · exact nested_body (Token.legible_of_tokenize read).nested parsed

theorem Parsed.distinct (h : m.Parsed) : m.params.Nodup := by
  rcases h with ⟨_, _, -, parsed⟩ | ⟨_, _, -, parsed⟩ <;>
    exact (declarable_of_ofTokens parsed).1.distinct

/-- **Expansion always ends and its limit is exact.**  The table holds macros that have been read
from texts, a chain holds tokens that have been read from a text.  The expansion in the chain ends,
and agrees with that of the list.  It succeeds iff every expansion that the scan reaches has one
argument for each parameter, none of them empty, and none lies deeper than the limit.  Then the
result is the only list that the tokens are rewritten to. -/
theorem expand_exact (parsed : ∀ name m, table.find? name = some m → m.Parsed) {text : String}
    (read : Token.tokenize text = .ok tokens) {pool : Pool} {chain : Chain} {ids used : List Nat}
    (runs : Chain.Runs pool chain ids) (owns : pool.Owns (ids ++ used))
    (holds : chain.tokens pool = tokens) (log : List Event) :
    Chain.Agrees used pool [] (Chain.expand table pool chain log) (expand table tokens log) ∧
    ((∃ expanded log', expand table tokens log = .ok expanded log') ↔
      ∀ depth m args, Reaches table tokens depth m args →
        m.Takes args ∧ depth ≤ maxExpansionDepth) ∧
    ∀ expanded log', expand table tokens log = .ok expanded log' →
      ∀ x, Rewrites table tokens x ↔ x = expanded := by
  have bodies : NestedBodies table := fun name m found => (parsed name m found).nested
  have distinct : DistinctParams table := fun name m found => (parsed name m found).distinct
  refine ⟨?_, ?_, fun expanded log' run x => ?_⟩
  · rw [← holds]
    exact Chain.agrees_expand table runs owns log
  · rw [← unfolds_iff_reaches bodies (Token.legible_of_tokenize read).nested]
    exact exists_congr fun expanded => expand_eq_ok_iff log
  · have rewritten := ((expand_eq_ok_iff log).1 ⟨log', run⟩).rewrites distinct
    constructor
    · intro h
      exact h.unique rewritten
    · rintro rfl
      exact rewritten

/-- A square of a square is expanded; another macro of the table invokes itself. -/
theorem expand_exact_of_square : ∃ table tokens ids expanded log,
    (table : Bindings Macro).entries.map Prod.fst = ["loop", "sq"] ∧
    (∀ name m, table.find? name = some m → m.Parsed) ∧
    Token.tokenize "sq(sq(2))" = .ok tokens ∧
    Chain.Runs (Chain.ofTokens {} tokens).1 (Chain.ofTokens {} tokens).2 ids ∧
    (Chain.ofTokens {} tokens).1.Owns (ids ++ []) ∧
    (Chain.ofTokens {} tokens).2.tokens (Chain.ofTokens {} tokens).1 = tokens ∧
    expand table tokens [] = .ok expanded log ∧
    Token.tokenize "(((2*2))*((2*2)))" = .ok expanded ∧
    (∀ depth m args, Reaches table tokens depth m args →
      m.Takes args ∧ depth ≤ maxExpansionDepth) ∧
    ∀ x, Rewrites table tokens x ↔ x = expanded := by
  let loop : Macro := ⟨"loop", ["a"],
    [.word "loop", .symbol .parenLeft, .word "a", .symbol .parenRight]⟩
  let square : Macro := ⟨"sq", ["x"], [.word "x", .symbol .times, .word "x"]⟩
  let tokens : List Token := [.word "sq", .symbol .parenLeft, .word "sq", .symbol .parenLeft,
    .integer 2, .symbol .parenRight, .symbol .parenRight]
  have parsed : ∀ name m,
      (⟨[("loop", loop), ("sq", square)]⟩ : Bindings Macro).find? name = some m → m.Parsed := by
    intro name m found
    simp only [Bindings.find?, Bindings.findIn] at found
    split at found
    · cases found
      exact .inr ⟨"loop(a) = loop(a)", _, by cbv, by rfl⟩
    · split at found
      · cases found
        exact .inr ⟨"sq(x) = x*x", _, by cbv, by rfl⟩
      · cases found
  have read : Token.tokenize "sq(sq(2))" = .ok tokens := by cbv
  obtain ⟨ids, start⟩ := Chain.runs_ofTokens .empty tokens
  have holds := start.runs.tokens_eq.trans start.tokens
  obtain ⟨-, exact_limit, rewritten⟩ := expand_exact parsed read start.runs start.owns holds []
  have run : expand ⟨[("loop", loop), ("sq", square)]⟩ tokens [] =
      .ok [.symbol .parenLeft, .symbol .parenLeft, .symbol .parenLeft, .integer 2, .symbol .times,
        .integer 2, .symbol .parenRight, .symbol .parenRight, .symbol .times, .symbol .parenLeft,
        .symbol .parenLeft, .integer 2, .symbol .times, .integer 2, .symbol .parenRight,
        .symbol .parenRight, .symbol .parenRight]
        [.expanding "sq", .expanding "sq", .expanding "sq"] := by
    with_unfolding_all rfl
  exact ⟨_, tokens, ids, _, _, rfl, parsed, read, start.runs, start.owns, holds, run, by cbv,
    exact_limit.1 ⟨_, _, run⟩, rewritten _ _ run⟩

/-- A macro that invokes itself is expanded as deep as expansions may nest. -/
example : expand
    ⟨[("loop",
      ⟨"loop", ["a"], [.word "loop", .symbol .parenLeft, .word "a", .symbol .parenRight]⟩)]⟩
    [.word "loop", .symbol .parenLeft, .integer 1, .symbol .parenRight] [] =
      .error (.malformed .expansionTooDeep)
        (List.replicate (maxExpansionDepth + 1) (.expanding "loop")) := by
  with_unfolding_all rfl

end Macro

end MatrixCalc
