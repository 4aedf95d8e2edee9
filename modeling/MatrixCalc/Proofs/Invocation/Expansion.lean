import MatrixCalc.Proofs.Invocation.Nesting
import MatrixCalc.Proofs.Run

/-!
# Expanding texts that resemble each other

In one text stands an invocation, or an argument; in another one a name stands for it.  Macros are
expanded alike in both: what stands for each other is handed on to other macros, copied and dropped
as one piece, and where it is reached in the end, it is expanded on its own.

* `Macro.Unfolds` : the expansion of tokens, as a relation.
* `Macro.Standins` : which names stand for which tokens.
* `Macro.Standins.Resembles` : two texts that are the same up to that.
* `Macro.Standins.Resembles.unfolds` : **texts that resemble each other expand to texts that
  correspond**, and in these only what the pieces expand to is left for the names to stand for.
-/

namespace MatrixCalc

namespace Macro

/-! ### Arguments -/

section Arguments

variable {m : Macro} {inside : List Token} {args : List (List Token)}

/-- What stands between the commas of an invocation; in empty brackets there is nothing. -/
def pieces (inside : List Token) : List (List Token) :=
  if inside.isEmpty then [] else splitTop .comma 0 inside

/-- The macro takes these arguments: one for each parameter, none of them empty. -/
structure Takes (m : Macro) (args : List (List Token)) : Prop where
  /-- There are as many arguments as parameters. -/
  count : args.length = m.params.length
  /-- No argument is empty. -/
  filled : ∀ arg ∈ args, arg ≠ []

/-- The pieces of an invocation are its arguments, or an error. -/
def accept (m : Macro) (args : List (List Token)) : Except Malformed (List (List Token)) :=
  if args.length ≠ m.params.length then
    .error (.wrongArgumentCount m.name m.params.length args.length)
  else if args.any List.isEmpty then .error (.emptyMacroArgument m.name)
  else .ok args

theorem arguments_eq (m : Macro) (inside : List Token) :
    m.arguments inside = m.accept (pieces inside) := rfl

theorem accept_eq_ok_iff {args' : List (List Token)} :
    m.accept args = .ok args' ↔ args' = args ∧ m.Takes args := by
  have filled_iff : ¬ args.any List.isEmpty = true ↔ ∀ arg ∈ args, arg ≠ [] := by
    rw [List.any_eq_true]
    push Not
    simp only [ne_eq, List.isEmpty_iff]
  unfold accept
  by_cases count : args.length = m.params.length
  · rw [if_neg (not_not.2 count)]
    by_cases filled : ∀ arg ∈ args, arg ≠ []
    · rw [if_neg (filled_iff.2 filled), Except.ok.injEq, eq_comm]
      exact (and_iff_left ⟨count, filled⟩).symm
    · rw [if_pos (not_not.1 (mt filled_iff.1 filled))]
      constructor
      · intro h
        cases h
      · rintro ⟨-, takes⟩
        exact absurd takes.filled filled
  · rw [if_pos count]
    constructor
    · intro h
      cases h
    · rintro ⟨-, takes⟩
      exact absurd takes.count count

/-- **The arguments of an invocation** are its pieces, if the macro takes them. -/
theorem arguments_eq_ok_iff :
    m.arguments inside = .ok args ↔ args = pieces inside ∧ m.Takes args := by
  rw [arguments_eq, accept_eq_ok_iff]
  constructor
  · rintro ⟨rfl, takes⟩
    exact ⟨rfl, takes⟩
  · rintro ⟨rfl, takes⟩
    exact ⟨rfl, takes⟩

end Arguments

/-! ### One step of a scan -/

variable {table : Bindings Macro}

/-- The token, followed by the tokens, does not start an invocation. -/
def NoCall (table : Bindings Macro) (t : Token) (tokens : List Token) : Prop :=
  ∀ name m rest, t = .word name → table.find? name = some m → tokens ≠ .symbol .parenLeft :: rest

/-- What an invocation is replaced by, given what stands between its brackets. -/
def expandCall (expandInner : List Token → Logged (List Token)) (m : Macro) (inside : List Token) :
    Logged (List Token) := do
  let args ← Logged.ofExcept ((m.arguments inside).mapError .malformed)
  Logged.record (.expanding m.name)
  expandInner (m.instantiate args)

section Step

variable {t : Token} {tokens : List Token} {expandInner : List Token → Logged (List Token)}

/-- A token that starts no invocation stays. -/
theorem replaceCalls_of_noCall (plain : NoCall table t tokens) :
    replaceCalls table expandInner (t :: tokens) =
      (do return [t] ++ (← replaceCalls table expandInner tokens)) := by
  rw [replaceCalls.eq_def]
  split
  · cases ‹_ = _›
  · rename_i eq
    cases eq
    split
    · rfl
    · rename_i found
      exact absurd rfl (plain _ _ _ rfl found)
  · rename_i eq
    cases eq
    rfl

/-- An invocation is replaced, and the scan goes on behind it. -/
theorem replaceCalls_of_call {name : String} {m : Macro} (found : table.find? name = some m) :
    replaceCalls table expandInner (.word name :: .symbol .parenLeft :: tokens) =
      match untilClose 0 tokens with
      | none => throw (.malformed .unterminatedInvocation)
      | some (inside, _, rest) => do
        return (← expandCall expandInner m inside) ++ (← replaceCalls table expandInner rest) := by
  rw [replaceCalls]
  simp only [found, expandCall, bind_assoc]
  split
  · rename_i cut
    rw [cut]
  · rename_i cut
    rw [cut]

end Step

/-! ### Expansion as a relation -/

/-- What tokens expand to; the number bounds how deep expansions nest. -/
inductive Unfolds (table : Bindings Macro) : Nat → List Token → List Token → Prop
  | nil (n : Nat) : Unfolds table (n + 1) [] []
  | call {n : Nat} {name : String} {m : Macro} {tokens inside rest : List Token} {close : Token}
      {args : List (List Token)} {x y : List Token} (found : table.find? name = some m)
      (cut : untilClose 0 tokens = some (inside, close, rest))
      (parsed : m.arguments inside = .ok args) (inner : Unfolds table n (m.instantiate args) x)
      (more : Unfolds table (n + 1) rest y) :
      Unfolds table (n + 1) (.word name :: .symbol .parenLeft :: tokens) (x ++ y)
  | token {n : Nat} {t : Token} {tokens y : List Token} (plain : NoCall table t tokens)
      (more : Unfolds table (n + 1) tokens y) : Unfolds table (n + 1) (t :: tokens) (t :: y)

theorem unfolds_of_expandWithin {n : Nat} {tokens expanded : List Token} {log log' : List Event}
    (run : expandWithin table n tokens log = .ok expanded log') :
    Unfolds table n tokens expanded := by
  induction n generalizing tokens expanded log log' with
  | zero => exact absurd run throw_ne_ok
  | succ n ih =>
    rw [expandWithin] at run
    fun_induction replaceCalls table (expandWithin table n) tokens
      generalizing expanded log log' with
    | case1 =>
      obtain ⟨rfl, -⟩ := pure_eq_ok_iff.1 run
      exact .nil n
    | case2 name tokens notFound rest =>
      obtain ⟨y, _, more, last⟩ := bind_eq_ok_iff.1 run
      obtain ⟨rfl, -⟩ := pure_eq_ok_iff.1 last
      refine .token (fun name' m _ eq found => ?_) (rest more)
      cases eq
      rw [notFound] at found
      cases found
    | case3 => exact absurd run throw_ne_ok
    | case4 name tokens m found inside close rest cut more =>
      simp only [bind_eq_ok_iff, Logged.ofExcept_eq_ok_iff, Logged.record_eq, pure_eq_ok_iff] at run
      obtain ⟨args, _, ⟨parsed, rfl⟩, _, _, -, x, _, inner, y, _, outer, rfl, -⟩ := run
      exact .call found cut (except_mapError_eq_ok_iff.1 parsed) (ih inner) (more outer)
    | case5 t tokens noCall rest =>
      obtain ⟨y, _, more, last⟩ := bind_eq_ok_iff.1 run
      obtain ⟨rfl, -⟩ := pure_eq_ok_iff.1 last
      exact .token (fun name _ tokens' eq _ eq' => noCall name tokens' eq eq') (rest more)

/-- Conversely, what unfolds is expanded, whatever has been recorded. -/
theorem Unfolds.expandWithin {n : Nat} {tokens expanded : List Token}
    (h : Unfolds table n tokens expanded) (log : List Event) :
    ∃ log', expandWithin table n tokens log = .ok expanded log' := by
  induction h generalizing log with
  | nil => exact ⟨log, by rw [Macro.expandWithin, replaceCalls]; rfl⟩
  | @call _ name m _ inside rest close args x y found cut parsed _ _ inner more =>
    obtain ⟨log₁, inner⟩ := inner (log ++ [.expanding m.name])
    obtain ⟨log₂, more⟩ := more log₁
    rw [Macro.expandWithin, replaceCalls_of_call found, cut]
    refine ⟨log₂, bind_eq_ok_iff.2 ⟨x, log₁, ?_, bind_eq_ok_iff.2 ⟨y, log₂, more, rfl⟩⟩⟩
    rw [expandCall, parsed]
    exact inner
  | @token _ t _ y plain _ more =>
    obtain ⟨log₁, more⟩ := more log
    rw [Macro.expandWithin, replaceCalls_of_noCall plain]
    exact ⟨log₁, bind_eq_ok_iff.2 ⟨y, log₁, more, rfl⟩⟩

theorem isEmpty_of_find? {name : String} {m : Macro} (found : table.find? name = some m) :
    table.isEmpty = false := by
  cases empty : table.isEmpty with
  | false => rfl
  | true =>
    obtain ⟨entries⟩ := table
    rw [List.isEmpty_iff.1 (show entries.isEmpty = true from empty)] at found
    cases found

theorem unfolds_of_expand {tokens expanded : List Token} {log log' : List Event}
    (declared : table.isEmpty = false) (run : expand table tokens log = .ok expanded log') :
    Unfolds table (maxExpansionDepth + 1) tokens expanded := by
  rw [expand, declared] at run
  exact unfolds_of_expandWithin run

/-! ### Inversion -/

section Inversion

variable {n k : Nat} {tokens tail x y : List Token} {t : Token}

theorem Unfolds.of_nil (h : Unfolds table k [] y) : y = [] := by
  cases h
  rfl

/-- An invocation is replaced, and what follows it is expanded. -/
theorem Unfolds.of_call {name : String} {m : Macro} (found : table.find? name = some m)
    (h : Unfolds table k (.word name :: .symbol .parenLeft :: tokens) y) :
    ∃ n inside close rest args x₁ x₂, k = n + 1 ∧
      untilClose 0 tokens = some (inside, close, rest) ∧ m.arguments inside = .ok args ∧
      Unfolds table n (m.instantiate args) x₁ ∧ Unfolds table (n + 1) rest x₂ ∧ y = x₁ ++ x₂ := by
  cases h with
  | call found' cut parsed inner more =>
    rw [found] at found'
    cases found'
    exact ⟨_, _, _, _, _, _, _, rfl, cut, parsed, inner, more, rfl⟩
  | token plain => exact absurd rfl (plain name m _ rfl found)

/-- Any other token stays. -/
theorem Unfolds.of_noCall (plain : NoCall table t tokens) (h : Unfolds table k (t :: tokens) y) :
    ∃ y', y = t :: y' ∧ Unfolds table k tokens y' := by
  cases h with
  | call found => exact absurd rfl (plain _ _ _ rfl found)
  | token _ more => exact ⟨_, rfl, more⟩

theorem noCall_of_symbol {s : Symbol} : NoCall table (.symbol s) tokens := nofun

theorem noCall_of_free (h : ∀ name, t = .word name → table.find? name = none) :
    NoCall table t tokens := by
  intro name m rest eq found
  rw [h name eq] at found
  cases found

/-- A single token is no invocation. -/
theorem Unfolds.eq_of_singleton (h : Unfolds table k tokens y) (single : tokens = [t]) :
    y = [t] := by
  subst single
  obtain ⟨_, rfl, nothing⟩ := h.of_noCall fun _ _ _ _ _ eq => by cases eq
  rw [nothing.of_nil]

/-- The tokens do not go on with an opening bracket. -/
def Apart (tokens : List Token) : Prop := ∀ rest, tokens ≠ .symbol .parenLeft :: rest

theorem apart_nil : Apart [] := fun _ => nofun

theorem NoCall.append (h : NoCall table t tokens) (apart : Apart tail) :
    NoCall table t (tokens ++ tail) := by
  intro name m rest eq found start
  cases tokens with
  | nil => exact apart rest start
  | cons t' tokens =>
    rw [List.cons_append, List.cons.injEq] at start
    exact h name m tokens eq found (by rw [start.1])

/-- **Tokens expand to the same wherever they stand**, unless an opening bracket follows. -/
theorem Unfolds.append_inv (h : Unfolds table n tokens x) (apart : Apart tail)
    (h' : Unfolds table k (tokens ++ tail) y) : ∃ y', y = x ++ y' ∧ Unfolds table k tail y' := by
  induction h generalizing k tail y with
  | nil => exact ⟨y, rfl, h'⟩
  | @call n name m tokens inside rest close args x₁ x₂ found cut parsed _ _ inner more =>
    rw [List.cons_append, List.cons_append] at h'
    obtain ⟨_, _, _, _, _, _, _, rfl, cut', parsed', inner', more', rfl⟩ := h'.of_call found
    rw [untilClose_append cut tail] at cut'
    cases cut'
    rw [parsed] at parsed'
    cases parsed'
    rw [← List.append_nil (m.instantiate args)] at inner'
    obtain ⟨_, rfl, nothing⟩ := inner apart_nil inner'
    obtain ⟨y', rfl, unfolds⟩ := more apart more'
    exact ⟨y', by rw [nothing.of_nil, List.append_nil, List.append_assoc], unfolds⟩
  | @token n t tokens x plain _ more =>
    obtain ⟨_, rfl, more'⟩ := h'.of_noCall (plain.append apart)
    obtain ⟨y', rfl, unfolds⟩ := more apart more'
    exact ⟨y', rfl, unfolds⟩

/-- Tokens expand to one list of tokens. -/
theorem Unfolds.unique (h : Unfolds table n tokens x) (h' : Unfolds table k tokens y) : x = y := by
  rw [← List.append_nil tokens] at h'
  obtain ⟨_, rfl, nothing⟩ := h.append_inv apart_nil h'
  rw [nothing.of_nil, List.append_nil]

end Inversion

/-! ### Names that stand for tokens -/

/-- Names that stand for tokens: a word for a single token, or a word in brackets for a piece of
text. -/
structure Standins (table : Bindings Macro) where
  /-- The word of the name stands for the token. -/
  token : Token → String → Prop
  /-- The word of the name, in brackets, stands for the tokens. -/
  group : List Token → String → Prop
  /-- What the name stands for is expanded to these tokens, in brackets. -/
  yields : List Token → String → Prop
  /-- A single token is no symbol. -/
  token_symbol : ∀ {t name}, token t name → symbol? t = none
  /-- A single token is not the name of a macro. -/
  token_free : ∀ {t name}, token t name → ∀ other, t = .word other → table.find? other = none
  /-- No name that stands for a token is the name of a macro. -/
  name_free : ∀ {t name}, token t name → table.find? name = none
  /-- No name that stands for a piece of text is the name of a macro. -/
  group_free : ∀ {ts name}, group ts name → table.find? name = none
  /-- A piece of text is longer than a token. -/
  group_long : ∀ {ts name}, group ts name → 1 < ts.length
  /-- A piece of text is handed on as one piece. -/
  group_sealed : ∀ {ts name}, group ts name → Sealed ts
  /-- A piece of text is expanded on its own. -/
  group_unfolds : ∀ {ts name}, group ts name → ∀ {n tail x}, Unfolds table n (ts ++ tail) x →
    ∃ inside x', x = parenthesize inside ++ x' ∧ yields inside name ∧ Unfolds table n tail x'

/-- The token is the name of a macro. -/
def isName (table : Bindings Macro) : Token → Bool
  | .word name => (table.find? name).isSome
  | _ => false

namespace Standins

variable (w : Standins table)

/-- The second text is the first one with names in the places of what they stand for.  A name in
brackets does not stand behind the name of a macro, if `behind` says that the tokens do. -/
inductive Resembles : Bool → List Token → List Token → Prop
  | nil {behind : Bool} : Resembles behind [] []
  | same {behind : Bool} (t : Token) {ts ts' : List Token}
      (more : Resembles (isName table t) ts ts') : Resembles behind (t :: ts) (t :: ts')
  | token {behind : Bool} {t : Token} {name : String} {ts ts' : List Token} (h : w.token t name)
      (more : Resembles false ts ts') : Resembles behind (t :: ts) (.word name :: ts')
  | group {piece ts ts' : List Token} {name : String} (h : w.group piece name)
      (more : Resembles false ts ts') :
      Resembles false (piece ++ ts) (parenthesize [.word name] ++ ts')

/-- The second text is the first one with names, in brackets, in the places of what the pieces
that they stand for are expanded to. -/
inductive Corresponds : List Token → List Token → Prop
  | nil : Corresponds [] []
  | same (t : Token) {ts ts' : List Token} (more : Corresponds ts ts') :
      Corresponds (t :: ts) (t :: ts')
  | token {t : Token} {name : String} {ts ts' : List Token} (h : w.token t name)
      (more : Corresponds ts ts') : Corresponds (t :: ts) (.word name :: ts')
  | group {inside ts ts' : List Token} {name : String} (h : w.yields inside name)
      (more : Corresponds ts ts') :
      Corresponds (parenthesize inside ++ ts) (parenthesize [.word name] ++ ts')

variable {w} {behind : Bool} {ts ts' us us' : List Token}

theorem Corresponds.append (h : w.Corresponds ts ts') (more : w.Corresponds us us') :
    w.Corresponds (ts ++ us) (ts' ++ us') := by
  induction h with
  | nil => exact more
  | same t _ ih => exact .same t ih
  | token one _ ih => exact .token one ih
  | group one _ ih =>
    rw [List.append_assoc, List.append_assoc]
    exact .group one ih

theorem Corresponds.refl (w : Standins table) (ts : List Token) : w.Corresponds ts ts := by
  induction ts with
  | nil => exact .nil
  | cons t ts ih => exact .same t ih

theorem sealed_name (name : String) : Sealed (parenthesize [.word name]) := sealed_group rfl rfl rfl

namespace Resembles

theorem refl (w : Standins table) (behind : Bool) (ts : List Token) :
    w.Resembles behind ts ts := by
  induction ts generalizing behind with
  | nil => exact .nil
  | cons t ts ih => exact .same t (ih _)

theorem weaken (h : w.Resembles behind ts ts') : w.Resembles false ts ts' := by
  cases h with
  | nil => exact .nil
  | same t more => exact .same t more
  | token one more => exact .token one more
  | group one more => exact .group one more

/-- More text may follow if it may follow anything. -/
theorem append (h : w.Resembles behind ts ts') (more : ∀ b, w.Resembles b us us') :
    w.Resembles behind (ts ++ us) (ts' ++ us') := by
  induction h with
  | nil => exact more _
  | same t _ ih => exact .same t ih
  | token one _ ih => exact .token one ih
  | group one _ ih =>
    rw [List.append_assoc, List.append_assoc]
    exact .group one ih

theorem isEmpty_eq (h : w.Resembles behind ts ts') : ts'.isEmpty = ts.isEmpty := by
  cases h with
  | nil | same | token => rfl
  | group one =>
    have long := w.group_long one
    rename_i piece _ _ _ _
    cases piece with
    | nil => cases long
    | cons => rfl

/-! #### Pieces and groups -/

theorem splitTop (separator : Symbol) (h : w.Resembles behind ts ts') (depth : Nat) :
    ∃ first first' pieces pieces', splitTop separator depth ts = first :: pieces ∧
      MatrixCalc.splitTop separator depth ts' = first' :: pieces' ∧
      w.Resembles behind first first' ∧ List.Forall₂ (w.Resembles false) pieces pieces' := by
  induction h generalizing depth with
  | nil => exact ⟨[], [], [], [], rfl, rfl, .nil, .nil⟩
  | @same behind t ts ts' more ih =>
    have step : ∀ depth', ∃ first first' pieces pieces',
        consToFirst t (MatrixCalc.splitTop separator depth' ts) = first :: pieces ∧
        consToFirst t (MatrixCalc.splitTop separator depth' ts') = first' :: pieces' ∧
        w.Resembles behind first first' ∧ List.Forall₂ (w.Resembles false) pieces pieces' := by
      intro depth'
      obtain ⟨first, first', pieces, pieces', eq, eq', one, others⟩ := ih depth'
      exact ⟨t :: first, t :: first', pieces, pieces', by rw [eq]; rfl, by rw [eq']; rfl,
        .same t one, others⟩
    simp only [MatrixCalc.splitTop]
    split
    · exact step _
    · exact step _
    · split
      · obtain ⟨first, first', pieces, pieces', eq, eq', one, others⟩ := ih depth
        exact ⟨[], [], _, _, rfl, rfl, .nil, by rw [eq, eq']; exact .cons one.weaken others⟩
      · exact step _
  | @token behind t name ts ts' one more ih =>
    obtain ⟨first, first', pieces, pieces', eq, eq', here, others⟩ := ih depth
    have plain := w.token_symbol one
    have front : MatrixCalc.splitTop separator depth (t :: ts) = (t :: first) :: pieces := by
      simp [MatrixCalc.splitTop, bracketRole, isSymbol, plain, eq, consToFirst]
    have front' : MatrixCalc.splitTop separator depth (.word name :: ts') =
        (.word name :: first') :: pieces' := by
      simp [MatrixCalc.splitTop, bracketRole, isSymbol, symbol?, eq', consToFirst]
    exact ⟨_, _, _, _, front, front', .token one here, others⟩
  | @group piece ts ts' name one more ih =>
    obtain ⟨first, first', pieces, pieces', eq, eq', here, others⟩ := ih depth
    rw [(w.group_sealed one).splitTop, (sealed_name name).splitTop, eq, eq', foldr_consToFirst,
      foldr_consToFirst]
    exact ⟨_, _, _, _, rfl, rfl, .group one here, others⟩

theorem untilClose (h : w.Resembles behind ts ts') (depth : Nat) :
    Option.Rel (fun cut cut' => w.Resembles behind cut.1 cut'.1 ∧
        w.Resembles false cut.2.2 cut'.2.2)
      (MatrixCalc.untilClose depth ts) (MatrixCalc.untilClose depth ts') := by
  have further : ∀ (b : Bool) {depth'} (xs xs' : List Token) {c : Bool} {ts ts' : List Token},
      (∀ {ys ys'}, w.Resembles c ys ys' → w.Resembles b (xs ++ ys) (xs' ++ ys')) →
      Option.Rel (fun cut cut' => w.Resembles c cut.1 cut'.1 ∧ w.Resembles false cut.2.2 cut'.2.2)
        (MatrixCalc.untilClose depth' ts) (MatrixCalc.untilClose depth' ts') →
      Option.Rel (fun cut cut' => w.Resembles b cut.1 cut'.1 ∧ w.Resembles false cut.2.2 cut'.2.2)
        ((MatrixCalc.untilClose depth' ts).map fun cut => (xs ++ cut.1, cut.2))
        ((MatrixCalc.untilClose depth' ts').map fun cut => (xs' ++ cut.1, cut.2)) := by
    intro b depth' xs xs' c ts ts' front cuts
    cases cut : MatrixCalc.untilClose depth' ts <;>
      cases cut' : MatrixCalc.untilClose depth' ts' <;> rw [cut, cut'] at cuts <;> cases cuts
    · exact .none
    · rename_i both
      exact .some ⟨front both.1, both.2⟩
  induction h generalizing depth with
  | nil => exact .none
  | @same b t _ _ more ih =>
    have step := fun depth' => further b [t] [t] (fun ys => .same t ys) (ih depth')
    simp only [MatrixCalc.untilClose]
    split
    · exact .some ⟨.nil, more.weaken⟩
    all_goals exact step _
  | @token _ t name _ _ one _ ih =>
    have role : bracketRole t = .neutral := by simp [bracketRole, w.token_symbol one]
    have role' : bracketRole (.word name : Token) = .neutral := rfl
    simp only [MatrixCalc.untilClose, role, role']
    exact further _ [t] [.word name] (fun ys => .token one ys) (ih depth)
  | @group piece _ _ name one _ ih =>
    rw [(w.group_sealed one).untilClose, (sealed_name name).untilClose]
    exact further _ _ _ (fun ys => .group one ys) (ih depth)

/-- An invocation has arguments that resemble each other, none of them empty. -/
theorem arguments {m : Macro} {args args' : List (List Token)} (h : w.Resembles behind ts ts')
    (parsed : m.arguments ts = .ok args) (parsed' : m.arguments ts' = .ok args') :
    List.Forall₂ (fun arg arg' => w.Resembles false arg arg' ∧ arg ≠ []) args args' := by
  obtain ⟨eq, takes⟩ := arguments_eq_ok_iff.1 parsed
  obtain ⟨eq', -⟩ := arguments_eq_ok_iff.1 parsed'
  have like : List.Forall₂ (w.Resembles false) args args' := by
    rw [eq, eq', pieces, pieces, h.isEmpty_eq]
    split
    · exact .nil
    · obtain ⟨first, first', pieces, pieces', split, split', one, others⟩ := h.splitTop .comma 0
      rw [split, split']
      exact .cons one.weaken others
  exact ((List.forall₂_and_left _ _).2 ⟨takes.filled, like⟩).imp fun _ _ both => ⟨both.2, both.1⟩

/-! #### Instances of a body -/

theorem one_lt_length (h : w.Resembles behind ts ts') (long : 1 < ts.length) :
    1 < ts'.length := by
  have nonempty : ∀ {b} {us us' : List Token}, w.Resembles b us us' → 0 < us.length →
      0 < us'.length := by
    intro b us us' like
    have := like.isEmpty_eq
    cases us <;> cases us' <;> simp_all
  cases h with
  | nil => exact long
  | same t more | token one more =>
    have := nonempty more (Nat.lt_of_succ_lt_succ long)
    exact Nat.succ_lt_succ this
  | group => simp [parenthesize]

/-- A single token resembles itself or the name that stands for it. -/
theorem of_singleton {t : Token} (h : w.Resembles behind [t] ts') :
    ts' = [t] ∨ ∃ name, ts' = [.word name] ∧ w.token t name := by
  have nothing : ∀ {b} {us : List Token}, w.Resembles b [] us → us = [] := by
    intro b us like
    simpa using like.isEmpty_eq
  generalize eq : [t] = ts at h
  cases h with
  | nil => cases eq
  | same t more =>
    cases eq
    exact .inl (by rw [nothing more])
  | @token _ _ name _ _ one more =>
    cases eq
    exact .inr ⟨name, by rw [nothing more], one⟩
  | @group piece ts _ _ one =>
    have long := w.group_long one
    have length := congrArg List.length eq
    simp only [List.length_append, List.length_singleton] at length
    omega

theorem embed_of_long (long : 1 < ts.length) : Macro.embed ts = parenthesize ts := by
  unfold Macro.embed
  split
  · simp at long
  · rfl

/-- Arguments stand in a body as one token or in brackets. -/
theorem embed (h : w.Resembles false ts ts') (nonempty : ts ≠ [])
    (more : ∀ b, w.Resembles b us us') (b : Bool) :
    w.Resembles b (Macro.embed ts ++ us) (Macro.embed ts' ++ us') := by
  match ts with
  | [] => exact absurd rfl nonempty
  | [t] =>
    rcases h.of_singleton with rfl | ⟨name, rfl, one⟩
    · exact .same t (more _)
    · exact .token one (more _)
  | t :: t' :: rest =>
    have long : 1 < (t :: t' :: rest).length := by simp
    rw [embed_of_long long, embed_of_long (h.one_lt_length long), parenthesize, parenthesize,
      List.append_assoc, List.append_assoc]
    exact .same _ (h.append fun _ => .same _ (more _))

theorem lookup_zip {P : List Token → List Token → Prop} {params : List String}
    {args args' : List (List Token)} (h : List.Forall₂ P args args') (name : String) :
    Option.Rel P ((params.zip args).lookup name) ((params.zip args').lookup name) := by
  induction h generalizing params with
  | nil =>
    rw [List.zip_nil_right]
    exact .none
  | cons one _ ih =>
    cases params with
    | nil => exact .none
    | cons param params =>
      simp only [List.zip_cons_cons, List.lookup_cons]
      split
      · exact .some one
      · exact ih

/-- Instances of one body with arguments that resemble each other. -/
theorem instantiate {m : Macro} {args args' : List (List Token)}
    (h : List.Forall₂ (fun arg arg' => w.Resembles false arg arg' ∧ arg ≠ []) args args') :
    w.Resembles false (m.instantiate args) (m.instantiate args') := by
  have body : ∀ (body : List Token) b, w.Resembles b
      (body.flatMap (substitute (m.params.zip args)) ++ [.symbol .parenRight])
      (body.flatMap (substitute (m.params.zip args')) ++ [.symbol .parenRight]) := by
    intro body
    induction body with
    | nil => exact fun _ => .same _ .nil
    | cons t body ih =>
      intro b
      rw [List.flatMap_cons, List.flatMap_cons, List.append_assoc, List.append_assoc]
      cases t with
      | symbol | integer | double => exact .same _ (ih _)
      | word name =>
        have found := @lookup_zip _ m.params _ _ h name
        simp only [substitute]
        cases one : (m.params.zip args).lookup name <;>
          cases one' : (m.params.zip args').lookup name <;> rw [one, one'] at found <;> cases found
        · exact .same _ (ih _)
        · rename_i both
          exact both.1.embed both.2 ih b
  exact .same _ (body m.body _)

/-! #### Expansion -/

/-- What stands behind the name of a macro and goes on with an opening bracket in the second text
does so in the first one, with the same symbol. -/
theorem of_parenLeft (h : w.Resembles true ts (.symbol .parenLeft :: ts')) :
    ∃ us, ts = .symbol .parenLeft :: us ∧ w.Resembles false us ts' := by
  cases h with
  | same _ more => exact ⟨_, rfl, more⟩

/-- Conversely, the first text goes on with an opening bracket only if the second one does. -/
theorem parenLeft_of (h : w.Resembles true (.symbol .parenLeft :: ts) ts') :
    ∃ us, ts' = .symbol .parenLeft :: us := by
  generalize eq : Token.symbol .parenLeft :: ts = us, behind : true = b at h
  cases h with
  | nil => cases eq
  | same _ _ =>
    cases eq
    exact ⟨_, rfl⟩
  | token one =>
    cases eq
    cases w.token_symbol one
  | group => cases behind

theorem isName_of_find? {name : String} {m : Macro} (found : table.find? name = some m) :
    isName table (.word name) = true := by
  simp [isName, found]

/-- The first text does not start an invocation where the second one does not. -/
theorem noCall {t : Token} {tail : List Token} (h : w.Resembles (isName table t) ts ts')
    (apart : Apart tail) (plain : NoCall table t ts') : NoCall table t (ts ++ tail) := by
  refine NoCall.append (fun name m rest eq found start => ?_) apart
  subst eq start
  rw [isName_of_find? found] at h
  obtain ⟨us, rfl⟩ := h.parenLeft_of
  exact plain name m us rfl found rfl

/-- Groups that are cut out of both texts resemble each other, whatever follows the first one. -/
theorem cut {tail inside rest inside' rest' : List Token} {close close' : Token}
    (h : w.Resembles behind ts ts')
    (cut : MatrixCalc.untilClose 0 (ts ++ tail) = some (inside, close, rest))
    (cut' : MatrixCalc.untilClose 0 ts' = some (inside', close', rest')) :
    w.Resembles behind inside inside' ∧ ∃ left, rest = left ++ tail ∧
      w.Resembles false left rest' := by
  have groups := h.untilClose 0
  rw [cut'] at groups
  cases first : MatrixCalc.untilClose 0 ts with
  | none =>
    rw [first] at groups
    cases groups
  | some found =>
    rw [first] at groups
    obtain ⟨same, behind⟩ | _ := groups
    rw [untilClose_append first tail] at cut
    cases cut
    exact ⟨same, _, rfl, behind⟩

/-- **Texts that resemble each other expand to texts that correspond**, whatever follows the first
one, unless it is an opening bracket. -/
theorem unfolds {n k : Nat} {tail x x' : List Token} (h : w.Resembles behind ts ts')
    (apart : Apart tail) (run : Unfolds table n (ts ++ tail) x) (run' : Unfolds table k ts' x') :
    ∃ y z, x = y ++ z ∧ w.Corresponds y x' ∧ Unfolds table n tail z := by
  -- an invocation is replaced by a longer text, but with a smaller allowance
  induction k using Nat.strongRecOn generalizing n behind ts ts' tail x x' with
  | ind k deeper =>
    induction length : ts'.length using Nat.strongRecOn generalizing n behind ts ts' tail x x' with
    | ind l further =>
      cases h with
      | nil => exact ⟨[], x, rfl, by rw [run'.of_nil]; exact .nil, run⟩
      | @token _ t name ts ts' one more =>
        obtain ⟨x₁, rfl, left⟩ := run.of_noCall (noCall_of_free (w.token_free one))
        obtain ⟨x₁', rfl, right⟩ := run'.of_noCall (noCall_of_free fun _ eq => by
          cases eq
          exact w.name_free one)
        obtain ⟨y, z, rfl, corresponds, rest⟩ :=
          further _ (by simp [← length]) more apart left right rfl
        exact ⟨t :: y, z, rfl, .token one corresponds, rest⟩
      | @group piece ts ts' name one more =>
        rw [List.append_assoc] at run
        obtain ⟨inside, x₁, rfl, yields, left⟩ := w.group_unfolds one run
        -- the name in brackets stays as it is
        obtain ⟨_, rfl, right₁⟩ := run'.of_noCall noCall_of_symbol
        obtain ⟨_, rfl, right₂⟩ := right₁.of_noCall (noCall_of_free fun _ eq => by
          cases eq
          exact w.group_free one)
        obtain ⟨x₁', rfl, right⟩ := right₂.of_noCall noCall_of_symbol
        obtain ⟨y, z, rfl, corresponds, rest⟩ :=
          further _ (by simp [← length, parenthesize]; omega) more apart left right rfl
        exact ⟨parenthesize inside ++ y, z, by rw [List.append_assoc], .group yields corresponds,
          rest⟩
      | @same _ t ts ts' more =>
        by_cases plain : NoCall table t ts'
        · obtain ⟨x₁, rfl, left⟩ := run.of_noCall (more.noCall apart plain)
          obtain ⟨x₁', rfl, right⟩ := run'.of_noCall plain
          obtain ⟨y, z, rfl, corresponds, rest⟩ :=
            further _ (by simp [← length]) more apart left right rfl
          exact ⟨t :: y, z, rfl, .same t corresponds, rest⟩
        · simp only [NoCall, not_forall, not_not] at plain
          obtain ⟨name, m, us', rfl, found, rfl⟩ := plain
          rw [isName_of_find? found] at more
          obtain ⟨us, rfl, inner⟩ := more.of_parenLeft
          rw [List.cons_append, List.cons_append] at run
          obtain ⟨n, inside, close, rest, args, x₁, x₂, rfl, cut, parsed, replaced, left, rfl⟩ :=
            run.of_call found
          obtain ⟨k, inside', close', rest', args', x₁', x₂', rfl, cut', parsed', replaced', right,
            rfl⟩ := run'.of_call found
          obtain ⟨same, _, rfl, behind⟩ := inner.cut cut cut'
          have like := same.arguments parsed parsed'
          rw [← List.append_nil (m.instantiate args)] at replaced
          obtain ⟨y₁, z₁, rfl, corresponds₁, nothing⟩ :=
            deeper k (Nat.lt_succ_self k) (instantiate like) apart_nil replaced replaced'
          have shorter := length_of_untilClose cut'
          have fewer : rest'.length < l := by
            simp only [List.length_cons] at length
            omega
          obtain ⟨y₂, z₂, rfl, corresponds₂, last⟩ := further _ fewer behind apart left right rfl
          refine ⟨y₁ ++ y₂, z₂, ?_, corresponds₁.append corresponds₂, last⟩
          rw [nothing.of_nil, List.append_nil, List.append_assoc]

end Resembles

end Standins

end Macro

end MatrixCalc
