import MatrixCalc.Proofs.Invocation.Naming
import MatrixCalc.Proofs.Invocation.Targets

/-!
# Invocations behave like values

A statement contains an invocation of a macro.  In its place, names can be given to the arguments in
turn, then a name to the body with these names in the places of the parameters, and the invocation
can be replaced by the last name in brackets.  If all of this succeeds, the target is left with the
same kind and meaning.

* `Macro.named` : a body with names for the arguments.
* `CallSite` : an invocation in a statement, with names for its arguments and its result.
* `Session.interprets_arguments`, `Session.interprets_result` : the names stand for the arguments,
  and then the last one for the invocation.
* `Session.process_invocation` : **an invocation behaves like its value in brackets.**
* `Session.not_bare` : without the brackets it need not.
-/

namespace MatrixCalc

namespace Macro

/-! ### Bodies with names -/

/-- How a name stands for an argument: in brackets, if the argument is longer than a token. -/
def placeholder (name : String) : List Token → List Token
  | [_] => [.word name]
  | _ => parenthesize [.word name]

/-- What a token of the body becomes: a parameter becomes the name for its argument. -/
def fill (bound : List (String × String × List Token)) : Token → List Token
  | .word param =>
    match bound.lookup param with
    | some (name, arg) => placeholder name arg
    | none => [.word param]
  | t => [t]

/-- The body with names for the arguments in the places of the parameters. -/
def named (m : Macro) (bindings : List (String × List Token)) : List Token :=
  m.body.flatMap (fill (m.params.zip bindings))

/-- Names that can stand for arguments of a macro. -/
structure Nameable (table : Bindings Macro) (bindings : List (String × List Token)) : Prop where
  /-- The names are not those of macros. -/
  free : ∀ entry ∈ bindings, table.find? entry.1 = none
  /-- No argument is a symbol. -/
  plain : ∀ entry ∈ bindings, ∀ s : Symbol, entry.2 ≠ [.symbol s]
  /-- No argument is the name of a macro. -/
  value : ∀ entry ∈ bindings, ∀ name, entry.2 = [.word name] → table.find? name = none

/-- The arguments are complete groups, and can be expanded. -/
structure Expandable (table : Bindings Macro) (bindings : List (String × List Token)) : Prop where
  balanced : ∀ entry ∈ bindings, Balanced entry.2
  unfolds : ∀ entry ∈ bindings, ∃ n expanded, Unfolds table n entry.2 expanded

/-- The arguments of an invocation are complete groups, one for each parameter, none of them
empty. -/
theorem of_arguments {m : Macro} {inside : List Token} {args : List (List Token)}
    (balanced : Balanced inside) (parsed : m.arguments inside = .ok args) :
    args.length = m.params.length ∧ ∀ arg ∈ args, Balanced arg ∧ arg ≠ [] := by
  obtain ⟨rfl, takes⟩ := arguments_eq_ok_iff.1 parsed
  refine ⟨takes.count, fun arg mem => ⟨?_, takes.filled arg mem⟩⟩
  unfold pieces at mem
  split at mem
  · cases mem
  · obtain ⟨first, more, split⟩ := exists_splitTop .comma 0 inside
    obtain ⟨one, others⟩ := nesting_of_splitTop .comma balanced split
    rw [split] at mem
    rcases List.mem_cons.1 mem with rfl | mem
    · exact one
    · exact others arg mem

/-- The names stand for the arguments. -/
def Standins.ofBindings {table : Bindings Macro} {bindings : List (String × List Token)}
    (nameable : Nameable table bindings) (expandable : Expandable table bindings) :
    Standins table where
  token t name := (name, [t]) ∈ bindings
  group piece name := ∃ arg, (name, arg) ∈ bindings ∧ 1 < arg.length ∧ piece = parenthesize arg
  yields inside name := ∃ arg n, (name, arg) ∈ bindings ∧ Unfolds table n arg inside
  token_symbol := by
    intro t name mem
    cases t with
    | symbol s => exact absurd rfl (nameable.plain _ mem s)
    | word | integer | double => rfl
  token_free := by
    rintro t name mem other rfl
    exact nameable.value _ mem other rfl
  name_free mem := nameable.free _ mem
  group_free := by
    rintro _ name ⟨arg, mem, -, -⟩
    exact nameable.free _ mem
  group_long := by
    rintro _ name ⟨arg, -, -, rfl⟩
    simp [parenthesize]
  group_sealed := by
    rintro _ name ⟨arg, mem, -, rfl⟩
    exact sealed_group rfl rfl (expandable.balanced _ mem)
  group_unfolds := by
    rintro _ name ⟨arg, mem, -, rfl⟩ n tail x run
    obtain ⟨k, expanded, unfolds⟩ := expandable.unfolds _ mem
    rw [parenthesize, List.append_assoc, List.cons_append] at run
    obtain ⟨_, rfl, inner⟩ := run.of_noCall noCall_of_symbol
    have apart : Apart (.symbol .parenRight :: tail) := nofun
    obtain ⟨_, rfl, close⟩ := unfolds.append_inv apart inner
    obtain ⟨x', rfl, rest⟩ := close.of_noCall noCall_of_symbol
    exact ⟨expanded, x', by simp [parenthesize], ⟨arg, k, mem, unfolds⟩, rest⟩

/-! ### Bodies side by side -/

section Body

variable {table : Bindings Macro} {bindings : List (String × List Token)} {m : Macro}

/-- No argument that is longer than a token is put right behind the name of a macro. -/
def Separate (table : Bindings Macro) (params : List String)
    (bindings : List (String × List Token)) (body : List Token) : Prop :=
  ∀ other param entry, [.word other, .word param] <:+: body → other ∉ params →
    (params.zip bindings).lookup param = some entry → 1 < entry.2.length →
    table.find? other = none

theorem lookup_zip_snd (params : List String) (bindings : List (String × List Token))
    (param : String) : (params.zip (bindings.map Prod.snd)).lookup param =
      ((params.zip bindings).lookup param).map Prod.snd := by
  induction params generalizing bindings with
  | nil => rfl
  | cons head params ih =>
    cases bindings with
    | nil => rfl
    | cons entry bindings =>
      simp only [List.map_cons, List.zip_cons_cons, List.lookup_cons]
      split
      · rfl
      · exact ih bindings

theorem mem_of_lookup_zip {params : List String} {param : String} {entry : String × List Token}
    (found : (params.zip bindings).lookup param = some entry) : entry ∈ bindings := by
  obtain ⟨before, behind, split, -⟩ := List.lookup_eq_some_iff.1 found
  exact (List.of_mem_zip (show (param, entry) ∈ params.zip bindings by rw [split]; simp)).2

theorem notMem_of_lookup_zip {params : List String} {param : String}
    (length : bindings.length = params.length) (free : (params.zip bindings).lookup param = none) :
    param ∉ params := by
  have names := List.map_fst_zip (show params.length ≤ bindings.length by omega)
  rw [← names]
  intro mem
  obtain ⟨pair, inside, rfl⟩ := List.mem_map.1 mem
  simpa using List.lookup_eq_none_iff.1 free pair inside

/-- **A body with names resembles the body with the arguments** that they stand for. -/
theorem resembles_named (nameable : Nameable table bindings)
    (expandable : Expandable table bindings) (length : bindings.length = m.params.length)
    (nonempty : ∀ entry ∈ bindings, entry.2 ≠ [])
    (separate : Separate table m.params bindings m.body) :
    (Standins.ofBindings nameable expandable).Resembles false
      (m.body.flatMap (substitute (m.params.zip (bindings.map Prod.snd)))) (m.named bindings) := by
  -- what stands before a part of the body matters if the part starts with a parameter
  have parts : ∀ (body : List Token) (behind : Bool),
      Separate table m.params bindings body →
      (∀ param rest entry, body = .word param :: rest →
        (m.params.zip bindings).lookup param = some entry → 1 < entry.2.length →
        behind = false) →
      (Standins.ofBindings nameable expandable).Resembles behind
        (body.flatMap (substitute (m.params.zip (bindings.map Prod.snd))))
        (body.flatMap (fill (m.params.zip bindings))) := by
    intro body
    induction body with
    | nil => exact fun _ _ _ => .nil
    | cons t body ih =>
      intro behind separate front
      rw [List.flatMap_cons, List.flatMap_cons]
      have more := fun behind => ih behind fun other param entry inside =>
        separate other param entry (inside.trans (List.suffix_cons t body).isInfix)
      have same : ∀ t', t = t' → (∀ name, t' = .word name → name ∉ m.params) →
          (Standins.ofBindings nameable expandable).Resembles behind
            ([t'] ++ body.flatMap (substitute (m.params.zip (bindings.map Prod.snd))))
            ([t'] ++ body.flatMap (fill (m.params.zip bindings))) := by
        rintro _ rfl notParam
        refine .same t (more _ fun param rest entry start found long => ?_)
        cases t with
        | word other =>
          subst start
          have none := separate other param entry ⟨[], rest, rfl⟩ (notParam other rfl) found long
          simp [isName, none]
        | symbol | integer | double => rfl
      cases t with
      | symbol | integer | double =>
        refine same _ rfl fun _ eq => ?_
        cases eq
      | word param =>
        simp only [substitute, fill, lookup_zip_snd]
        cases found : (m.params.zip bindings).lookup param with
        | none =>
          exact same _ rfl fun name eq => by
            cases eq
            exact notMem_of_lookup_zip length found
        | some entry =>
          obtain ⟨name, arg⟩ := entry
          have mem := mem_of_lookup_zip found
          have behind_false := front param body (name, arg) rfl found
          rcases arg with _ | ⟨t, _ | ⟨t', rest⟩⟩
          · exact absurd rfl (nonempty _ mem)
          · exact .token mem (more _ fun _ _ _ _ _ _ => rfl)
          · rw [behind_false (by simp)]
            exact .group ⟨_, mem, by simp, rfl⟩ (more _ fun _ _ _ _ _ _ => rfl)
  exact parts m.body false separate fun _ _ _ _ _ _ => rfl

end Body

end Macro

/-! ### Invocations in statements -/

/-- An invocation in a statement, with names for its arguments and for its result. -/
structure CallSite (table : Bindings Macro) where
  /-- The tokens before the invocation. -/
  before : List Token
  /-- The name of the macro. -/
  name : String
  /-- The macro. -/
  callee : Macro
  /-- The tokens between the brackets. -/
  inside : List Token
  /-- The bracket that closes the invocation. -/
  close : Token
  /-- The tokens behind the invocation. -/
  behind : List Token
  /-- The arguments, each with a name for it. -/
  bindings : List (String × List Token)
  /-- The name for the result. -/
  result : String
  found : table.find? name = some callee
  closes : untilClose 0 (inside ++ close :: behind) = some (inside, close, behind)
  parsed : callee.arguments inside = .ok (bindings.map Prod.snd)

namespace CallSite

open Macro

variable {table : Bindings Macro} (i : CallSite table)

/-- The tokens of the invocation. -/
def call : List Token := .word i.name :: (.symbol .parenLeft :: i.inside ++ [i.close])

/-- The statement. -/
def tokens : List Token := i.before ++ (i.call ++ i.behind)

/-- The body of the macro with the names in the places of the parameters. -/
def body : List Token := i.callee.named i.bindings

/-- The statement with the name for the result, in brackets, in the place of the invocation. -/
def replaced : List Token := i.before ++ (parenthesize [.word i.result] ++ i.behind)

/-- The names have no meaning yet, and are different. -/
structure Fresh (s : Session) : Prop where
  different : (i.result :: i.bindings.map Prod.fst).Nodup
  unbound : ∀ name ∈ i.result :: i.bindings.map Prod.fst, s.scope.find? name = none ∧
    table.find? name = none ∧ ¬ Statement.Targets i.tokens name

/-- No bracket that is written for a name stands right behind the name of a macro, and no argument
is a symbol or the name of a macro. -/
structure Guarded : Prop where
  /-- The invocation does not stand right behind the name of a macro. -/
  before : ∀ t, i.before.getLast? = some t → isName table t = false
  /-- In the body, no argument longer than a token does. -/
  body : Separate table i.callee.params i.bindings i.callee.body
  /-- No argument is a symbol. -/
  plain : ∀ entry ∈ i.bindings, ∀ s : Symbol, entry.2 ≠ [.symbol s]
  /-- No argument is the name of a macro. -/
  value : ∀ entry ∈ i.bindings, ∀ name, entry.2 = [.word name] → table.find? name = none

variable {i}

theorem balanced (i : CallSite table) : Balanced i.inside := (nesting_of_untilClose i.closes).1

theorem sealed_call (i : CallSite table) : Sealed i.call :=
  (sealed_group rfl (nesting_of_untilClose i.closes).2 i.balanced).cons rfl

/-- An invocation is expanded to its body, in brackets. -/
theorem unfolds_call (nameable : Nameable table i.bindings)
    (expandable : Expandable table i.bindings)
    (separate : Separate table i.callee.params i.bindings i.callee.body) {k : Nat}
    {expanded : List Token} (run : Unfolds table k i.body expanded) {n : Nat}
    {tail x : List Token} (unfolds : Unfolds table n (i.call ++ tail) x) : ∃ inside x',
      x = parenthesize inside ++ x' ∧
      (Standins.ofBindings nameable expandable).Corresponds inside expanded ∧
      Unfolds table n tail x' := by
  have cut : untilClose 0 ((i.inside ++ [i.close]) ++ tail) = some (i.inside, i.close, tail) := by
    have closing := (nesting_of_untilClose i.closes).2
    rw [List.append_assoc, untilClose_append_of_nesting i.balanced]
    simp [untilClose, closing]
  obtain ⟨n, inside, close, rest, args, x₁, x₂, rfl, cut', parsed, inner, more, rfl⟩ :=
    unfolds.of_call i.found
  cases cut.symm.trans cut'
  cases i.parsed.symm.trans parsed
  obtain ⟨length, nonempty⟩ := of_arguments i.balanced i.parsed
  have like := resembles_named nameable expandable (by simpa using length)
    (fun entry mem => (nonempty _ (List.mem_map_of_mem mem)).2) separate
  obtain ⟨_, rfl, inner'⟩ := inner.of_noCall noCall_of_symbol
  have apart : Apart [.symbol .parenRight] := fun _ eq => by cases eq
  obtain ⟨y, z, rfl, corresponds, last⟩ := like.unfolds apart inner' run
  rw [last.eq_of_singleton rfl]
  exact ⟨y, x₂, by simp [parenthesize], corresponds, more⟩

/-- The name for the result stands for the invocation. -/
def standins (nameable : Nameable table i.bindings) (expandable : Expandable table i.bindings)
    (separate : Separate table i.callee.params i.bindings i.callee.body)
    (free : table.find? i.result = none) {k : Nat} {expanded : List Token}
    (run : Unfolds table k i.body expanded) : Standins table where
  token _ _ := False
  group piece name := piece = i.call ∧ name = i.result
  yields inside name := name = i.result ∧
    (Standins.ofBindings nameable expandable).Corresponds inside expanded
  token_symbol := @Standins.token_symbol _ (.none table)
  token_free := @Standins.token_free _ (.none table)
  name_free := @Standins.name_free _ (.none table)
  group_free := by
    rintro _ _ ⟨-, rfl⟩
    exact free
  group_long := by
    rintro _ _ ⟨rfl, -⟩
    simp [call]
  group_sealed := by
    rintro _ _ ⟨rfl, -⟩
    exact i.sealed_call
  group_unfolds := by
    rintro _ _ ⟨rfl, rfl⟩ n tail x unfolds
    obtain ⟨inside, x', eq, corresponds, more⟩ :=
      unfolds_call nameable expandable separate run unfolds
    exact ⟨inside, x', eq, ⟨rfl, corresponds⟩, more⟩

/-! ### Statements side by side -/

/-- A name in brackets may stand for a piece of text unless the name of a macro stands before it. -/
theorem resembles_around {w : Standins table} {piece : List Token} {name : String}
    (stands : w.group piece name) (before behind : List Token)
    (guard : ∀ t, before.getLast? = some t → isName table t = false) :
    w.Resembles false (before ++ (piece ++ behind))
      (before ++ (parenthesize [.word name] ++ behind)) := by
  have around : ∀ (before : List Token) (b : Bool), (before = [] → b = false) →
      (∀ t, before.getLast? = some t → isName table t = false) →
      w.Resembles b (before ++ (piece ++ behind))
        (before ++ (parenthesize [.word name] ++ behind)) := by
    intro before
    induction before with
    | nil =>
      intro b start _
      rw [start rfl]
      exact @Standins.Resembles.group _ w piece behind behind name stands (.refl w false behind)
    | cons t before ih =>
      intro b _ guard
      refine .same t (ih _ (fun empty => guard t (by rw [empty]; rfl)) fun u last => guard u ?_)
      rw [List.getLast?_cons, last]
      rfl
  exact around before false (fun _ => rfl) guard

theorem of_targetIndices {left inside : List Token}
    (h : Statement.targetIndices left = .ok inside) : ∃ t rest close,
      left = t :: .symbol .parenLeft :: rest ∧ untilClose 0 rest = some (inside, close, []) := by
  unfold Statement.targetIndices at h
  split at h
  · rename_i t rest
    split at h
    · rename_i cut
      split at h
      · cases h
        exact ⟨t, rest, _, rfl, cut⟩
      · cases h
    · cases h
  · cases h

section Parts

variable {w : Standins table} (stands : w.group i.call i.result)
  (guard : ∀ t, i.before.getLast? = some t → isName table t = false)
include stands guard

/-- The parts of a statement whose right side contains the invocation. -/
theorem beside_of_right {first second : List Token}
    (split : i.before = first ++ .symbol .assign :: second) :
    Statement.Beside w first (second ++ (i.call ++ i.behind)) first
      (second ++ (parenthesize [.word i.result] ++ i.behind)) where
  values := resembles_around stands second i.behind fun t last => guard t (by
    rw [split, List.getLast?_append, List.getLast?_cons, last]
    rfl)
  whole := .rfl
  places inside inside' indices indices' := by
    cases indices.symm.trans indices'
    exact .refl w false inside

/-- The parts of a statement that contains the invocation between the brackets of its target. -/
theorem beside_of_target {name : String} {before first second : List Token}
    (start : i.before = .word name :: before) :
    Statement.Beside w (.word name :: (before ++ (i.call ++ first))) second
      (.word name :: (before ++ (parenthesize [.word i.result] ++ first))) second where
  values := .refl w false second
  whole := by simp [call, parenthesize]
  places inside inside' indices indices' := by
    obtain ⟨_, rest, close, shape, cut⟩ := of_targetIndices indices
    obtain ⟨_, rest', close', shape', cut'⟩ := of_targetIndices indices'
    cases before with
    | nil => cases shape
    | cons u before =>
      cases shape
      cases shape'
      -- like groups are cut out behind the name of the target
      have like := resembles_around stands before first fun v last => guard v (by
        rw [start, List.getLast?_cons, List.getLast?_cons, last]
        rfl)
      have cut : untilClose 0 ((before ++ (i.call ++ first)) ++ []) = some (inside, close, []) := by
        rw [List.append_nil]
        exact cut
      exact (like.cut cut cut').1

/-- The parts of the statement, and of the one in which the invocation is replaced. -/
theorem parts {left right left' right' : List Token} {name name' : String}
    (cut : Statement.splitAssignment i.tokens = .ok (left, right))
    (cut' : Statement.splitAssignment i.replaced = .ok (left', right'))
    (named : Statement.targetName left = .ok name)
    (named' : Statement.targetName left' = .ok name') :
    name' = name ∧ Statement.Beside w left right left' right' := by
  have assign : .symbol .assign ∈ i.before ∨ .symbol .assign ∈ i.behind := by
    have mem : .symbol .assign ∈ i.replaced := by
      rw [(Statement.parts_of_splitAssignment cut').1]
      simp
    simpa [replaced, parenthesize] using mem
  rcases assign with mem | mem
  · obtain ⟨first, second, split⟩ := List.append_of_mem mem
    have eq : i.tokens = first ++ .symbol .assign :: (second ++ (i.call ++ i.behind)) := by
      simp [tokens, split]
    have eq' : i.replaced =
        first ++ .symbol .assign :: (second ++ (parenthesize [.word i.result] ++ i.behind)) := by
      simp [replaced, split]
    obtain ⟨rfl, rfl⟩ := Statement.splitAssignment_unique cut eq
    obtain ⟨rfl, rfl⟩ := Statement.splitAssignment_unique cut' eq'
    rw [named] at named'
    exact ⟨(Except.ok.inj named').symm, beside_of_right stands guard split⟩
  · obtain ⟨first, second, split⟩ := List.append_of_mem mem
    have eq : i.tokens = (i.before ++ (i.call ++ first)) ++ .symbol .assign :: second := by
      simp [tokens, split]
    have eq' : i.replaced =
        (i.before ++ (parenthesize [.word i.result] ++ first)) ++ .symbol .assign :: second := by
      simp [replaced, split]
    obtain ⟨rfl, rfl⟩ := Statement.splitAssignment_unique cut eq
    obtain ⟨rfl, rfl⟩ := Statement.splitAssignment_unique cut' eq'
    obtain ⟨-, _, shape⟩ := Statement.targetName_eq_ok_iff.1 named
    obtain ⟨-, _, shape'⟩ := Statement.targetName_eq_ok_iff.1 named'
    cases start : i.before with
    | nil =>
      rw [start] at shape'
      cases shape'
    | cons t before =>
      rw [start] at shape shape'
      cases shape
      cases shape'
      exact ⟨rfl, beside_of_target stands guard start⟩

end Parts

/-- Replacing an invocation does not make a statement a declaration. -/
theorem declareMacro_replaced (h : Token.declareMacro i.tokens = false) :
    Token.declareMacro i.replaced = false := by
  rw [tokens] at h
  rw [replaced]
  cases before : i.before with
  | nil => rfl
  | cons first more =>
    rw [before] at h
    cases first <;> exact h

end CallSite

/-! ### Sessions -/

namespace Session

theorem not_targets_of_declaration {tokens : List Token}
    (isMacro : Token.declareMacro tokens = true) (name : String) :
    ¬ Statement.Targets tokens name := by
  rintro ⟨left, right, cut, named⟩
  obtain ⟨rest, rfl⟩ := Token.eq_cons_of_declareMacro isMacro
  obtain ⟨join, -⟩ := Statement.parts_of_splitAssignment cut
  cases left with
  | nil => cases join
  | cons t left =>
    cases join
    cases named

section Invocation

variable {s t : Session} {x : Side} (start : x.start = s.store) (wellFormed : s.WellFormed)
  {i : CallSite s.macros} (fresh : i.Fresh s) (guarded : i.Guarded) {arguments : List String}
  (names : List.Forall₂ (fun entry => Names entry.1 entry.2) i.bindings arguments)
  (ok : s.processAll arguments = .ok t)
include start wellFormed fresh guarded names ok

/-- After names have been given to the arguments, they stand for the arguments. -/
theorem interprets_arguments : s.Grown t ∧
    (∀ other, other ∉ i.bindings.map Prod.fst → t.scope.find? other = s.scope.find? other) ∧
    ∃ (nameable : Macro.Nameable s.macros i.bindings)
      (expandable : Macro.Expandable s.macros i.bindings),
      x.Interprets (.ofBindings nameable expandable) s.scope t.store t.scope := by
  have unbound : ∀ entry ∈ i.bindings,
      s.scope.find? entry.1 = none ∧ s.macros.find? entry.1 = none := fun entry mem =>
    have apart := fresh.unbound _ (List.mem_cons_of_mem _ (List.mem_map_of_mem mem))
    ⟨apart.1, apart.2.1⟩
  obtain ⟨grown, others, stands⟩ := stands_of_processAll start wellFormed
    (Macro.isEmpty_of_find? i.found) names (List.nodup_cons.1 fresh.different).2
    (.refl wellFormed) (fun entry mem => (unbound entry mem).1) ok
  have nameable : Macro.Nameable s.macros i.bindings :=
    ⟨fun entry mem => (unbound entry mem).2, guarded.plain, guarded.value⟩
  have expandable : Macro.Expandable s.macros i.bindings := by
    refine ⟨fun entry mem => ?_, fun entry mem => ?_⟩
    · exact ((Macro.of_arguments i.balanced i.parsed).2 _ (List.mem_map_of_mem mem)).1
    · obtain ⟨v, n, expanded, -, -, unfolds, -⟩ := stands entry mem
      exact ⟨n, expanded, unfolds⟩
  refine ⟨grown, fun other apart => others other fun entry mem same =>
    apart (same ▸ List.mem_map_of_mem mem), nameable, expandable,
    grown.interprets wellFormed start (fun {token name} mem => ?_) ?_⟩
  · obtain ⟨v, -, -, found, has, -, -, denotes⟩ := stands _ mem
    exact ⟨v, found, has, denotes token rfl
      ((Macro.Standins.ofBindings nameable expandable).token_symbol mem)⟩
  · rintro inside name ⟨arg, n, mem, unfolds⟩
    obtain ⟨v, _, expanded, found, has, unfolds', yields, -⟩ := stands _ mem
    obtain rfl := unfolds.unique unfolds'
    exact ⟨v, found, has, yields⟩

/-- After a name has also been given to the body with these names, in brackets it stands for the
invocation. -/
theorem interprets_result {source : String} (named : Names i.result i.body source)
    {program : Program} (okResult : (t.process source).result = .ok program) :
    s.Grown (t.process source).session ∧
    (∀ other, other ∉ i.result :: i.bindings.map Prod.fst →
      (t.process source).session.scope.find? other = s.scope.find? other) ∧
    ∃ w : Macro.Standins s.macros, w.group i.call i.result ∧
      x.Interprets w s.scope (t.process source).session.store (t.process source).session.scope := by
  obtain ⟨grown, others, nameable, expandable, stand⟩ :=
    interprets_arguments start wellFormed fresh guarded names ok
  obtain ⟨unbound, free, -⟩ := fresh.unbound _ List.mem_cons_self
  have unbound' : t.scope.find? i.result = none := by
    rw [others i.result (List.nodup_cons.1 fresh.different).1]
    exact unbound
  obtain ⟨y, right, grown', others', v, found, has, means⟩ :=
    exists_of_names grown.wellFormed named unbound' okResult
  obtain ⟨_, _, expands⟩ := y.expands
  rw [right, grown.macros] at expands
  have run := Macro.unfolds_of_expand (Macro.isEmpty_of_find? i.found) expands
  have stand : (⟨x, y.side⟩ : Comparison).first.Interprets (.ofBindings nameable expandable) s.scope
      y.side.start t.scope := y.start ▸ stand
  refine ⟨grown.trans grown', fun other apart => ?_,
    i.standins nameable expandable guarded.body free run, ⟨rfl, rfl⟩,
    (grown.trans grown').interprets wellFormed start nofun ?_⟩
  · obtain ⟨differs, apart⟩ := not_or.1 (mt List.mem_cons.2 apart)
    rw [others' other differs, others other apart]
  · rintro inside _ ⟨rfl, corresponds⟩
    refine ⟨v, found, has, ?_⟩
    rw [means]
    exact Comparison.yields stand corresponds y.reading y.honest y.resolved y.grows

end Invocation

/-- **An invocation behaves like its value in brackets.**  A statement that contains an invocation
is processed; or in the same session names are given to the arguments in turn and then to the body
with these names, and the statement is processed in which the last name, in brackets, stands for the
invocation.  If both succeed, then the target of the statement has the same kind and the same
meaning after both: a matrix its shape and elements, a sequence its indices for every size. -/
theorem process_invocation {h : History} (reachable : h.Reachable)
    (i : CallSite h.session.macros) (fresh : i.Fresh h.session) (guarded : i.Guarded)
    {source result replaced : String} {arguments : List String}
    (read : Token.tokenize source = .ok i.tokens)
    (readArguments : List.Forall₂ (fun entry => Names entry.1 entry.2) i.bindings arguments)
    (readResult : Names i.result i.body result)
    (readReplaced : Token.tokenize replaced = .ok i.replaced) {program : Program}
    (ok : (h.session.process source).result = .ok program) {s' : Session}
    (ok' : h.session.processAll (arguments ++ [result, replaced]) = .ok s') {name : String}
    (target : Statement.Targets i.tokens name) :
    ∃ v v', (h.session.process source).session.scope.find? name = some v ∧
      s'.scope.find? name = some v' ∧
      s'.store.sense v' = (h.session.process source).session.store.sense v := by
  have wellFormed := reachable.wellFormed
  have notMacro : Token.declareMacro i.tokens = false := by
    by_contra isMacro
    exact not_targets_of_declaration (by simpa using isMacro) name target
  obtain ⟨p⟩ := performed_of_process wellFormed read notMacro ok
  obtain ⟨t, okArguments, rest⟩ := processAll_append_eq_ok_iff.1 ok'
  obtain ⟨_, okResult, rest⟩ := processAll_cons_eq_ok_iff.1 rest
  obtain ⟨_, okReplaced, last⟩ := processAll_cons_eq_ok_iff.1 rest
  cases last
  have targets : Statement.Targets i.tokens p.name := ⟨_, _, p.cut, p.named⟩
  obtain ⟨_, _, cut, named⟩ := target
  cases p.cut.symm.trans cut
  cases p.named.symm.trans named
  -- in the session with the names, the statement with the name for the result is performed
  obtain ⟨grown, others, w, stands, names⟩ :=
    interprets_result p.start wellFormed fresh guarded readArguments okArguments readResult okResult
  obtain ⟨q⟩ := performed_of_process grown.wellFormed readReplaced
    (CallSite.declareMacro_replaced notMacro) okReplaced
  obtain ⟨same, beside⟩ := CallSite.parts stands guarded.before p.cut q.cut p.named q.named
  refine ⟨_, _, p.found, same ▸ q.found, p.sense_eq q (Macro.isEmpty_of_find? i.found) grown.macros
    (q.start ▸ names) same (fun free => ?_) beside⟩
  rw [others _ fun mem => (fresh.unbound _ mem).2.2 targets]
  exact free

end Session

/-! ### A sample session -/

/-- A history after texts have been compiled in turn. -/
def History.compileAll (h : History) (sources : List String) : History := sources.foldl compile h

theorem History.Reachable.compileAll {h : History} (reachable : h.Reachable)
    (sources : List String) : (h.compileAll sources).Reachable := by
  induction sources generalizing h with
  | nil => exact reachable
  | cons source sources ih => exact ih (reachable.tail (.compile source))

namespace Session

/-- A session in which `A` and `g` are rows of three elements. -/
def rows : Session where
  store := { matrices := #[⟨1, 3, #[1, 2, 3], rfl⟩, ⟨1, 3, #[1, 2, 3], rfl⟩] }
  scope := ⟨[("A", ⟨.matrix, ⟨0⟩⟩), ("g", ⟨.matrix, ⟨1⟩⟩)]⟩

theorem reachable_rows : History.Reachable { session := rows } := by
  let row : Matrix := ⟨1, 3, #[1, 2, 3], rfl⟩
  let s : Session := { store := { matrices := #[row] }, scope := ⟨[("A", ⟨.matrix, ⟨0⟩⟩)]⟩ }
  have first : @define {} .matrix "A" row = .ok s := by rfl
  have second : @define s .matrix "g" row = .ok rows := by rfl
  exact (Relation.ReflTransGen.single (@History.Step.define {} .matrix "A" row s nofun first)).tail
    (@History.Step.define { session := s } .matrix "g" row _ nofun second)

/-- Macros are declared, of which one is called like a row. -/
def declared : History := History.compileAll { session := rows }
  ["macro sq(p) = p*p", "macro two() = 2", "macro g(p) = [A p]", "macro near(p) = g p",
    "macro at(p) = [p (2)]", "macro open(p) = A(1 p)"]

/-- The square of a sum is put behind a row, as an address. -/
def square : CallSite declared.session.macros where
  before := [.word "y", .symbol .assign, .symbol .bracketLeft, .word "A"]
  name := "sq"
  callee := ⟨"sq", ["p"], [.word "p", .symbol .times, .word "p"]⟩
  inside := [.integer 0, .symbol .plus, .integer 1]
  close := .symbol .parenRight
  behind := [.symbol .bracketRight]
  bindings := [("v", [.integer 0, .symbol .plus, .integer 1])]
  result := "r"
  found := by cbv
  closes := rfl
  parsed := rfl

theorem targets_square : Statement.Targets square.tokens "y" := ⟨_, _, rfl, rfl⟩

theorem fresh_square : square.Fresh declared.session where
  different := by decide
  unbound name mem := by
    have apart : "y" ≠ name ∧ declared.session.scope.find? name = none ∧
        (declared.session.macros.find? name).isNone = true := by
      revert name
      decide +kernel
    obtain ⟨differs, unbound, free⟩ := apart
    refine ⟨unbound, Option.isNone_iff_eq_none.1 free, ?_⟩
    rintro ⟨left, right, cut, named⟩
    cases cut
    cases named
    exact differs rfl

theorem guarded_square : square.Guarded where
  before t last := by
    have name : square.before.getLast? = some (.word "A") := rfl
    have free : Macro.isName declared.session.macros (.word "A") = false := by decide +kernel
    cases name.symm.trans last
    exact free
  body other param entry inside _ _ _ := by
    obtain ⟨before, behind, split⟩ := inside
    -- no word follows a word in the body
    rcases before with _ | ⟨a, _ | ⟨b, before⟩⟩
    · simp [square] at split
    · simp [square] at split
    · have length := congrArg List.length split
      simp [square] at length
      omega
  plain entry mem s same := by
    obtain rfl := List.mem_singleton.1 mem
    cases same
  value entry mem name same := by
    obtain rfl := List.mem_singleton.1 mem
    cases same

/-- A square is put behind a row, as an address. -/
theorem process_invocation_of_address : ∃ (h : History) (i : CallSite h.session.macros)
    (program : Program) (s' : Session), h.Reachable ∧ i.Fresh h.session ∧ i.Guarded ∧
    Token.tokenize "y = [A sq(0+1)]" = .ok i.tokens ∧
    List.Forall₂ (fun entry => Names entry.1 entry.2) i.bindings ["v = 0+1"] ∧
    Names i.result i.body "r = (v)*(v)" ∧ Token.tokenize "y = [A (r)]" = .ok i.replaced ∧
    (h.session.process "y = [A sq(0+1)]").result = .ok program ∧
    h.session.processAll (["v = 0+1"] ++ ["r = (v)*(v)", "y = [A (r)]"]) = .ok s' ∧
    ∃ v v', (h.session.process "y = [A sq(0+1)]").session.scope.find? "y" = some v ∧
      s'.scope.find? "y" = some v' ∧
      s'.store.sense v' =
        (h.session.process "y = [A sq(0+1)]").session.store.sense v := by
  have read : Token.tokenize "y = [A sq(0+1)]" = .ok square.tokens := by cbv
  have readArguments :
      List.Forall₂ (fun entry => Names entry.1 entry.2) square.bindings ["v = 0+1"] := by
    refine .cons ?_ .nil
    unfold Names
    cbv
  have readResult : Names square.result square.body "r = (v)*(v)" := by
    unfold Names
    cbv
  have readReplaced : Token.tokenize "y = [A (r)]" = .ok square.replaced := by cbv
  have ok : (declared.session.process "y = [A sq(0+1)]").result.toOption.isSome = true := by
    decide +kernel
  have ok' : (declared.session.processAll
      (["v = 0+1"] ++ ["r = (v)*(v)", "y = [A (r)]"])).toOption.isSome = true := by
    decide +kernel
  obtain ⟨program, ok⟩ := exists_of_isSome_toOption ok
  obtain ⟨s', ok'⟩ := exists_of_isSome_toOption ok'
  exact ⟨declared, square, program, s', reachable_rows.compileAll _, fresh_square, guarded_square,
    read, readArguments, readResult, readReplaced, ok, ok',
    process_invocation (reachable_rows.compileAll _) square fresh_square guarded_square read
      readArguments readResult readReplaced ok ok' targets_square⟩

/-- The rows and columns that a matrix has after texts have been processed in turn. -/
def shapeAfter (s : Session) (name : String) (sources : List String) : Option (Nat × Nat) :=
  (s.processAll sources).toOption.bind fun s' =>
    (s'.content? .matrix name).map fun m => (m.rows, m.cols)

/-- **Without the brackets it need not.**  Behind a row, the brackets around an expansion make it an
address, so `[A two()]` is the element of `A` at 2, and `[A r]` is `A` with 2 behind it.  With the
brackets, it need not where brackets come to stand behind the name of a macro, or where an argument
is the name of a macro or a symbol. -/
theorem not_bare : ∃ h : History, h.Reachable ∧
    h.session.macros.find? "two" = some ⟨"two", [], [.integer 2]⟩ ∧
    h.session.scope.find? "r" = none ∧ h.session.macros.find? "r" = none ∧
    h.session.shapeAfter "y" ["y = [A two()]"] = some (1, 1) ∧
    h.session.shapeAfter "y" ["r = 2", "y = [A r]"] = some (1, 4) ∧
    h.session.shapeAfter "y" ["y = [g two()]"] = some (1, 1) ∧
    h.session.shapeAfter "y" ["r = 2", "y = [g (r)]"] = some (1, 4) ∧
    h.session.shapeAfter "y" ["y = near(1+1)"] = some (1, 1) ∧
    h.session.shapeAfter "y" ["v = 1+1", "r = g (v)", "y = (r)"] = some (1, 4) ∧
    h.session.shapeAfter "y" ["y = at(g)"] = some (1, 4) ∧
    h.session.shapeAfter "y" ["v = g", "r = [v (2)]", "y = (r)"] = some (1, 1) ∧
    h.session.shapeAfter "y" ["y = open(:)"] = some (1, 2) ∧
    h.session.shapeAfter "y" ["v = :", "r = A(1 v)", "y = (r)"] = some (1, 4) := by
  have free : (declared.session.macros.find? "r").isNone = true := by decide +kernel
  refine ⟨declared, reachable_rows.compileAll _, by cbv, by decide +kernel,
    Option.isNone_iff_eq_none.1 free, ?_⟩
  decide +kernel

end Session

end MatrixCalc
