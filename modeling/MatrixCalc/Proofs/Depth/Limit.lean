import MatrixCalc.Proofs.Brackets.Discipline
import MatrixCalc.Proofs.Depth.Levels
import MatrixCalc.Proofs.Invocation.Residue

/-!
# The nesting limit

Groups are resolved down to the `maxNesting`-th list, where the list that is compiled counts as the
first.  The value of a statement is a list of its own, so a group of level `maxNesting` there is
already too deep.  The indices of a target stand in a group of level 1 that is taken off before, so
there a level more is allowed.  A matrix literal with nothing in it has no list and is as deep as
what surrounds it.

* `Build.Bounded` : a computation and its like without the limit, which is noticed iff something is
  too deep.
* `Group.bounded_block` : the value of a list of items.
* `Statement.bounded_compileWith` : **a whole statement.**
* `Session.nestedTooDeeply_iff` : **when a statement is refused for its depth.**
-/

namespace MatrixCalc

/-! ### Computations with a limit -/

/-- The error is not about depth. -/
def Error.NotOfDepth (e : Error) : Prop := e ≠ .malformed .nestedTooDeeply

theorem Error.notOfDepth_of_plain (cause : Malformed) (h : ¬ cause.OfGroups) :
    NotOfDepth (.malformed cause) := by
  rintro ⟨⟩
  exact h trivial

namespace Build

variable {α β : Type} {d d' : Draft}

/-- What a computation `m` with a limit does, given a computation `m'` that differs from it only
beyond the limit: it succeeds only if nothing is too deep, it complains about depth only if
something is, and if it does not complain, the limit makes no difference. -/
structure Bounded (m m' : Build α) (deep : Prop) : Prop where
  /-- What is too deep is not accepted. -/
  of_ok : ∀ {d a d'}, m d = .ok a d' → ¬ deep
  /-- What is not too deep is not refused for its depth. -/
  of_deep : ∀ {d d'}, m d = .error (.malformed .nestedTooDeeply) d' → deep
  /-- Without a complaint nothing beyond the limit has been asked for. -/
  same : ∀ {d}, (∀ d', m d ≠ .error (.malformed .nestedTooDeeply) d') → m' d = m d

variable {m m' x x' : Build α} {f f' : α → Build β} {p q : Prop}

theorem Bounded.congr (h : Bounded m m' p) (iff : p ↔ q) : Bounded m m' q := propext iff ▸ h

/-- What never complains about depth is not bounded. -/
theorem Sound.bounded (h : m.Sound Error.NotOfDepth) : Bounded m m False where
  of_ok _ := id
  of_deep run := h.of_error run rfl
  same _ := rfl

/-- What always fails, but not because of depth, is bounded by anything. -/
theorem Sound.bounded_of_never (h : m.Sound Error.NotOfDepth) (never : ∀ d a d', m d ≠ .ok a d')
    (p : Prop) : Bounded m m p where
  of_ok run := absurd run (never _ _ _)
  of_deep run := absurd rfl (h.of_error run)
  same _ := rfl

theorem bounded_throw {e : Error} (other : e.NotOfDepth) (p : Prop) :
    Bounded (throw e : Build α) (throw e) p :=
  (sound_throw other).bounded_of_never (fun _ _ _ => throw_ne_ok) p

/-- Something is too deep in a sequence of computations if it is in one of them. -/
theorem Bounded.bind (first : Bounded x x' p)
    (more : ∀ {d a d'}, x d = .ok a d' → Bounded (f a) (f' a) q) :
    Bounded (x >>= f) (x' >>= f') (p ∨ q) where
  of_ok run := by
    obtain ⟨a, between, run, rest⟩ := bind_eq_ok_iff.1 run
    exact not_or.2 ⟨first.of_ok run, (more run).of_ok rest⟩
  of_deep run := by
    obtain run | ⟨a, between, run, rest⟩ := bind_eq_error_iff.1 run
    · exact .inl (first.of_deep run)
    · exact .inr ((more run).of_deep rest)
  same {d} silent := by
    have begins : x' d = x d := first.same fun d' run =>
      silent d' (bind_eq_error_iff.2 (.inl run))
    refine Statement.bind_congr begins fun a d' run => (more run).same fun d'' rest => ?_
    exact silent d'' (bind_eq_error_iff.2 (.inr ⟨a, d', run, rest⟩))

/-- What follows never complains about depth. -/
theorem Bounded.then (h : Bounded x x' p) (more : ∀ a, (f a).Sound Error.NotOfDepth) :
    Bounded (x >>= f) (x' >>= f) p :=
  (h.bind fun _ => (more _).bounded).congr (iff_of_eq (or_false p))

/-- What stands in front never complains about depth. -/
theorem Bounded.behind (front : x.Sound Error.NotOfDepth)
    (h : ∀ {d a d'}, x d = .ok a d' → Bounded (f a) (f' a) p) :
    Bounded (x >>= f) (x >>= f') p :=
  (front.bounded.bind h).congr (iff_of_eq (false_or p))

theorem bounded_mapM {deep : α → Prop} (h : ∀ a, Bounded (f a) (f' a) (deep a)) (as : List α) :
    Bounded (as.mapM f) (as.mapM f') (∃ a ∈ as, deep a) := by
  induction as with
  | nil => exact (sound_pure []).bounded.congr (by simp)
  | cons a as ih =>
    rw [List.mapM_cons, List.mapM_cons]
    exact ((h a).bind fun _ => ih.then fun _ => sound_pure _).congr (by simp)

end Build

open Build

/-! ### Groups -/

theorem Recipe.ofCall_nil (constant : Cell .integer → Option Int64) (f : Builtin) :
    ofCall constant f [] = .error (.wrongArity f 0) := by
  unfold ofCall
  split <;> rfl

namespace Group

/-- The variables that stand side by side in a list, where `deeper` takes the place of `block` in
all lists that are too deep for it. -/
def blockAbove (deeper : Resolver) : Nat → Resolver
  | 0, items => deeper items
  | allowance + 1, items => do
    let items ← resolveAll (blockAbove deeper allowance) [] items
    checkRest items
    Range.handles (← Tier.all items)

/-- Lists that are too deep are refused. -/
theorem blockAbove_refusing (allowance : Nat) :
    blockAbove (fun _ => Build.fail .nestedTooDeeply) allowance = block allowance := by
  induction allowance with
  | zero => rfl
  | succ allowance ih =>
    funext items
    rw [blockAbove, block, ih]

/-- The pieces of a list go as deep as the list. -/
theorem bounded_pieces {α : Type} {n : Nat} {f f' : List Item → Build α}
    (h : ∀ items, Bounded (f items) (f' items) (Delves n items)) (separator : Symbol)
    (items : List Item) : Bounded ((splitTop separator 0 items).mapM f)
      ((splitTop separator 0 items).mapM f') (Delves n items) :=
  (bounded_mapM h _).congr (delves_iff_exists_piece separator items).symm

section Parts

variable {block block' : Resolver} {n : Nat}
  (h : ∀ items, Bounded (block items) (block' items) (Delves n items))
include h

theorem bounded_single (items : List Item) :
    Bounded (single block items) (single block' items) (Delves n items) :=
  (h items).then (Range.sound_join Error.notOfDepth_of_plain)

theorem bounded_argument (f : Builtin) (items : List Item) :
    Bounded (argument block f items) (argument block' f items) (Delves n items) :=
  .behind (sound_require Error.notOfDepth_of_plain id _) fun _ =>
    (bounded_single h items).then fun _ => sound_ofOption Error.notOfDepth_of_plain id _

/-- A call without arguments is refused anyway. -/
theorem bounded_call (f : Builtin) (inside : List Item) :
    Bounded (call block f inside) (call block' f inside) (Delves n inside) := by
  have rest : ∀ args, Build.Sound Error.NotOfDepth (do
      Build.emitRecipe (Recipe.ofCall (← get).constant f args)) := fun args =>
    sound_get.bind fun _ =>
      sound_emitRecipe Error.notOfDepth_of_plain (Recipe.answers_ofCall _ _ _)
  unfold call arguments
  split
  · refine ((sound_pure _).bind rest).bounded_of_never (fun d a d' run => ?_) _
    change emitRecipe (Recipe.ofCall d.constant f []) d = .ok a d' at run
    rw [Recipe.ofCall_nil] at run
    exact fail_ne_ok run
  · exact (bounded_pieces (bounded_argument h f) .comma inside).then rest

theorem bounded_index (items : List Item) :
    Bounded (index block items) (index block' items) (Delves n items) :=
  (bounded_single h items).then fun _ => (sound_ofOption Error.notOfDepth_of_plain id _).bind
    fun _ => sound_ofExcept Error.notOfDepth_of_plain (Index.decides_ofVariable _)

theorem bounded_address (inside : List Item) :
    Bounded (address block inside) (address block' inside) (Delves n inside) :=
  .behind (sound_require Error.notOfDepth_of_plain id _) fun _ =>
    (bounded_pieces (bounded_index h) .comma inside).then fun _ =>
      sound_ofExcept Error.notOfDepth_of_plain (Address.decides_ofIndices _)

theorem bounded_element (items : List Item) :
    Bounded (element block items) (element block' items) (Delves n items) :=
  .behind (sound_require Error.notOfDepth_of_plain id _) fun _ => h items

theorem bounded_literalRow (items : List Item) :
    Bounded (literalRow block items) (literalRow block' items) (Delves n items) :=
  .behind (sound_require Error.notOfDepth_of_plain id _) fun _ =>
    (bounded_pieces (bounded_element h) .comma items).then fun _ => sound_get.bind fun _ =>
      (sound_ofExcept Error.notOfDepth_of_plain (decides_checkClosed _ _)).bind fun _ =>
        sound_pure _

/-- A literal with nothing in it has no rows. -/
theorem bounded_literalRows (inside : List Item) :
    Bounded (literalRows block inside) (literalRows block' inside)
      (inside ≠ [] ∧ Delves n inside) := by
  cases inside with
  | nil => exact (sound_pure []).bounded.congr (by simp)
  | cons item inside =>
    exact (bounded_pieces (bounded_literalRow h) .semicolon _).congr (by simp)

theorem bounded_literal (inside : List Item) :
    Bounded (literal block inside) (literal block' inside) (inside ≠ [] ∧ Delves n inside) := by
  refine (bounded_literalRows h inside).then fun rows => ?_
  rw [place_bind]
  exact (sound_create _).bind fun _ => sound_get.bind fun _ =>
    (sound_ofExcept Error.notOfDepth_of_plain (rows.decides_checkStatic _ _)).bind fun _ =>
      sound_emit ⟨trivial, trivial⟩

theorem bounded_resolve (opening : Symbol) (done inside : List Item) :
    Bounded (resolve block opening done inside) (resolve block' opening done inside)
      (¬ (opening = .bracketLeft ∧ inside = []) ∧ Delves n inside) := by
  unfold resolve
  split
  · exact ((bounded_literal h inside).then fun _ => sound_pure _).congr (by simp)
  · rename_i round
    exact ((bounded_call h _ inside).then fun _ => sound_pure _).congr
      (and_iff_right fun hollow => round hollow.1).symm
  · rename_i round
    exact ((bounded_address h inside).then fun _ =>
      (sound_emitRecipe Error.notOfDepth_of_plain (r := .ok _)
        (Recipe.regular_ofAddress _ _)).bind fun _ => sound_pure _).congr
      (and_iff_right fun hollow => round hollow.1).symm
  · rename_i round _ _
    refine ((bounded_single h inside).then fun v => ?_).congr
      (and_iff_right fun hollow => round hollow.1).symm
    cases v with
    | some | none => exact sound_pure _

/-- A list goes deeper than its groups. -/
theorem bounded_resolveAll (done items : List Item) :
    Bounded (resolveAll block done items) (resolveAll block' done items)
      (Delves (n + 1) items) := by
  fun_induction resolveAll block done items with
  | case1 done =>
    rw [resolveAll]
    exact (sound_pure _).bounded.congr (by simp [delves_succ_iff, filledLevels, levelsBy])
  | case2 done item items opening role symbol cut =>
    rw [resolveAll_opening symbol (by rwa [bracketRole, symbol] at role), cut]
    exact bounded_throw (by rintro ⟨⟩) _
  | case3 done item items opening role symbol inside close rest cut ih =>
    rw [resolveAll_opening symbol (by rwa [bracketRole, symbol] at role), cut]
    refine ((bounded_resolve h opening done inside).bind fun _ => ih _).congr ?_
    rw [delves_opening_iff role cut]
    simp [isSymbol, symbol]
  | case4 done item items closing role symbol =>
    rw [resolveAll_unmatched symbol role]
    exact bounded_throw (by rintro ⟨⟩) _
  | case5 done item items noOpening noClosing ih =>
    have neutral := neutral_of_no_bracket noOpening noClosing
    rw [resolveAll_neutral neutral]
    exact ih.congr (delves_neutral_iff neutral).symm

end Parts

/-- **The value of a list is limited by how deep the list goes.** -/
theorem bounded_block (deeper : Resolver) (allowance : Nat) (items : List Item) :
    Bounded (block allowance items) (blockAbove deeper allowance items)
      (Delves allowance items) := by
  induction allowance generalizing items with
  | zero =>
    exact {
      of_ok := fun run => absurd run fail_ne_ok
      of_deep := fun _ => .inl rfl
      same := fun silent => absurd rfl (silent _) }
  | succ allowance ih =>
    exact (bounded_resolveAll ih [] items).then fun rest =>
      (sound_checkRest Error.notOfDepth_of_plain rest).bind fun _ =>
        (Tier.sound_all Error.notOfDepth_of_plain rest).bind
          (Range.sound_handles Error.notOfDepth_of_plain)

end Group

/-! ### Statements -/

theorem Macro.Invokes.within {macros : Bindings Macro} {tokens : List Token}
    (h : Invokes macros tokens) (front back : List Token) :
    Invokes macros (front ++ tokens ++ back) := by
  obtain ⟨before, name, m, after, found, rfl⟩ := h
  exact ⟨front ++ before, name, m, after ++ back, found, by simp⟩

namespace Statement

/-- A group of the value, or one of the target, is too deep: as the value is a list of its own but
the target is none, the value may go one level less deep. -/
def TooDeep (tokens : List Token) : Prop := ∃ left right,
  splitAssignment tokens = .ok (left, right) ∧
    ((∃ level ∈ filledLevels right, maxNesting ≤ level) ∨
      ∃ level ∈ filledLevels left, maxNesting < level)

theorem tooDeep_iff {tokens left right : List Token}
    (cut : splitAssignment tokens = .ok (left, right)) :
    TooDeep tokens ↔ Delves maxNesting right ∨ Delves (maxNesting + 1) left := by
  have value : Delves maxNesting right ↔ ∃ level ∈ filledLevels right, maxNesting ≤ level :=
    delves_succ_iff
  rw [value, delves_succ_iff]
  constructor
  · rintro ⟨left', right', cut', deep⟩
    cases cut.symm.trans cut'
    exact deep
  · exact fun deep => ⟨left, right, cut, deep⟩

section Bounded

variable {macros : Bindings Macro} {scope : Bindings Variable} {tokens left right : List Token}
  {d d' : Draft}

/-- Expanding macros and settling the meaning of words never complains about depth. -/
theorem sound_preparing (tokens : List Token) :
    (prepareWith (Macro.expand macros) scope tokens).Sound Error.NotOfDepth :=
  sound_prepareWith Error.notOfDepth_of_plain (fun _ => by rintro ⟨⟩)
    (fun _ _ _ _ => Macro.fails_expand Error.notOfDepth_of_plain (by rintro ⟨⟩)) scope tokens

/-- Without macros the items have the groups of the tokens. -/
theorem delves_prepared (plain : ¬ Macro.Invokes macros tokens) {items : List Item}
    (run : prepareWith (Macro.expand macros) scope tokens d = .ok items d') (n : Nat) :
    Delves n items ↔ Delves n tokens := by
  obtain ⟨expanded, log, expands, reads⟩ := prepare_eq_ok_iff.1 run
  rw [Macro.expand_eq_pure plain] at expands
  obtain ⟨rfl, -⟩ := pure_eq_ok_iff.1 expands
  exact delves_congr (Item.symbols_of_ofTokens reads)

theorem bounded_valueWith (deeper : Group.Resolver) (plain : ¬ Macro.Invokes macros tokens) :
    Bounded (valueWith (Macro.expand macros) (Group.block maxNesting) scope tokens)
      (valueWith (Macro.expand macros) (Group.blockAbove deeper maxNesting) scope tokens)
      (Delves maxNesting tokens) :=
  .behind (sound_preparing tokens) fun {_ items _} run =>
    ((Group.bounded_single (Group.bounded_block deeper maxNesting) items).then fun _ =>
      sound_ofOption Error.notOfDepth_of_plain id _).congr (delves_prepared plain run _)

/-- The indices of a target stand one level higher than the target. -/
theorem delves_target {name : String} {inside : List Token} (named : targetName left = .ok name)
    (indices : targetIndices left = .ok inside) (n : Nat) :
    Delves n inside ↔ Delves (n + 1) left := by
  obtain ⟨t, rest, close, rfl, cut⟩ := CallSite.of_targetIndices indices
  obtain ⟨-, _, word⟩ := targetName_eq_ok_iff.1 named
  cases word
  rw [delves_neutral_iff rfl, delves_opening_iff rfl cut]
  have nothing : ¬ Delves (n + 1) ([] : List Token) := by
    simp [delves_succ_iff, filledLevels, levelsBy]
  have round : isSymbol .bracketLeft (Token.symbol .parenLeft) = false := rfl
  simp [nothing, round]

/-- A target without indices has no groups that are too deep. -/
theorem not_delves_singleton (t : Token) {n : Nat} : ¬ Delves (n + 2) [t] := by
  rw [delves_succ_iff, filledLevels, levelsBy]
  cases bracketRole t with
  | opening =>
    dsimp only
    split <;> simp [levelsBy]
  | closing | neutral => simp [levelsBy]

theorem bounded_assignPlacesWith (deeper : Group.Resolver)
    (plain : ∀ inside, targetIndices left = .ok inside → ¬ Macro.Invokes macros inside)
    {name : String} (named : targetName left = .ok name) (v : Variable) :
    Bounded (assignPlacesWith (Macro.expand macros) (Group.block maxNesting) scope name left v)
      (assignPlacesWith (Macro.expand macros) (Group.blockAbove deeper maxNesting) scope name left
        v)
      (Delves (maxNesting + 1) left) := by
  unfold assignPlacesWith
  split
  · rename_i m found
    refine .behind (sound_ofExcept Error.notOfDepth_of_plain (decides_targetIndices _))
      fun {_ inside _} cut => ?_
    obtain ⟨indices, -⟩ := ofExcept_eq_ok_iff.1 cut
    refine .behind (sound_preparing inside) fun {_ items _} prepared => ?_
    exact ((Group.bounded_address (Group.bounded_block deeper maxNesting) items).then fun _ =>
      sound_ofExcept_bind Error.notOfDepth_of_plain (Operation.answers_insert _ _ _)
        fun op regular => (sound_emit regular).bind fun _ => sound_pure _).congr
      ((delves_prepared (plain inside indices) prepared _).trans (delves_target named indices _))
  · exact bounded_throw (by rintro ⟨⟩) _
  · exact bounded_throw (by rintro ⟨⟩) _

theorem bounded_assignWith (deeper : Group.Resolver)
    (plain : ∀ inside, targetIndices left = .ok inside → ¬ Macro.Invokes macros inside)
    {name : String} (named : targetName left = .ok name) (v : Variable) :
    Bounded (assignWith (Macro.expand macros) (Group.block maxNesting) scope name left v)
      (assignWith (Macro.expand macros) (Group.blockAbove deeper maxNesting) scope name left v)
      (Delves (maxNesting + 1) left) := by
  unfold assignWith
  split
  · rename_i single
    obtain ⟨t, rfl⟩ := List.length_eq_one_iff.1 single
    exact (sound_assignWhole Error.notOfDepth_of_plain scope name v).bounded.congr
      (iff_of_false id (not_delves_singleton t))
  · exact (bounded_assignPlacesWith deeper plain named v).then fun _ => sound_pure _

/-- Behind the name of the target, the value and the indices of the target are parts of the
statement. -/
theorem not_invokes_parts (cut : splitAssignment tokens = .ok (left, right)) {name : String}
    (named : targetName left = .ok name) (plain : ¬ Macro.Invokes macros tokens.tail) :
    ¬ Macro.Invokes macros right ∧
      ∀ inside, targetIndices left = .ok inside → ¬ Macro.Invokes macros inside := by
  obtain ⟨rfl, -, -⟩ := parts_of_splitAssignment cut
  obtain ⟨-, rest, rfl⟩ := targetName_eq_ok_iff.1 named
  constructor
  · intro invokes
    have more := invokes.within (rest ++ [.symbol .assign]) []
    rw [List.append_nil, List.append_assoc] at more
    exact plain more
  · intro inside indices invokes
    obtain ⟨_, behind, close, eq, group⟩ := CallSite.of_targetIndices indices
    cases eq
    have more := invokes.within [.symbol .parenLeft] (close :: .symbol .assign :: right)
    rw [← append_of_untilClose group] at plain
    exact plain (by simpa using more)

/-- **A statement is limited by how deep its value and its target go.** -/
theorem bounded_compileWith (deeper : Group.Resolver)
    (plain : ¬ Macro.Invokes macros tokens.tail) :
    Bounded (compileWith (Macro.expand macros) (Group.block maxNesting) scope tokens)
      (compileWith (Macro.expand macros) (Group.blockAbove deeper maxNesting) scope tokens)
      (TooDeep tokens) := by
  refine .behind (sound_ofExcept Error.notOfDepth_of_plain (decides_splitAssignment _))
    fun {_ sides _} run => ?_
  obtain ⟨cut, -⟩ := ofExcept_eq_ok_iff.1 run
  obtain ⟨left, right⟩ := sides
  refine .behind (sound_require Error.notOfDepth_of_plain id _) fun _ =>
    .behind (sound_target Error.notOfDepth_of_plain (fun _ => by rintro ⟨⟩) left)
      fun {_ name _} run => ?_
  obtain ⟨named, -⟩ := target_eq_ok_iff.1 run
  obtain ⟨plainValue, plainTarget⟩ := not_invokes_parts cut named plain
  refine ((bounded_valueWith deeper plainValue).bind fun {_ v _} _ =>
    (bounded_assignWith deeper plainTarget named v).then fun _ => fun _ => id).congr ?_
  exact (tooDeep_iff cut).symm

end Bounded

end Statement

/-! ### Sessions -/

namespace Session

variable {s : Session} {source : String} {tokens : List Token}

/-- **A statement is refused for its depth iff its value has a group of level `maxNesting`, or its
target one above, unless something else is wrong with it.**  This holds of all statements in which
no macro is invoked behind the name of the target, and for all mixtures of groups; a matrix literal
with nothing in it does not count.  A refusal for depth is right whatever else is wrong, and a
statement that is not refused for its depth is compiled as if the lists that are too deep were
treated in any other way. -/
theorem nestedTooDeeply_iff (read : Token.tokenize source = .ok tokens)
    (statement : Token.declareMacro tokens = false)
    (plain : ¬ Macro.Invokes s.macros tokens.tail) :
    (Error.malformed .nestedTooDeeply).message = "syntax error: expression nested too deeply" ∧
    ((∀ e, (s.compile source).result = .error e → e = .malformed .nestedTooDeeply) →
      ((s.compile source).result = .error (.malformed .nestedTooDeeply) ↔
        Statement.TooDeep tokens)) ∧
    ((s.compile source).result = .error (.malformed .nestedTooDeeply) →
      Statement.TooDeep tokens) ∧
    ((s.compile source).result ≠ .error (.malformed .nestedTooDeeply) → ∀ deeper,
      Statement.compileWith (Macro.expand s.macros) (Group.blockAbove deeper maxNesting) s.scope
          tokens s.draft =
        Statement.compile s.scope s.macros tokens s.draft) := by
  have bounded := fun deeper =>
    @Statement.bounded_compileWith s.macros s.scope tokens deeper plain
  simp only [Statement.compileWith_eq] at bounded
  refine ⟨rfl, ?_⟩
  have limited := bounded (Group.block maxNesting)
  cases run : Statement.compile s.scope s.macros tokens s.draft with
  | ok compiled d =>
    have result := (compile_of_ok read statement run).1
    have shallow := limited.of_ok run
    refine ⟨fun _ => ?_, fun deep => ?_, fun _ deeper => ?_⟩
    · simp [result, shallow]
    · cases result.symm.trans deep
    · rw [(bounded deeper).same (by simp [run]), run]
  | error e d =>
    have result := compile_of_fail read statement run
    refine ⟨fun only => ?_, fun deep => ?_, fun other deeper => ?_⟩
    · obtain rfl := only e result
      simp [result, limited.of_deep run]
    · cases result.symm.trans deep
      exact limited.of_deep run
    · rw [(bounded deeper).same ?_, run]
      rintro d' run'
      cases run.symm.trans run'
      exact other result

/-- A number in as many pairs of brackets as the limit allows, assigned to a variable. -/
def wrapped : String := "y = " ++ String.ofList
  (List.replicate maxNesting '(' ++ '1' :: List.replicate maxNesting ')')

/-- The brackets of `wrapped`, and the number. -/
def wrappedValue : List Token := List.replicate maxNesting (.symbol .parenLeft) ++
  .integer 1 :: List.replicate maxNesting (.symbol .parenRight)

set_option maxRecDepth 4000 in
theorem tokenize_wrapped :
    Token.tokenize wrapped = .ok (.word "y" :: .symbol .assign :: wrappedValue) := by
  cbv

theorem split_wrapped : Statement.splitAssignment (.word "y" :: .symbol .assign :: wrappedValue) =
    .ok ([.word "y"], wrappedValue) := by
  cbv

/-- The value of a statement may not nest as deep as the limit says. -/
theorem nestedTooDeeply_iff_of_wrapped : ∃ s tokens, Token.tokenize wrapped = .ok tokens ∧
    Token.declareMacro tokens = false ∧ ¬ Macro.Invokes (Session.macros s) tokens.tail ∧
    Statement.TooDeep tokens ∧ ∀ program, (s.compile wrapped).result ≠ .ok program := by
  have plain : ¬ Macro.Invokes (Session.macros {}) (.symbol .assign :: wrappedValue) := by
    rintro ⟨_, _, _, _, found, -⟩
    cases found
  have deep : Statement.TooDeep (.word "y" :: .symbol .assign :: wrappedValue) :=
    ⟨_, _, split_wrapped, .inl ⟨maxNesting, by decide +kernel, le_refl _⟩⟩
  refine ⟨{}, _, tokenize_wrapped, rfl, plain, deep, fun program compiled => ?_⟩
  obtain ⟨-, refused, -⟩ := @nestedTooDeeply_iff {} _ _ tokenize_wrapped rfl plain
  have result := (refused fun e failed => by rw [compiled] at failed; cases failed).2 deep
  cases compiled.symm.trans result

set_option maxRecDepth 4000 in
theorem compile_wrapped : (compile {} wrapped).result = .error (.malformed .nestedTooDeeply) := by
  have run : ∃ d, Statement.compile (Session.scope {}) (Session.macros {})
      (.word "y" :: .symbol .assign :: wrappedValue) (draft {}) =
      .error (.malformed .nestedTooDeeply) d := ⟨_, by cbv⟩
  obtain ⟨d, run⟩ := run
  exact compile_of_fail tokenize_wrapped rfl run

/-- No group of the statement is deeper than the limit, but the statement is refused for it. -/
theorem limit_not_exact : ¬ ∀ (s : Session) (source : String) (tokens left right : List Token),
    Token.tokenize source = .ok tokens → Token.declareMacro tokens = false →
    ¬ Macro.Invokes s.macros tokens →
    Statement.splitAssignment tokens = .ok (left, right) →
    (∀ e, (s.compile source).result = .error e → e = .malformed .nestedTooDeeply) →
    ((s.compile source).result = .error (.malformed .nestedTooDeeply) ↔
      ∃ level ∈ levels left ++ levels right, maxNesting < level) := by
  intro exact
  have plain : ∀ tokens, ¬ Macro.Invokes (Session.macros {}) tokens := by
    rintro tokens ⟨_, _, _, _, found, -⟩
    cases found
  have deep := (exact {} wrapped _ _ _ tokenize_wrapped rfl (plain _) split_wrapped
    (fun e failed => by cases compile_wrapped.symm.trans failed; rfl)).1 compile_wrapped
  revert deep
  decide +kernel

end Session

end MatrixCalc
