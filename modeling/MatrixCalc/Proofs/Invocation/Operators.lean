import MatrixCalc.Proofs.Invocation.Parallel

/-!
# Operators and ranges side by side

Two lists without brackets, whose items are the same symbols and functions and like variables, are
resolved alike: operators leave like results, ranges have the same indices, and so have lists of
integers and sequences.

* `Comparison.lockstep_all` : resolving the operators of two such lists.
* `Comparison.lockstep_handles`, `Comparison.lockstep_join` : resolving what is left.
-/

namespace MatrixCalc

/-! ### Indices one after another -/

/-- The indices of several sequences, one after another. -/
theorem IndexSequence.indices_joined (read : Cell .integer → Int64) (size : Nat)
    (found : List IndexSequence) : (joined found).indices read size =
      (found.mapM (indices read size)).map List.flatten := by
  have parts : (runsOfParts read size found).map Runs.toList =
      (found.mapM (indices read size)).map List.flatten := by
    induction found with
    | nil => exact congrArg Except.ok (Runs.toList_of_next?_eq_none rfl)
    | cons part found ih =>
      rw [List.mapM_cons, runsOfParts, indices]
      cases runs read size part with
      | error => rfl
      | ok first =>
        cases more : runsOfParts read size found with
        | error =>
          rw [more] at ih
          cases rest : found.mapM (indices read size) with
          | error =>
            rw [rest] at ih
            exact ih
          | ok =>
            rw [rest] at ih
            cases ih
        | ok second =>
          rw [more] at ih
          cases rest : found.mapM (indices read size) with
          | error =>
            rw [rest] at ih
            cases ih
          | ok lists =>
            rw [rest] at ih
            have same : Runs.toList second = lists.flatten := Except.ok.inj ih
            show Except.ok (Runs.toList (first ++ second)) =
              Except.ok (Runs.toList first :: lists).flatten
            rw [Runs.toList_append, same, List.flatten_cons]
  exact parts

namespace Comparison

open Build

variable {r : Comparison} {p : Stage}

/-! ### Items -/

variable (r) in
/-- The same symbol or function, or like variables. -/
inductive LikeItem (p : Stage) : Item → Item → Prop
  | symbol (s : Symbol) : LikeItem p (.symbol s) (.symbol s)
  | function (f : Builtin) : LikeItem p (.function f) (.function f)
  | value {v v' : Variable} (alike : r.Alike p v v') : LikeItem p (.value v) (.value v')

theorem lasting_likeItem : Lasting r.LikeItem := by
  intro p q grows item item' like
  cases like with
  | symbol s => exact .symbol s
  | function f => exact .function f
  | value alike => exact .value (lasting_alike grows alike)

theorem LikeItem.symbol_eq {item item' : Item} (h : r.LikeItem p item item') :
    symbol? item' = symbol? item := by
  cases h <;> rfl

theorem LikeItem.isSymbol_eq {item item' : Item} (h : r.LikeItem p item item') (s : Symbol) :
    isSymbol s item' = isSymbol s item := by
  rw [isSymbol, isSymbol, h.symbol_eq]

theorem LikeItem.bracketRole_eq {item item' : Item} (h : r.LikeItem p item item') :
    bracketRole item' = bracketRole item := by
  rw [bracketRole, bracketRole, h.symbol_eq]

variable (r) in
/-- Like items, place by place. -/
abbrev FlatAlike (p : Stage) : List Item → List Item → Prop := List.Forall₂ (r.LikeItem p)

theorem lasting_flatAlike : Lasting r.FlatAlike := lasting_likeItem.forall₂

/-! ### Operators -/

theorem lockstep_operand (context : String) {item item' : Item} (h : r.LikeItem p item item') :
    Lockstep p (item.operand context) (item'.operand context) r.Alike := by
  cases h with
  | value alike => exact lockstep_pure alike
  | symbol | function => exact lockstep_get lockstep_fail

theorem lockstep_unary (s : Symbol) {v v' : Variable} (h : r.Alike p v v') :
    Lockstep p (emitRecipe (Recipe.unary s v)) (emitRecipe (Recipe.unary s v')) r.Alike := by
  obtain ⟨w, -, -, agrees⟩ := h
  rw [Recipe.unary_rename, Recipe.unary_rename]
  refine lockstep_emitRecipe (agreed_pair (fun recipe made u operand =>
    (Recipe.uses_unary made).2.mem_iff.2 operand) fun passes u mem => ?_)
  obtain rfl := List.mem_singleton.1 mem
  exact agrees passes

theorem lockstep_binary (s : Symbol) {a a' b b' : Variable} (ha : r.Alike p a a')
    (hb : r.Alike p b b') :
    Lockstep p (emitRecipe (Recipe.binary s a b)) (emitRecipe (Recipe.binary s a' b')) r.Alike := by
  obtain ⟨w, -, -, agrees⟩ := ha
  obtain ⟨x, -, -, agrees'⟩ := hb
  rw [Recipe.binary_rename, Recipe.binary_rename]
  refine lockstep_emitRecipe (agreed_pair (fun recipe made u operand =>
    (Recipe.uses_binary made).2.mem_iff.2 operand) fun passes u mem => ?_)
  rcases List.mem_pair.1 mem with rfl | rfl
  · exact agrees passes
  · exact agrees' passes

theorem lockstep_negate (times : Nat) {v v' : Variable} (h : r.Alike p v v') :
    Lockstep p (Tier.negate times v) (Tier.negate times v') r.Alike := by
  induction times generalizing p v v' with
  | zero => exact lockstep_pure h
  | succ times ih => exact (lockstep_unary .neg h).bind fun _ _ _ _ => ih

theorem lockstep_transpositions {done done' items items' : List Item}
    (before : r.FlatAlike p done done') (h : r.FlatAlike p items items') :
    Lockstep p (Tier.transpositions done items) (Tier.transpositions done' items')
      r.FlatAlike := by
  induction items generalizing p done done' items' with
  | nil =>
    cases h
    exact lockstep_pure (List.rel_reverse before)
  | cons item items ih =>
    obtain _ | ⟨like, more⟩ := h
    simp only [Tier.transpositions, like.isSymbol_eq]
    split
    · cases before with
      | nil => exact lockstep_fail
      | cons left before =>
        refine (lockstep_operand _ left).bind fun q leads a a' operand => ?_
        refine (lockstep_unary _ operand).bind fun q' leads' v v' alike => ?_
        have grows := (leads.trans leads').grows
        exact ih (.cons (.value alike) (lasting_flatAlike grows before))
          (lasting_flatAlike grows more)
    · exact ih (.cons like before) more

variable (r) in
/-- Operators that wait for their operands behind like items. -/
structure LikePending (p : Stage) (x x' : Tier.Pending) : Prop where
  left : r.LikeItem p x.left x'.left
  symbol : x'.symbol = x.symbol
  signs : x'.signs = x.signs

theorem lockstep_pending {x x' : Tier.Pending} (h : r.LikePending p x x') {right right' : Item}
    (operand : r.LikeItem p right right') :
    Lockstep p (x.resolve right) (x'.resolve right') r.Alike := by
  simp only [Tier.Pending.resolve, h.symbol, h.signs]
  split
  · refine (lockstep_operand _ h.left).bind fun q leads a a' first => ?_
    refine (lockstep_operand _ (lasting_likeItem leads.grows operand)).bind
      fun q' leads' b b' second => ?_
    exact lockstep_binary _ (lasting_alike leads'.grows first) second
  · refine (lockstep_operand _ operand).bind fun q₁ leads₁ b b' second => ?_
    refine (lockstep_negate _ second).bind fun q₂ leads₂ b b' second => ?_
    have left := lasting_likeItem (leads₁.trans leads₂).grows h.left
    refine (lockstep_operand _ left).bind fun q₃ leads₃ a a' first => ?_
    exact lockstep_binary _ first (lasting_alike leads₃.grows second)

theorem lockstep_binaries (tier : List Symbol) {done done' items items' : List Item}
    {x x' : Option Tier.Pending} (before : r.FlatAlike p done done')
    (waiting : Option.Rel (r.LikePending p) x x') (h : r.FlatAlike p items items') :
    Lockstep p (Tier.binaries tier done x items) (Tier.binaries tier done' x' items')
      r.FlatAlike := by
  -- what is done and what waits change along the list, so they are general in the induction
  induction items generalizing p done done' x x' items' with
  | nil =>
    cases h
    cases waiting with
    | none =>
      simp only [Tier.binaries]
      exact lockstep_pure (List.rel_reverse before)
    | @some x _ _ =>
      obtain ⟨left, s, _ | signs⟩ := x
      all_goals
        simp only [Tier.binaries]
        exact lockstep_fail
  | cons item items ih =>
    obtain _ | ⟨like, more⟩ := h
    cases waiting with
    | none =>
      simp only [Tier.binaries, like.symbol_eq]
      cases symbol? item with
      | none => exact ih (.cons like before) .none more
      | some s =>
        cases before with
        | nil =>
          dsimp only
          split
          · exact lockstep_fail
          · exact ih (.cons like .nil) .none more
        | cons left before =>
          dsimp only
          split
          · exact ih before (.some ⟨left, rfl, rfl⟩) more
          · exact ih (.cons like (.cons left before)) .none more
    | some pending =>
      simp only [Tier.binaries, like.isSymbol_eq]
      split
      · exact ih before (.some ⟨pending.left, pending.symbol, congrArg (· + 1) pending.signs⟩) more
      · refine (lockstep_pending pending like).bind fun q leads v v' alike => ?_
        exact ih (.cons (.value alike) (lasting_flatAlike leads.grows before)) .none
          (lasting_flatAlike leads.grows more)

theorem lockstep_negations {done done' items items' : List Item}
    (before : r.FlatAlike p done done') (signs : Nat) (h : r.FlatAlike p items items') :
    Lockstep p (Tier.negations done signs items) (Tier.negations done' signs items')
      r.FlatAlike := by
  induction items generalizing p done done' signs items' with
  | nil =>
    cases h
    simp only [Tier.negations]
    split
    · exact lockstep_pure (List.rel_reverse before)
    · exact lockstep_fail
  | cons item items ih =>
    obtain _ | ⟨like, more⟩ := h
    simp only [Tier.negations, like.isSymbol_eq]
    split
    · exact ih before _ more
    · split
      · exact ih (.cons like before) _ more
      · refine (lockstep_operand _ like).bind fun q leads a a' operand => ?_
        refine (lockstep_negate _ operand).bind fun q' leads' v v' alike => ?_
        have grows := (leads.trans leads').grows
        exact ih (.cons (.value alike) (lasting_flatAlike grows before)) _
          (lasting_flatAlike grows more)

/-- **Resolving the operators of like lists gives like lists.** -/
theorem lockstep_all {items items' : List Item} (h : r.FlatAlike p items items') :
    Lockstep p (Tier.all items) (Tier.all items') r.FlatAlike := by
  have binary : ∀ tier {q items items'}, r.FlatAlike q items items' → Lockstep q
      (Tier.binaries tier [] none items) (Tier.binaries tier [] none items') r.FlatAlike :=
    fun tier _ _ _ => lockstep_binaries tier .nil .none
  exact (lockstep_transpositions .nil h).bind fun _ _ _ _ h => (binary _ h).bind fun _ _ _ _ h =>
    (binary _ h).bind fun _ _ _ _ h => (binary _ h).bind fun _ _ _ _ h =>
      (lockstep_negations .nil 0 h).bind fun _ _ _ _ h => binary _ h

/-! ### Ranges -/

variable (r) in
/-- In the end the two cells hold the same integer. -/
def SameInteger (p : Stage) (c c' : Cell .integer) : Prop :=
  r.Passes p → r.second.store.read c' = r.first.store.read c

variable (r) in
/-- In the end the two sequences have the same indices, for every size. -/
def SameIndices (p : Stage) (s s' : IndexSequence) : Prop :=
  r.Passes p → ∀ size, s'.indices r.second.store.read size = s.indices r.first.store.read size

variable (r) in
/-- Like variables, or ranges of the same indices. -/
inductive LikeRange (p : Stage) : Range → Range → Prop
  | value {v v' : Variable} (alike : r.Alike p v v') : LikeRange p (.value v) (.value v')
  | sequence {s s' : IndexSequence} (same : r.SameIndices p s s') :
      LikeRange p (.sequence s) (.sequence s')

theorem lasting_likeRange : Lasting r.LikeRange := by
  intro p q grows a a' like
  cases like with
  | value alike => exact .value (lasting_alike grows alike)
  | sequence same => exact .sequence fun passes => same (passes.of_grows grows)

theorem sameIndices_progression {a a' c c' : Cell .integer} {b b' : Option (Cell .integer)}
    (start : r.SameInteger p a a') (step : Option.Rel (r.SameInteger p) b b')
    (stop : r.SameInteger p c c') :
    r.SameIndices p (.progression a b c) (.progression a' b' c') := by
  intro passes size
  cases step with
  | none => simp [IndexSequence.indices, IndexSequence.runs, start passes, stop passes]
  | some same =>
    simp [IndexSequence.indices, IndexSequence.runs, start passes, stop passes, same passes]

theorem sameIndices_span {a a' : Option (Cell .integer)}
    (start : Option.Rel (r.SameInteger p) a a') :
    r.SameIndices p (.span a none) (.span a' none) := by
  intro passes size
  cases start with
  | none => rfl
  | some same => simp [IndexSequence.indices, IndexSequence.runs, same passes]

theorem agreed_bound {v v' : Variable} (h : r.Alike p v v') :
    Agreed (Range.bound v) (Range.bound v') (r.SameInteger p) := by
  obtain ⟨⟨_ | _ | _ | _, c⟩, -, -, agrees⟩ := h
  case integer => exact agreed_ok agrees
  all_goals exact agreed_error

/-- Like variables and colons are cut into like ranges. -/
theorem agreed_parse {pieces pieces' : List (Option Variable)}
    (h : List.Forall₂ (Option.Rel (r.Alike p)) pieces pieces') :
    Agreed (Range.parse pieces) (Range.parse pieces') (List.Forall₂ (r.LikeRange p)) := by
  fun_induction Range.parse pieces generalizing pieces' with
  | case1 =>
    cases h
    exact agreed_ok .nil
  | case2 =>
    rcases h with _ | ⟨⟨⟩, ⟨⟩⟩
    exact agreed_ok (.cons (.sequence (sameIndices_span .none)) .nil)
  | case3 rest ih =>
    rcases h with _ | ⟨⟨⟩, _ | ⟨⟨⟩, h⟩⟩
    simp only [Range.parse]
    exact (ih (.cons .none h)).bind fun _ _ more =>
      agreed_ok (.cons (.sequence (sameIndices_span .none)) more)
  | case4 | case6 => exact agreed_error
  | case5 =>
    rcases h with _ | ⟨⟨v⟩, _ | ⟨⟨⟩, ⟨⟩⟩⟩
    simp only [Range.parse]
    exact (agreed_bound v).bind fun c c' start =>
      agreed_ok (.cons (.sequence (sameIndices_span (.some start))) .nil)
  | case7 _ _ _ rest ih =>
    rcases h with _ | ⟨⟨v⟩, _ | ⟨⟨⟩, _ | ⟨⟨w⟩, _ | ⟨⟨⟩, _ | ⟨⟨x⟩, h⟩⟩⟩⟩⟩
    simp only [Range.parse]
    exact (agreed_bound v).bind fun _ _ start => (agreed_bound w).bind fun _ _ step =>
      (agreed_bound x).bind fun _ _ stop => (ih h).bind fun _ _ more =>
        agreed_ok (.cons (.sequence (sameIndices_progression start (.some step) stop)) more)
  | case8 =>
    intro ranges _ parsed _
    simp only [except_bind_eq_ok_iff] at parsed
    obtain ⟨_, -, _, -, failed⟩ := parsed
    cases failed
  | case9 _ _ rest _ noStep ih =>
    rcases h with _ | ⟨⟨v⟩, _ | ⟨⟨⟩, _ | ⟨⟨w⟩, h⟩⟩⟩
    -- no colon follows, so the second list is cut in the same way
    rcases h with _ | ⟨⟨x⟩ | _, h⟩
    case cons.none => exact absurd rfl (noStep _)
    all_goals simp only [Range.parse]
    · exact (agreed_bound v).bind fun _ _ start => (agreed_bound w).bind fun _ _ stop =>
        agreed_ok (.cons (.sequence (sameIndices_progression start .none stop)) .nil)
    · exact (agreed_bound v).bind fun _ _ start => (agreed_bound w).bind fun _ _ stop =>
        (ih (.cons (.some x) h)).bind fun _ _ more =>
          agreed_ok (.cons (.sequence (sameIndices_progression start .none stop)) more)
  | case10 _ _ last noColon _ _ noRange ih =>
    rcases h with _ | ⟨⟨v⟩, _ | ⟨⟨x⟩ | _, h⟩⟩
    · simp only [Range.parse]
      exact agreed_ok (.cons (.value v) .nil)
    · simp only [Range.parse]
      exact (ih (.cons (.some x) h)).bind fun _ _ more => agreed_ok (.cons (.value v) more)
    · rename_i rest _ _ _
      rcases rest with _ | ⟨_ | stop, rest⟩
      · exact absurd rfl last
      · exact absurd rfl (noColon rest)
      · exact absurd rfl (noRange stop rest)

theorem agreed_piece {s s' : Store} {item item' : Item} (h : r.LikeItem p item item') :
    Agreed (Range.piece s item) (Range.piece s' item') (Option.Rel (r.Alike p)) := by
  cases h with
  | value alike => exact agreed_ok (.some alike)
  | function => exact agreed_error
  | symbol s =>
    cases s
    case colon => exact agreed_ok .none
    all_goals exact agreed_error

theorem lockstep_toVariable {a a' : Range} (h : r.LikeRange p a a') :
    Lockstep p a.toVariable a'.toVariable r.Alike := by
  cases h with
  | value alike => exact lockstep_pure alike
  | sequence same => exact lockstep_sequenceVariable same

/-- **Like lists of variables and colons stand for like variables.** -/
theorem lockstep_handles {items items' : List Item} (h : r.FlatAlike p items items') :
    Lockstep p (Range.handles items) (Range.handles items') r.AllAlike := by
  refine lockstep_get ?_
  refine Lockstep.bind (R := fun q => List.Forall₂ (Option.Rel (r.Alike q)))
    (lockstep_ofExcept (agreed_mapM h fun _ _ => agreed_piece)) fun _ _ _ _ pieces => ?_
  refine Lockstep.bind (R := fun q => List.Forall₂ (r.LikeRange q))
    (lockstep_ofExcept (agreed_parse pieces)) fun _ _ _ _ ranges => ?_
  exact lockstep_mapM lasting_likeRange lasting_alike ranges fun _ _ _ => lockstep_toVariable

/-! ### Side by side -/

theorem sameIndices_listed {run run' : List (Cell .integer)}
    (h : List.Forall₂ (r.SameInteger p) run run') :
    r.SameIndices p (.listed run) (.listed run') := by
  intro passes size
  have values : run'.map r.second.store.read = run.map r.first.store.read := by
    induction h with
    | nil => rfl
    | cons same _ ih => rw [List.map_cons, List.map_cons, same passes, ih]
  simp only [IndexSequence.indices, IndexSequence.runs, values]

theorem sameIndices_flush {run run' : List (Cell .integer)} {found found' : List IndexSequence}
    (h : List.Forall₂ (r.SameInteger p) run run')
    (more : List.Forall₂ (r.SameIndices p) found found') :
    List.Forall₂ (r.SameIndices p) (Range.flush run found) (Range.flush run' found') := by
  unfold Range.flush
  cases h with
  | nil => exact more
  | cons one rest => exact .cons (sameIndices_listed (.cons one rest)) more

theorem sameIndices_ofParts {found found' : List IndexSequence}
    (h : List.Forall₂ (r.SameIndices p) found found') :
    r.SameIndices p (Range.ofParts found) (Range.ofParts found') := by
  have joined : r.SameIndices p (.joined found) (.joined found') := by
    intro passes size
    rw [IndexSequence.indices_joined, IndexSequence.indices_joined]
    congr 1
    induction h with
    | nil => rfl
    | cons one _ ih => rw [List.mapM_cons, List.mapM_cons, one passes size, ih]
  match h with
  | .nil => exact joined
  | .cons one .nil => exact one
  | .cons _ (.cons _ _) => exact joined

/-- Like variables side by side have parts of the same indices. -/
theorem agreed_parts {vs vs' : List Variable} (h : r.AllAlike p vs vs')
    {run run' : List (Cell .integer)} (listed : List.Forall₂ (r.SameInteger p) run run') :
    Agreed (Range.parts p.first.store run vs) (Range.parts p.second.store run' vs')
      (List.Forall₂ (r.SameIndices p)) := by
  induction h generalizing run run' with
  | nil => exact agreed_ok (sameIndices_flush listed .nil)
  | cons alike _ ih =>
    obtain ⟨⟨_ | _ | _ | _, c⟩, has, has', agrees⟩ := alike
    case integer => exact ih (List.rel_append listed (.cons agrees .nil))
    case sequence =>
      have same : r.SameIndices p (p.first.store.read (Renaming.first .sequence c))
          (p.second.store.read (Renaming.second .sequence c)) := by
        intro passes size
        have holds : r.first.store.read (Renaming.first .sequence c) =
            p.first.store.read (Renaming.first .sequence c) := passes.first.read_sequence has
        have holds' : r.second.store.read (Renaming.second .sequence c) =
            p.second.store.read (Renaming.second .sequence c) := passes.second.read_sequence has'
        rw [← holds, ← holds']
        exact congrFun (agrees passes) size
      exact (ih .nil).bind fun _ _ more => agreed_ok (sameIndices_flush listed (.cons same more))
    all_goals exact agreed_error

/-- **Like variables side by side have like values.** -/
theorem lockstep_join {vs vs' : List Variable} (h : r.AllAlike p vs vs') :
    Lockstep p (Range.join vs) (Range.join vs') fun q => Option.Rel (r.Alike q) := by
  rcases h with _ | ⟨first, _ | ⟨second, more⟩⟩
  · exact lockstep_pure .none
  · exact lockstep_pure (.some first)
  · simp only [Range.join]
    refine lockstep_get ?_
    refine Lockstep.bind (R := fun q => List.Forall₂ (r.SameIndices q))
      (lockstep_ofExcept (agreed_parts (.cons first (.cons second more)) .nil))
      fun _ _ _ _ found => ?_
    exact (lockstep_sequenceVariable (sameIndices_ofParts found)).bind fun _ _ _ _ alike =>
      lockstep_pure (.some alike)

end Comparison

end MatrixCalc
