import MatrixCalc.Proofs.Recompilation.Lockstep

/-!
# The parts of a statement in lockstep

Resolving operators, ranges and groups in two lists of corresponding items leads to corresponding
items, so two lists of corresponding items resolve to corresponding variables
(`Recompilation.lockstep_block`).
-/

namespace MatrixCalc

namespace Recompilation

open Build

variable {r : Recompilation}

/-! ### Corresponding lists -/

theorem LikeItem.symbol_eq {item item' : Item} (h : r.LikeItem item item') :
    symbol? item' = symbol? item := by
  cases h <;> rfl

theorem LikeItem.isSymbol_eq {item item' : Item} (h : r.LikeItem item item') (s : Symbol) :
    isSymbol s item' = isSymbol s item := by
  rw [isSymbol, isSymbol, h.symbol_eq]

theorem LikeItem.bracketRole_eq {item item' : Item} (h : r.LikeItem item item') :
    bracketRole item' = bracketRole item := by
  rw [bracketRole, bracketRole, h.symbol_eq]

variable (r) in
/-- Lists of corresponding items. -/
abbrev LikeItems : List Item → List Item → Prop := List.Forall₂ r.LikeItem

theorem LikeItems.isEmpty_eq {items items' : List Item} (h : r.LikeItems items items') :
    items'.isEmpty = items.isEmpty := by
  cases h <;> rfl

theorem rel_map {α β γ δ : Type} {P : α → β → Prop} {Q : γ → δ → Prop} {f : α → γ} {g : β → δ}
    {x : Option α} {y : Option β} (h : Option.Rel P x y) (fg : ∀ a b, P a b → Q (f a) (g b)) :
    Option.Rel Q (x.map f) (y.map g) := by
  cases h with
  | some like => exact .some (fg _ _ like)
  | none => exact .none

/-- Corresponding groups are cut out of corresponding lists. -/
theorem rel_untilClose {items items' : List Item} (h : r.LikeItems items items') (depth : Nat) :
    Option.Rel (fun cut cut' => r.LikeItems cut.1 cut'.1 ∧ r.LikeItems cut.2.2 cut'.2.2)
      (untilClose depth items) (untilClose depth items') := by
  induction h generalizing depth with
  | nil => exact .none
  | cons like more ih =>
    simp only [untilClose, like.bracketRole_eq]
    split
    · exact .some ⟨.nil, more⟩
    all_goals exact rel_map (ih _) fun _ _ cut => ⟨.cons like cut.1, cut.2⟩

theorem like_consToFirst {item item' : Item} (like : r.LikeItem item item')
    {pieces pieces' : List (List Item)} (h : List.Forall₂ r.LikeItems pieces pieces') :
    List.Forall₂ r.LikeItems (consToFirst item pieces) (consToFirst item' pieces') := by
  cases h with
  | nil => exact .cons (.cons like .nil) .nil
  | cons first more => exact .cons (.cons like first) more

/-- Corresponding lists are split into corresponding pieces. -/
theorem like_splitTop (separator : Symbol) {items items' : List Item}
    (h : r.LikeItems items items') (depth : Nat) :
    List.Forall₂ r.LikeItems (splitTop separator depth items)
      (splitTop separator depth items') := by
  induction h generalizing depth with
  | nil => exact .cons .nil .nil
  | cons like _ ih =>
    simp only [splitTop, like.bracketRole_eq, like.isSymbol_eq]
    split
    · exact like_consToFirst like (ih _)
    · exact like_consToFirst like (ih _)
    · split
      · exact .cons .nil (ih _)
      · exact like_consToFirst like (ih _)

/-! ### Operators -/

theorem lockstep_operand (context : String) {item item' : Item} (h : r.LikeItem item item') :
    r.Lockstep (item.operand context) (item'.operand context) r.Like := by
  cases h with
  | value like => exact lockstep_pure like
  | symbol | function => exact lockstep_get fun _ _ _ => lockstep_fail

theorem lockstep_unary (s : Symbol) {v v' : Variable} (h : r.Like v v') :
    r.Lockstep (emitRecipe (Recipe.unary s v)) (emitRecipe (Recipe.unary s v')) r.Like := by
  rw [h.eq]
  exact lockstep_emitRecipe (Recipe.unary_rename _ s v) fun _ made =>
    known_of_uses (Recipe.uses_unary made) (by simpa using h.known)

theorem lockstep_binary (s : Symbol) {a a' b b' : Variable} (ha : r.Like a a') (hb : r.Like b b') :
    r.Lockstep (emitRecipe (Recipe.binary s a b)) (emitRecipe (Recipe.binary s a' b')) r.Like := by
  rw [ha.eq, hb.eq]
  exact lockstep_emitRecipe (Recipe.binary_rename _ s a b) fun _ made =>
    known_of_uses (Recipe.uses_binary made) (by simpa using ⟨ha.known, hb.known⟩)

theorem lockstep_negate (times : Nat) {v v' : Variable} (h : r.Like v v') :
    r.Lockstep (Tier.negate times v) (Tier.negate times v') r.Like := by
  induction times generalizing v v' with
  | zero => exact lockstep_pure h
  | succ times ih => exact (lockstep_unary .neg h).bind fun _ _ => ih

theorem lockstep_transpositions {done done' items items' : List Item}
    (before : r.LikeItems done done') (h : r.LikeItems items items') :
    r.Lockstep (Tier.transpositions done items) (Tier.transpositions done' items')
      r.LikeItems := by
  induction h generalizing done done' with
  | nil => exact lockstep_pure (List.rel_reverse before)
  | cons like _ ih =>
    simp only [Tier.transpositions, like.isSymbol_eq]
    split
    · cases before with
      | nil => exact lockstep_fail
      | cons left before =>
        exact (lockstep_operand _ left).bind fun _ _ operand =>
          (lockstep_unary _ operand).bind fun _ _ value => ih (.cons (.value value) before)
    · exact ih (.cons like before)

variable (r) in
/-- Operators that wait for corresponding operands. -/
structure LikePending (p p' : Tier.Pending) : Prop where
  left : r.LikeItem p.left p'.left
  symbol : p'.symbol = p.symbol
  signs : p'.signs = p.signs

theorem lockstep_pending {p p' : Tier.Pending} (h : r.LikePending p p') {right right' : Item}
    (operand : r.LikeItem right right') :
    r.Lockstep (p.resolve right) (p'.resolve right') r.Like := by
  simp only [Tier.Pending.resolve, h.symbol, h.signs]
  split
  · exact (lockstep_operand _ h.left).bind fun _ _ a =>
      (lockstep_operand _ operand).bind fun _ _ b => lockstep_binary _ a b
  · exact (lockstep_operand _ operand).bind fun _ _ b => (lockstep_negate _ b).bind fun _ _ b =>
      (lockstep_operand _ h.left).bind fun _ _ a => lockstep_binary _ a b

theorem lockstep_binaries (tier : List Symbol) {done done' items items' : List Item}
    {p p' : Option Tier.Pending} (before : r.LikeItems done done')
    (waiting : Option.Rel r.LikePending p p') (h : r.LikeItems items items') :
    r.Lockstep (Tier.binaries tier done p items) (Tier.binaries tier done' p' items')
      r.LikeItems := by
  -- what is done and what waits change along the list, so they are general in the induction
  induction h generalizing done done' p p' with
  | nil =>
    cases waiting with
    | none =>
      simp only [Tier.binaries]
      exact lockstep_pure (List.rel_reverse before)
    | @some p p' pending =>
      obtain ⟨left, s, signs⟩ := p
      obtain ⟨left', s', signs'⟩ := p'
      obtain ⟨-, symbol, count⟩ := pending
      dsimp only at symbol count
      subst symbol count
      cases signs'
      all_goals
        simp only [Tier.binaries]
        exact lockstep_fail
  | cons like _ ih =>
    cases waiting with
    | none =>
      rename_i item _ _ _ _
      simp only [Tier.binaries, like.symbol_eq]
      cases symbol? item with
      | none => exact ih (.cons like before) .none
      | some s =>
        cases before with
        | nil =>
          dsimp only
          split
          · exact lockstep_fail
          · exact ih (.cons like .nil) .none
        | cons left before =>
          dsimp only
          split
          · exact ih before (.some ⟨left, rfl, rfl⟩)
          · exact ih (.cons like (.cons left before)) .none
    | some pending =>
      simp only [Tier.binaries, like.isSymbol_eq]
      split
      · exact ih before (.some ⟨pending.left, pending.symbol, congrArg (· + 1) pending.signs⟩)
      · exact (lockstep_pending pending like).bind fun _ _ value =>
          ih (.cons (.value value) before) .none

theorem lockstep_negations {done done' items items' : List Item} (before : r.LikeItems done done')
    (signs : Nat) (h : r.LikeItems items items') :
    r.Lockstep (Tier.negations done signs items) (Tier.negations done' signs items')
      r.LikeItems := by
  induction h generalizing done done' signs with
  | nil =>
    simp only [Tier.negations]
    split
    · exact lockstep_pure (List.rel_reverse before)
    · exact lockstep_fail
  | cons like _ ih =>
    simp only [Tier.negations, like.isSymbol_eq]
    split
    · exact ih before _
    · split
      · exact ih (.cons like before) _
      · exact (lockstep_operand _ like).bind fun _ _ operand =>
          (lockstep_negate _ operand).bind fun _ _ value => ih (.cons (.value value) before) _

theorem lockstep_all {items items' : List Item} (h : r.LikeItems items items') :
    r.Lockstep (Tier.all items) (Tier.all items') r.LikeItems := by
  have binary : ∀ tier {items items'}, r.LikeItems items items' → r.Lockstep
      (Tier.binaries tier [] none items) (Tier.binaries tier [] none items') r.LikeItems :=
    fun tier _ _ => lockstep_binaries tier .nil .none
  exact (lockstep_transpositions .nil h).bind fun _ _ h => (binary _ h).bind fun _ _ h =>
    (binary _ h).bind fun _ _ h => (binary _ h).bind fun _ _ h =>
      (lockstep_negations .nil 0 h).bind fun _ _ h => binary _ h

/-! ### Ranges and side-by-side lists -/

variable (r) in
/-- A variable and a corresponding one, or a range of known cells under its other names. -/
inductive LikeRange : Range → Range → Prop
  | value {v v' : Variable} (h : r.Like v v') : LikeRange (.value v) (.value v')
  | sequence {s : IndexSequence} (known : ∀ c ∈ s.cells, r.Known c) :
      LikeRange (.sequence s) (.sequence (s.rename r.rename))

variable (r) in
/-- A known integer cell under its other name. -/
structure LikeCell (c c' : Cell .integer) : Prop where
  eq : c' = r.rename .integer c
  known : r.Known c

theorem likeRange_span {start start' : Option (Cell .integer)}
    (h : Option.Rel r.LikeCell start start') :
    r.LikeRange (.sequence (.span start none)) (.sequence (.span start' none)) := by
  cases h with
  | none => exact @LikeRange.sequence r (.span none none) nofun
  | @some c c' like =>
    rw [like.eq]
    refine @LikeRange.sequence r (.span (some c) none) fun x mem => ?_
    obtain rfl := List.mem_singleton.1 mem
    exact like.known

theorem likeRange_progression {start start' stop stop' : Cell .integer}
    {step step' : Option (Cell .integer)} (first : r.LikeCell start start')
    (by' : Option.Rel r.LikeCell step step') (last : r.LikeCell stop stop') :
    r.LikeRange (.sequence (.progression start step stop))
      (.sequence (.progression start' step' stop')) := by
  rw [first.eq, last.eq]
  cases by' with
  | none =>
    refine @LikeRange.sequence r (.progression start none stop) fun x mem => ?_
    simp only [IndexSequence.cells, Option.toList_none, List.cons_append, List.nil_append,
      List.mem_cons, List.not_mem_nil, or_false] at mem
    rcases mem with rfl | rfl
    · exact first.known
    · exact last.known
  | @some c c' like =>
    rw [like.eq]
    refine @LikeRange.sequence r (.progression start (some c) stop) fun x mem => ?_
    simp only [IndexSequence.cells, Option.toList_some, List.cons_append, List.nil_append,
      List.mem_cons, List.not_mem_nil, or_false] at mem
    rcases mem with rfl | rfl | rfl
    · exact first.known
    · exact like.known
    · exact last.known

theorem follows_bound {v v' : Variable} (h : r.Like v v') :
    r.Follows (Range.bound v) (Range.bound v') r.LikeCell := by
  have known := h.known
  rw [h.eq]
  rcases v with ⟨_ | _ | _ | _, c⟩
  case integer => exact follows_ok ⟨rfl, known⟩
  all_goals exact follows_error

/-- Corresponding variables and colons are cut into corresponding ranges. -/
theorem follows_parse {pieces pieces' : List (Option Variable)}
    (h : List.Forall₂ (Option.Rel r.Like) pieces pieces') :
    r.Follows (Range.parse pieces) (Range.parse pieces') (List.Forall₂ r.LikeRange) := by
  fun_induction Range.parse pieces generalizing pieces' with
  | case1 =>
    cases h
    exact follows_ok .nil
  | case2 =>
    rcases h with _ | ⟨⟨⟩, ⟨⟩⟩
    exact follows_ok (.cons (likeRange_span .none) .nil)
  | case3 rest ih =>
    rcases h with _ | ⟨⟨⟩, _ | ⟨⟨⟩, h⟩⟩
    simp only [Range.parse]
    exact (ih (.cons .none h)).bind fun _ _ more => follows_ok (.cons (likeRange_span .none) more)
  | case4 =>
    rcases h with _ | ⟨⟨⟩, _ | ⟨⟨⟩, h⟩⟩
    exact follows_error
  | case5 =>
    rcases h with _ | ⟨⟨v⟩, _ | ⟨⟨⟩, ⟨⟩⟩⟩
    simp only [Range.parse]
    exact (follows_bound v).bind fun _ _ start =>
      follows_ok (.cons (likeRange_span (.some start)) .nil)
  | case6 =>
    rcases h with _ | ⟨⟨⟩, _ | ⟨⟨⟩, _ | ⟨⟨⟩, h⟩⟩⟩
    exact follows_error
  | case7 _ _ _ rest ih =>
    rcases h with _ | ⟨⟨v⟩, _ | ⟨⟨⟩, _ | ⟨⟨w⟩, _ | ⟨⟨⟩, _ | ⟨⟨x⟩, h⟩⟩⟩⟩⟩
    simp only [Range.parse]
    exact (follows_bound v).bind fun _ _ start => (follows_bound w).bind fun _ _ step =>
      (follows_bound x).bind fun _ _ stop => (ih h).bind fun _ _ more =>
        follows_ok (.cons (likeRange_progression start (.some step) stop) more)
  | case8 _ _ _ noStop =>
    rcases h with _ | ⟨⟨v⟩, _ | ⟨⟨⟩, _ | ⟨⟨w⟩, _ | ⟨⟨⟩, h⟩⟩⟩⟩
    -- no variable follows, so the second list is refused in the same way
    rcases h with _ | ⟨⟨x⟩ | _, h⟩
    case cons.some => exact absurd rfl (noStop _ _)
    all_goals
      simp only [Range.parse]
      exact (follows_bound v).bind fun _ _ _ => (follows_bound w).bind fun _ _ _ => follows_error
  | case9 _ _ rest _ noStep ih =>
    rcases h with _ | ⟨⟨v⟩, _ | ⟨⟨⟩, _ | ⟨⟨w⟩, h⟩⟩⟩
    -- no colon follows, so the second list is cut in the same way
    rcases h with _ | ⟨⟨x⟩ | _, h⟩
    case cons.none => exact absurd rfl (noStep _)
    all_goals
      simp only [Range.parse]
      refine (follows_bound v).bind fun _ _ start => (follows_bound w).bind fun _ _ stop => ?_
    · exact follows_ok (.cons (likeRange_progression start .none stop) .nil)
    · exact (ih (.cons (.some x) h)).bind fun _ _ more =>
        follows_ok (.cons (likeRange_progression start .none stop) more)
  | case10 _ _ last noColon _ _ noRange ih =>
    rcases h with _ | ⟨⟨v⟩, _ | ⟨⟨x⟩ | _, h⟩⟩
    · simp only [Range.parse]
      exact follows_ok (.cons (.value v) .nil)
    · simp only [Range.parse]
      exact (ih (.cons (.some x) h)).bind fun _ _ more => follows_ok (.cons (.value v) more)
    · rename_i rest _ _ _
      rcases rest with _ | ⟨_ | stop, rest⟩
      · exact absurd rfl last
      · exact absurd rfl (noColon rest)
      · exact absurd rfl (noRange stop rest)

theorem follows_piece {s s' : Store} {item item' : Item} (h : r.LikeItem item item') :
    r.Follows (Range.piece s item) (Range.piece s' item') (Option.Rel r.Like) := by
  cases h with
  | value like => exact follows_ok (.some like)
  | function => exact follows_error
  | symbol s =>
    cases s
    case colon => exact follows_ok .none
    all_goals exact follows_error

theorem lockstep_toVariable {a a' : Range} (h : r.LikeRange a a') :
    r.Lockstep a.toVariable a'.toVariable r.Like := by
  cases h with
  | value like => exact lockstep_pure like
  | sequence known => exact lockstep_sequenceVariable fun _ => ⟨rfl, known⟩

variable (r) in
/-- Lists of corresponding variables. -/
abbrev LikeAll : List Variable → List Variable → Prop := List.Forall₂ r.Like

theorem lockstep_handles {items items' : List Item} (h : r.LikeItems items items') :
    r.Lockstep (Range.handles items) (Range.handles items') r.LikeAll :=
  lockstep_get fun _ _ _ =>
    (lockstep_ofExcept (follows_mapM h fun _ _ => follows_piece)).bind fun _ _ pieces =>
      (lockstep_ofExcept (follows_parse pieces)).bind fun _ _ ranges =>
        lockstep_mapM ranges fun _ _ => lockstep_toVariable

theorem flush_rename (ρ : Renaming) (run : List (Cell .integer)) (found : List IndexSequence) :
    Range.flush (run.map (ρ .integer)) (found.map (IndexSequence.rename ρ)) =
      (Range.flush run found).map (IndexSequence.rename ρ) := by
  unfold Range.flush
  cases run <;> rfl

theorem ofParts_rename (ρ : Renaming) (found : List IndexSequence) :
    Range.ofParts (found.map (IndexSequence.rename ρ)) = (Range.ofParts found).rename ρ := by
  match found with
  | [] => rfl
  | [_] => rfl
  | first :: second :: more =>
    exact (congrArg IndexSequence.joined
      (IndexSequence.renameParts_eq ρ (first :: second :: more))).symm

/-- The parts of variables side by side; if sequences agree, they are those of the first store, and
their cells are known. -/
theorem follows_parts {d d' : Draft} (alike : r.Alike d d') {vs vs' : List Variable}
    (h : r.LikeAll vs vs') (run : List (Cell .integer)) (known : ∀ c ∈ run, r.Known c) :
    r.Follows (Range.parts d.store run vs) (Range.parts d'.store (run.map (r.rename .integer)) vs')
      fun found found' => r.agree → found' = found.map (IndexSequence.rename r.rename) ∧
        ∀ c ∈ found.flatMap IndexSequence.cells, r.Known c := by
  induction h generalizing run with
  | nil =>
    refine follows_ok fun _ => ⟨flush_rename r.rename run [], ?_⟩
    rw [Range.cells_of_flush, List.flatMap_nil, List.append_nil]
    exact known
  | cons like _ ih =>
    rename_i v v' vs vs' _
    have eq := like.eq
    subst eq
    rcases v with ⟨_ | _ | _ | _, cell⟩
    case integer =>
      simp only [Range.parts, Variable.rename]
      have more := ih (run ++ [cell])
        (List.forall_mem_append.2 ⟨known, List.forall_mem_singleton.2 like.known⟩)
      rwa [List.map_append] at more
    case sequence =>
      simp only [Range.parts, Variable.rename]
      refine (ih [] (List.forall_mem_nil _)).bind fun found found' same =>
        follows_ok fun agree => ?_
      obtain ⟨read, cells⟩ := alike.read_sequence agree like
      obtain ⟨rfl, more⟩ := same agree
      rw [read, Range.cells_of_flush, List.flatMap_cons]
      exact ⟨flush_rename r.rename run (_ :: found),
        List.forall_mem_append.2 ⟨known, List.forall_mem_append.2 ⟨cells, more⟩⟩⟩
    all_goals exact follows_error

/-- Corresponding variables side by side have corresponding values. -/
theorem lockstep_join {vs vs' : List Variable} (h : r.LikeAll vs vs') :
    r.Lockstep (Range.join vs) (Range.join vs') (Option.Rel r.Like) := by
  rcases h with _ | ⟨first, _ | ⟨second, more⟩⟩
  · exact lockstep_pure .none
  · exact lockstep_pure (.some first)
  · simp only [Range.join]
    refine lockstep_get fun _ _ alike => (lockstep_ofExcept
      (follows_parts alike (.cons first (.cons second more)) [] (List.forall_mem_nil _))).bind
        fun found found' same => ?_
    refine (lockstep_sequenceVariable fun agree => ?_).bind fun _ _ like =>
      lockstep_pure (.some like)
    obtain ⟨rfl, known⟩ := same agree
    rw [ofParts_rename, Range.cells_ofParts]
    exact ⟨rfl, known⟩

/-! ### Groups -/

theorem LikeAll.known {vs vs' : List Variable} (h : r.LikeAll vs vs') :
    ∀ v ∈ vs, r.Known v.cell := by
  induction h with
  | nil => nofun
  | cons like _ ih => exact List.forall_mem_cons.2 ⟨like.known, ih⟩

theorem LikeAll.eq {vs vs' : List Variable} (h : r.LikeAll vs vs') :
    vs' = vs.map (Variable.rename r.rename) := by
  induction h with
  | nil => rfl
  | cons like _ ih => rw [like.eq, ih, List.map_cons]

section Groups

variable {block : Group.Resolver}
  (h : ∀ {items items'}, r.LikeItems items items' →
    r.Lockstep (block items) (block items') r.LikeAll)
include h

theorem lockstep_single {items items' : List Item} (like : r.LikeItems items items') :
    r.Lockstep (Group.single block items) (Group.single block items') (Option.Rel r.Like) :=
  (h like).bind fun _ _ => lockstep_join

theorem lockstep_argument (f : Builtin) {items items' : List Item}
    (like : r.LikeItems items items') :
    r.Lockstep (Group.argument block f items) (Group.argument block f items') r.Like :=
  (lockstep_require (by rw [like.isEmpty_eq])).bind fun _ _ _ =>
    (lockstep_single h like).bind fun _ _ => lockstep_ofOption

theorem lockstep_arguments (f : Builtin) {inside inside' : List Item}
    (like : r.LikeItems inside inside') :
    r.Lockstep (Group.arguments block f inside) (Group.arguments block f inside') r.LikeAll := by
  simp only [Group.arguments, like.isEmpty_eq]
  split
  · exact lockstep_pure .nil
  · exact lockstep_mapM (like_splitTop .comma like 0) fun _ _ => lockstep_argument h f

theorem lockstep_call (f : Builtin) {inside inside' : List Item}
    (like : r.LikeItems inside inside') :
    r.Lockstep (Group.call block f inside) (Group.call block f inside') r.Like := by
  refine (lockstep_arguments h f like).bind fun args _ values => lockstep_get fun d _ alike => ?_
  have known := LikeAll.known values
  rw [LikeAll.eq values]
  refine lockstep_emitRecipe (Recipe.ofCall_rename _ f args fun c mem => ?_) fun _ made =>
    known_of_usesBut (Recipe.usesBut_ofCall made) known
  exact alike.constant (known _ mem)

theorem lockstep_index {items items' : List Item} (like : r.LikeItems items items') :
    r.Lockstep (Group.index block items) (Group.index block items')
      fun i i' => i' = i.rename r.rename ∧ r.Known i.toVariable.cell := by
  refine (lockstep_single h like).bind fun _ _ o => (lockstep_ofOption o).bind fun v _ value => ?_
  have known := value.known
  rw [value.eq]
  refine lockstep_ofExcept ?_
  rcases v with ⟨_ | _ | _ | _, cell⟩
  case integer | sequence => exact follows_ok ⟨rfl, known⟩
  all_goals exact follows_error

variable (r) in
/-- An address of known variables under its other name. -/
structure LikeAddress (address address' : Address) : Prop where
  eq : address' = address.rename r.rename
  known : ∀ v ∈ address.variables, r.Known v.cell

theorem lockstep_address {inside inside' : List Item} (like : r.LikeItems inside inside') :
    r.Lockstep (Group.address block inside) (Group.address block inside') r.LikeAddress := by
  refine (lockstep_require (by rw [like.isEmpty_eq])).bind fun _ _ _ =>
    (lockstep_mapM (like_splitTop .comma like 0) fun _ _ => lockstep_index h).bind
      fun _ _ indices => lockstep_ofExcept ?_
  rcases indices with _ | ⟨⟨rfl, known⟩, _ | ⟨⟨rfl, known'⟩, _ | _⟩⟩
  case cons.nil => exact follows_ok ⟨rfl, List.forall_mem_singleton.2 known⟩
  case cons.cons.nil =>
    exact follows_ok ⟨rfl, List.forall_mem_cons.2 ⟨known, List.forall_mem_singleton.2 known'⟩⟩
  all_goals exact follows_error

/-! ### Literals -/

omit h in
theorem needsSize_eq {d d' : Draft} (alike : r.Alike d d') (agree : r.agree) {v v' : Variable}
    (like : r.Like v v') :
    Group.needsSize d'.store v' = Group.needsSize d.store v := by
  have eq := like.eq
  subst eq
  rcases v with ⟨_ | _ | _ | _, cell⟩
  case sequence =>
    simp only [Variable.rename, Group.needsSize, (alike.read_sequence agree like).1,
      IndexSequence.needsSize_rename]
  all_goals rfl

omit h in
/-- If sequences agree, then the same ranges are open. -/
theorem follows_checkClosed {d d' : Draft} (alike : r.Alike d d') {blocks blocks' : List Variable}
    (like : r.LikeAll blocks blocks') :
    r.Follows (Group.checkClosed d.store blocks) (Group.checkClosed d'.store blocks')
      fun _ _ => True := by
  have same : r.agree → (blocks'.find? (Group.needsSize d'.store)).isNone =
      (blocks.find? (Group.needsSize d.store)).isNone := by
    intro agree
    induction like with
    | nil => rfl
    | cons one _ ih =>
      rw [List.find?_cons, List.find?_cons, needsSize_eq alike agree one]
      split
      · rfl
      · exact ih
  unfold Group.checkClosed
  revert same
  generalize blocks.find? (Group.needsSize d.store) = found
  generalize blocks'.find? (Group.needsSize d'.store) = found'
  intro same
  refine ⟨fun _ checked => ⟨fun agree => ?_, fun _ _ => trivial⟩, fun exact _ refused => ?_⟩
  · have same := same agree
    cases found <;> cases found' <;> simp_all
  · have same := same exact.1
    cases found <;> cases found' <;> simp_all

omit h in
theorem staticShape_eq {d d' : Draft} (alike : r.Alike d d') (agree : r.agree) {v v' : Variable}
    (like : r.Like v v') : Literal.staticShape d'.store d'.constant v' =
      Literal.staticShape d.store d.constant v := by
  have eq := like.eq
  subst eq
  rcases v with ⟨_ | _ | _ | _, cell⟩
  case sequence =>
    obtain ⟨read, known⟩ := alike.read_sequence agree like
    simp only [Variable.rename, Literal.staticShape, read,
      IndexSequence.staticLength_rename _ fun c mem => alike.constant (known c mem)]
  all_goals rfl

omit h in
/-- If sequences agree, then the shapes known before the run are the same. -/
theorem checkStatic_eq {d d' : Draft} (alike : r.Alike d d') (agree : r.agree)
    {rows rows' : Literal} (like : List.Forall₂ r.LikeAll rows rows') (i : Nat)
    (width : Option Nat) : Literal.checkStaticFrom d'.store d'.constant i width rows' =
      Literal.checkStaticFrom d.store d.constant i width rows := by
  have shapes : ∀ {row row'}, r.LikeAll row row' →
      row'.map (Literal.staticShape d'.store d'.constant) =
        row.map (Literal.staticShape d.store d.constant) := by
    intro row row' like
    induction like with
    | nil => rfl
    | cons one _ ih => rw [List.map_cons, List.map_cons, staticShape_eq alike agree one, ih]
  induction like generalizing i width with
  | nil => rfl
  | cons row _ ih => simp only [Literal.checkStaticFrom, shapes row, ih]

omit h in
theorem follows_checkStatic {d d' : Draft} (alike : r.Alike d d') {rows rows' : Literal}
    (like : List.Forall₂ r.LikeAll rows rows') :
    r.Follows (rows.checkStatic d.store d.constant) (rows'.checkStatic d'.store d'.constant)
      fun _ _ => True := by
  have same : r.agree → rows'.checkStatic d'.store d'.constant =
      rows.checkStatic d.store d.constant := fun agree => checkStatic_eq alike agree like 0 none
  refine ⟨fun _ checked => ⟨fun agree => ?_, fun _ _ => trivial⟩, fun exact _ refused => ?_⟩
  · exact ⟨_, (same agree).trans checked⟩
  · exact ⟨_, (same exact.1).trans refused⟩

theorem lockstep_element {items items' : List Item} (like : r.LikeItems items items') :
    r.Lockstep (Group.element block items) (Group.element block items') r.LikeAll :=
  (lockstep_require (by rw [like.isEmpty_eq])).bind fun _ _ _ => h like

theorem lockstep_literalRow {items items' : List Item} (like : r.LikeItems items items') :
    r.Lockstep (Group.literalRow block items) (Group.literalRow block items') r.LikeAll :=
  (lockstep_require (by rw [like.isEmpty_eq])).bind fun _ _ _ =>
    (lockstep_mapM (like_splitTop .comma like 0) fun _ _ => lockstep_element h).bind
      fun _ _ elements => lockstep_get fun _ _ alike =>
        (lockstep_ofExcept (follows_checkClosed alike (List.rel_flatten elements))).bind
          fun _ _ _ => lockstep_pure (List.rel_flatten elements)

theorem lockstep_literalRows {inside inside' : List Item} (like : r.LikeItems inside inside') :
    r.Lockstep (Group.literalRows block inside) (Group.literalRows block inside')
      (List.Forall₂ r.LikeAll) := by
  simp only [Group.literalRows, like.isEmpty_eq]
  split
  · exact lockstep_pure .nil
  · exact lockstep_mapM (like_splitTop .semicolon like 0) fun _ _ => lockstep_literalRow h

theorem lockstep_literal {inside inside' : List Item} (like : r.LikeItems inside inside') :
    r.Lockstep (Group.literal block inside) (Group.literal block inside') r.Like := by
  refine (lockstep_literalRows h like).bind fun rows rows' values => ?_
  have names : rows' = rows.map fun row => row.map (Variable.rename r.rename) := by
    induction values with
    | nil => rfl
    | cons row _ ih => rw [LikeAll.eq row, ih, List.map_cons]
  have known : ∀ v ∈ rows.flatten, r.Known v.cell := LikeAll.known (List.rel_flatten values)
  refine (lockstep_place (x := .ok ⟨"matrixConstructor", .literal rows⟩) ?_ ?_).bind
    fun _ _ op => lockstep_get fun d d' alike => ?_
  · rw [names]
    rfl
  · rintro _ made
    cases made
    exact known
  · exact (lockstep_ofExcept (follows_checkStatic alike values)).bind fun _ _ _ => lockstep_emit op

/-! ### Lists with groups -/

/-- A group that only groups. -/
theorem lockstep_grouped {done done' inside inside' : List Item}
    (before : r.LikeItems done done') (like : r.LikeItems inside inside') :
    r.Lockstep
      (Group.single block inside >>= fun
        | some v => pure (.value v :: done)
        | none => pure done)
      (Group.single block inside' >>= fun
        | some v => pure (.value v :: done')
        | none => pure done') r.LikeItems := by
  refine (lockstep_single h like).bind fun o o' answer => ?_
  cases answer with
  | some value => exact lockstep_pure (.cons (.value value) before)
  | none => exact lockstep_pure before

theorem lockstep_resolve (opening : Symbol) {done done' inside inside' : List Item}
    (before : r.LikeItems done done') (like : r.LikeItems inside inside') :
    r.Lockstep (Group.resolve block opening done inside) (Group.resolve block opening done' inside')
      r.LikeItems := by
  by_cases bracket : opening = .bracketLeft
  · subst bracket
    exact (lockstep_literal h like).bind fun _ _ value =>
      lockstep_pure (.cons (.value value) before)
  -- what stands before the group decides what it is
  rcases before with _ | ⟨⟨s⟩ | ⟨f⟩ | ⟨value⟩, before⟩
  · simp only [Group.resolve]
    exact lockstep_grouped h .nil like
  · simp only [Group.resolve]
    exact lockstep_grouped h (.cons (.symbol s) before) like
  · simp only [Group.resolve]
    exact (lockstep_call h f like).bind fun _ _ value => lockstep_pure (.cons (.value value) before)
  · rename_i v _
    have eq := value.eq
    subst eq
    rcases v with ⟨_ | _ | _ | _, m⟩
    case matrix =>
      simp only [Group.resolve, Variable.rename]
      refine (lockstep_address h like).bind fun address _ places => ?_
      rw [places.eq]
      refine (lockstep_emitRecipe ?_ ?_).bind fun _ _ value =>
        lockstep_pure (.cons (.value value) before)
      · rw [Recipe.ofAddress_rename]
        rfl
      · rintro _ made
        cases made
        exact known_of_uses (Recipe.uses_ofAddress m address)
          (List.forall_mem_cons.2 ⟨value.known, places.known⟩)
    all_goals
      simp only [Group.resolve, Variable.rename]
      exact lockstep_grouped h (.cons (.value value) before) like

theorem lockstep_resolveAll {done done' items items' : List Item}
    (before : r.LikeItems done done') (like : r.LikeItems items items') :
    r.Lockstep (Group.resolveAll block done items) (Group.resolveAll block done' items')
      r.LikeItems := by
  have opens : ∀ {item : Item} {s : Symbol}, bracketRole item = .opening → symbol? item = some s →
      s.role = .opening := by
    intro item s role symbol
    rwa [bracketRole, symbol] at role
  fun_induction Group.resolveAll block done items generalizing done' items' with
  | case1 done =>
    cases like
    rw [Group.resolveAll]
    exact lockstep_pure (List.rel_reverse before)
  | case2 done item items opening role symbol cut =>
    rcases like with _ | @⟨_, _, _, items', one, more⟩
    have groups := rel_untilClose more 0
    rw [cut] at groups
    rw [Group.resolveAll_opening (one.symbol_eq.trans symbol) (opens role symbol)]
    generalize untilClose 0 items' = cut' at groups ⊢
    cases groups
    exact lockstep_fail
  | case3 done item items opening role symbol inside close rest cut ih =>
    rcases like with _ | @⟨_, _, _, items', one, more⟩
    -- the second list has a group in the same place
    have groups := rel_untilClose more 0
    rw [cut] at groups
    rw [Group.resolveAll_opening (one.symbol_eq.trans symbol) (opens role symbol)]
    generalize untilClose 0 items' = cut' at groups ⊢
    obtain ⟨inner, outer⟩ | _ := groups
    exact (lockstep_resolve h opening before inner).bind fun _ _ done => ih _ done outer
  | case4 done item items closing role symbol =>
    rcases like with _ | ⟨one, more⟩
    rw [Group.resolveAll_unmatched (one.symbol_eq.trans symbol) (one.bracketRole_eq.trans role)]
    exact lockstep_fail
  | case5 done item items noOpening noClosing ih =>
    rcases like with _ | ⟨one, more⟩
    have neutral := Group.neutral_of_no_bracket noOpening noClosing
    rw [Group.resolveAll_neutral (one.bracketRole_eq.trans neutral)]
    exact ih (.cons one before) more

end Groups

theorem lockstep_checkRest {items items' : List Item} (like : r.LikeItems items items') :
    r.Lockstep (Group.checkRest items) (Group.checkRest items') fun _ _ => True := by
  induction like with
  | nil => exact lockstep_pure trivial
  | cons one _ ih =>
    cases one with
    | function => exact lockstep_fail
    | value => exact ih
    | symbol s =>
      simp only [Group.checkRest]
      split
      · exact lockstep_fail
      · exact ih

/-- **Resolving corresponding lists gives corresponding variables.** -/
theorem lockstep_block (allowance : Nat) {items items' : List Item}
    (like : r.LikeItems items items') :
    r.Lockstep (Group.block allowance items) (Group.block allowance items') r.LikeAll := by
  induction allowance generalizing items items' with
  | zero => exact lockstep_fail
  | succ allowance ih =>
    exact (lockstep_resolveAll ih .nil like).bind fun _ _ rest =>
      (lockstep_checkRest rest).bind fun _ _ _ => (lockstep_all rest).bind fun _ _ =>
        lockstep_handles

end Recompilation

end MatrixCalc
