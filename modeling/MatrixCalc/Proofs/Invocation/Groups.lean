import MatrixCalc.Proofs.Compilation
import MatrixCalc.Proofs.Invocation.Nesting
import MatrixCalc.Proofs.Invocation.Operators

/-!
# Groups side by side

Two lists with brackets are resolved alike if they are like each other item by item, except that a
group of the first may stand for a variable in brackets of the second.  Such a group is resolved on
its own, so all that matters is that its value means what the variable means: it may be a call, an
address or a mere group.

* `Comparison.Means` : what stands in a group has, wherever it is resolved, the meaning of a
  variable.
* `Comparison.LikeItems` : like lists, with groups that stand for variables.
* `Comparison.lockstep_block` : **like lists stand for like variables.**
-/

namespace MatrixCalc

open MatrixCalc.Group

/-! ### Lists that are one piece -/

/-- The items in round brackets. -/
def Item.parenthesize (items : List Item) : List Item :=
  .symbol .parenLeft :: items ++ [.symbol .parenRight]

/-- The items can stand in brackets as one value: their groups are complete, and no comma stands
outside of them. -/
structure Item.Plain (items : List Item) : Prop where
  nonempty : items ≠ []
  balanced : Balanced items
  whole : splitTop .comma 0 items = [items]

theorem Item.plain_value (v : Variable) : Plain [.value v] where
  nonempty := nofun
  balanced := rfl
  whole := rfl

theorem Item.Plain.sealed {items : List Item} (h : Plain items) : Sealed (parenthesize items) :=
  sealed_group rfl rfl h.balanced

/-- A single variable is its own value. -/
theorem Group.single_value {n : Nat} {v : Variable} {d d' : Draft} {o : Option Variable}
    (run : single (block n) [.value v] d = .ok o d') : o = some v ∧ d' = d := by
  cases n with
  | zero =>
    obtain ⟨_, _, failed, -⟩ := bind_eq_ok_iff.1 run
    exact absurd failed Build.fail_ne_ok
  | succ n =>
    have walked : resolveAll (block n) [] [.value v] = pure [.value v] := by
      rw [resolveAll]
      show resolveAll (block n) [.value v] [] = _
      rw [resolveAll]
      rfl
    have value : single (block (n + 1)) [.value v] d = .ok (some v) d := by
      simp only [single, block, walked]
      rfl
    rw [value] at run
    cases run
    exact ⟨rfl, rfl⟩

namespace Comparison

open Build

variable {r : Comparison} {p : Stage}

/-! ### Groups that stand for variables -/

variable (r) in
/-- What the items stand for means what the variable means, wherever they are resolved. -/
def Means (p : Stage) (inside : List Item) (v' : Variable) : Prop :=
  ∀ ⦃n : Nat⦄ ⦃d o d'⦄, p.first.Grows d → single (block n) inside d = .ok o d' →
    d.Resolves d' ∧ ∃ v, o = some v ∧ ∀ e, p.second.Grows e → r.Alike ⟨d', e⟩ v v'

theorem Means.mono {q : Stage} {inside : List Item} {v' : Variable} (h : r.Means p inside v')
    (grows : p.Grows q) : r.Means q inside v' := by
  intro n d o d' later run
  obtain ⟨resolves, v, found, alike⟩ := h (grows.first.trans later) run
  exact ⟨resolves, v, found, fun e further => alike e (grows.second.trans further)⟩

variable (r) in
/-- Like items, place by place, except that groups may stand for variables in brackets. -/
inductive LikeItems (p : Stage) : List Item → List Item → Prop
  | nil : LikeItems p [] []
  | cons {item item' : Item} {items items' : List Item} (one : r.LikeItem p item item')
      (more : LikeItems p items items') : LikeItems p (item :: items) (item' :: items')
  | group {inside items items' : List Item} {v' : Variable} (plain : Item.Plain inside)
      (means : r.Means p inside v') (more : LikeItems p items items') :
      LikeItems p (Item.parenthesize inside ++ items) (Item.parenthesize [.value v'] ++ items')

variable (r) in
/-- What stands in corresponding brackets: like items, or items that stand for a variable. -/
inductive LikeInside (p : Stage) : List Item → List Item → Prop
  | items {inside inside' : List Item} (like : r.LikeItems p inside inside') :
      LikeInside p inside inside'
  | value {inside : List Item} {v' : Variable} (plain : Item.Plain inside)
      (means : r.Means p inside v') : LikeInside p inside [.value v']

theorem lasting_likeItems : Lasting r.LikeItems := by
  intro p q grows items items' like
  induction like with
  | nil => exact .nil
  | cons one _ ih => exact .cons (lasting_likeItem grows one) ih
  | group plain means _ ih => exact .group plain (means.mono grows) ih

theorem lasting_likeInside : Lasting r.LikeInside := by
  intro p q grows inside inside' like
  cases like with
  | items like => exact .items (lasting_likeItems grows like)
  | value plain means => exact .value plain (means.mono grows)

section Lists

variable {items items' : List Item}

theorem LikeItems.isEmpty_eq (h : r.LikeItems p items items') : items'.isEmpty = items.isEmpty := by
  cases h <;> rfl

theorem LikeInside.isEmpty_eq (h : r.LikeInside p items items') :
    items'.isEmpty = items.isEmpty := by
  cases h with
  | items like => exact like.isEmpty_eq
  | value plain => exact (List.isEmpty_eq_false_iff.2 plain.nonempty).symm

theorem LikeItems.nesting_eq (h : r.LikeItems p items items') (depth : Nat) :
    nesting depth items' = nesting depth items := by
  induction h generalizing depth with
  | nil => rfl
  | cons one _ ih => simp only [nesting, one.bracketRole_eq, ih]
  | group plain _ _ ih => rw [plain.sealed.nesting, (Item.plain_value _).sealed.nesting, ih]

/-- Like lists are split into like pieces. -/
theorem like_splitTop (separator : Symbol) (h : r.LikeItems p items items') (depth : Nat) :
    List.Forall₂ (r.LikeItems p) (splitTop separator depth items)
      (splitTop separator depth items') := by
  have further : ∀ {depth'} (xs xs' : List Item) {items items' : List Item},
      (∀ {ys ys'}, r.LikeItems p ys ys' → r.LikeItems p (xs ++ ys) (xs' ++ ys')) →
      List.Forall₂ (r.LikeItems p) (splitTop separator depth' items)
        (splitTop separator depth' items') →
      List.Forall₂ (r.LikeItems p) (xs.foldr consToFirst (splitTop separator depth' items))
        (xs'.foldr consToFirst (splitTop separator depth' items')) := by
    intro depth' xs xs' items items' front pieces
    obtain ⟨first, more, split⟩ := exists_splitTop separator depth' items
    obtain ⟨first', more', split'⟩ := exists_splitTop separator depth' items'
    rw [split, split'] at pieces ⊢
    obtain _ | ⟨one, others⟩ := pieces
    rw [foldr_consToFirst, foldr_consToFirst]
    exact .cons (front one) others
  induction h generalizing depth with
  | nil => exact .cons .nil .nil
  | cons one _ ih =>
    have step := fun depth' => further [_] [_] (fun ys => .cons one ys) (ih depth')
    simp only [splitTop, one.bracketRole_eq, one.isSymbol_eq]
    split
    · exact step _
    · exact step _
    · split
      · exact .cons .nil (ih _)
      · exact step _
  | group plain means _ ih =>
    rw [plain.sealed.splitTop, (Item.plain_value _).sealed.splitTop]
    exact further _ _ (fun ys => .group plain means ys) (ih depth)

/-- Like groups are cut out of like lists. -/
theorem rel_untilClose (h : r.LikeItems p items items') (depth : Nat) :
    Option.Rel (fun cut cut' => r.LikeItems p cut.1 cut'.1 ∧ r.LikeItems p cut.2.2 cut'.2.2)
      (untilClose depth items) (untilClose depth items') := by
  have further : ∀ {depth'} (xs xs' : List Item) {items items' : List Item},
      (∀ {ys ys'}, r.LikeItems p ys ys' → r.LikeItems p (xs ++ ys) (xs' ++ ys')) →
      Option.Rel (fun cut cut' => r.LikeItems p cut.1 cut'.1 ∧ r.LikeItems p cut.2.2 cut'.2.2)
        (untilClose depth' items) (untilClose depth' items') →
      Option.Rel (fun cut cut' => r.LikeItems p cut.1 cut'.1 ∧ r.LikeItems p cut.2.2 cut'.2.2)
        ((untilClose depth' items).map fun cut => (xs ++ cut.1, cut.2))
        ((untilClose depth' items').map fun cut => (xs' ++ cut.1, cut.2)) := by
    intro depth' xs xs' items items' front cuts
    cases cut : untilClose depth' items <;> cases cut' : untilClose depth' items' <;>
      rw [cut, cut'] at cuts <;> cases cuts
    · exact .none
    · rename_i both
      exact .some ⟨front both.1, both.2⟩
  induction h generalizing depth with
  | nil => exact .none
  | cons one more ih =>
    have step := fun depth' => further [_] [_] (fun ys => .cons one ys) (ih depth')
    simp only [untilClose, one.bracketRole_eq]
    split
    · exact .some ⟨.nil, more⟩
    all_goals exact step _
  | group plain means _ ih =>
    rw [plain.sealed.untilClose, (Item.plain_value _).sealed.untilClose]
    exact further _ _ (fun ys => .group plain means ys) (ih depth)

/-- The pieces of corresponding groups correspond. -/
theorem LikeInside.splitTop (h : r.LikeInside p items items') :
    List.Forall₂ (r.LikeInside p) (splitTop .comma 0 items) (splitTop .comma 0 items') := by
  cases h with
  | items like => exact (like_splitTop .comma like 0).imp fun _ _ => .items
  | value plain means =>
    rw [plain.whole, (Item.plain_value _).whole]
    exact .cons (.value plain means) .nil

end Lists

/-! ### Calls and addresses -/

/-- The axis of a reduction is a literal, and literals at corresponding places are the same. -/
theorem agreed_along (name : String) (how : Reduction) {a a' axis axis' : Variable}
    (ha : r.Alike p a a') (hb : r.Alike p axis axis') :
    Agreed (Recipe.along p.first.constant name how a axis)
      (Recipe.along p.second.constant name how a' axis') (r.LikeRecipe p) := by
  obtain ⟨⟨_ | _ | _ | _, m⟩, -, -, agrees⟩ := ha
  case matrix =>
    obtain ⟨⟨_ | _ | _ | _, c⟩, -, -, agrees'⟩ := hb
    case integer =>
      -- the reduction of the first statement for the axis of either statement
      have like : ∀ rows rows' (name name' : String),
          p.first.constant (Renaming.first .integer c) = some (if rows then 0 else 1) →
          p.second.constant (Renaming.second .integer c) = some (if rows' then 0 else 1) →
          r.LikeRecipe p ⟨name, .reduceAlong how rows (Renaming.first .matrix m)⟩
            ⟨name', .reduceAlong how rows' (Renaming.second .matrix m)⟩ := by
        intro rows rows' name name' known known'
        refine .intro name name' _ _ fun passes => ?_
        have axis : (if rows' then 0 else 1 : Int64) = if rows then 0 else 1 := by
          rw [← passes.first.constant known, ← passes.second.constant known']
          exact agrees' passes
        have same : rows' = rows := by
          revert axis
          cases rows <;> cases rows' <;> decide
        rw [same]
        exact Term.meaning_eval_pair (.reduceAlong how rows m) fun w operand => by
          obtain rfl := List.mem_singleton.1 operand
          exact agrees passes
      simp only [Recipe.along, Variable.rename]
      intro recipe recipe' made made'
      split at made <;> rename_i known <;> cases made <;>
        split at made' <;> rename_i known' <;> cases made'
      · exact like true true _ _ known known'
      · exact like true false _ _ known known'
      · exact like false true _ _ known known'
      · exact like false false _ _ known known'
    all_goals exact agreed_error
  all_goals exact agreed_error

theorem agreed_ofFunction2 (f : Builtin) {a a' b b' : Variable} (ha : r.Alike p a a')
    (hb : r.Alike p b b') : Agreed (Recipe.ofFunction2 p.first.constant f a b)
      (Recipe.ofFunction2 p.second.constant f a' b') (r.LikeRecipe p) := by
  by_cases reduction : f = .max ∨ f = .min ∨ f = .sum
  · rcases reduction with rfl | rfl | rfl <;> exact agreed_along _ _ ha hb
  · -- other functions do not look at literals
    have free : ∀ (constant : Cell .integer → Option Int64) (a b : Variable),
        Recipe.ofFunction2 constant f a b = Recipe.ofFunction2 (fun _ => none) f a b := by
      intro constant a b
      cases f
      case max | min | sum => exact absurd (by decide) reduction
      case normP | zeros | ones | kron | dot =>
        rcases a with ⟨_ | _ | _ | _, x⟩ <;> rcases b with ⟨_ | _ | _ | _, y⟩ <;> rfl
      all_goals rfl
    obtain ⟨w, -, -, agrees⟩ := ha
    obtain ⟨x, -, -, agrees'⟩ := hb
    rw [free p.first.constant, free p.second.constant,
      @Recipe.ofFunction2_rename .first (fun _ => none) (fun _ => none) f w x fun _ _ => rfl,
      @Recipe.ofFunction2_rename .second (fun _ => none) (fun _ => none) f w x fun _ _ => rfl]
    have reads : ∀ recipe, Recipe.ofFunction2 (fun _ => none) f w x = .ok recipe →
        ∀ u ∈ recipe.term.operands, u ∈ [w, x] := by
      intro recipe made u operand
      obtain ⟨-, axis, -, operands⟩ := Recipe.usesBut_ofFunction2 made
      exact operands.mem_iff.2 (List.mem_append_left _ operand)
    refine agreed_pair reads fun passes u mem => ?_
    rcases List.mem_pair.1 mem with rfl | rfl
    · exact agrees passes
    · exact agrees' passes

theorem agreed_ofFunction1 (f : Builtin) {a a' : Variable} (ha : r.Alike p a a') :
    Agreed (Recipe.ofFunction1 f a) (Recipe.ofFunction1 f a') (r.LikeRecipe p) := by
  obtain ⟨w, -, -, agrees⟩ := ha
  rw [Recipe.ofFunction1_rename, Recipe.ofFunction1_rename]
  refine agreed_pair (fun recipe made u operand =>
    (Recipe.uses_ofFunction1 made).2.mem_iff.2 operand) fun passes u mem => ?_
  obtain rfl := List.mem_singleton.1 mem
  exact agrees passes

theorem agreed_ofCall (f : Builtin) {args args' : List Variable} (h : r.AllAlike p args args') :
    Agreed (Recipe.ofCall p.first.constant f args) (Recipe.ofCall p.second.constant f args')
      (r.LikeRecipe p) := by
  unfold Recipe.ofCall
  rw [h.length_eq]
  split
  · exact agreed_error
  · match h with
    | .nil => exact agreed_error
    | .cons a .nil => exact agreed_ofFunction1 f a
    | .cons a (.cons b .nil) => exact agreed_ofFunction2 f a b
    | .cons _ (.cons _ (.cons _ _)) => exact agreed_error

variable (r) in
/-- Two indices, written as a pair, that mean the same in the end. -/
inductive LikeIndex (p : Stage) : Index → Index → Prop
  | intro (w : Index)
      (agrees : r.Passes p → r.first.store.Agrees r.second.store w.toVariable) :
      LikeIndex p (w.rename .first) (w.rename .second)

variable (r) in
/-- Two addresses, written as a pair, that mean the same in the end. -/
inductive LikeAddress (p : Stage) : Address → Address → Prop
  | intro (w : Address)
      (agrees : r.Passes p → ∀ v ∈ w.variables, r.first.store.Agrees r.second.store v) :
      LikeAddress p (w.rename .first) (w.rename .second)

theorem lasting_likeIndex : Lasting r.LikeIndex := by
  rintro p q grows _ _ ⟨w, agrees⟩
  exact .intro w fun passes => agrees (passes.of_grows grows)

theorem agreed_ofVariable {v v' : Variable} (h : r.Alike p v v') :
    Agreed (Index.ofVariable v) (Index.ofVariable v') (r.LikeIndex p) := by
  obtain ⟨⟨_ | _ | _ | _, c⟩, -, -, agrees⟩ := h
  case integer => exact agreed_ok (.intro (.single c) agrees)
  case sequence => exact agreed_ok (.intro (.sequence c) agrees)
  all_goals exact agreed_error

theorem agreed_ofIndices {is is' : List Index} (h : List.Forall₂ (r.LikeIndex p) is is') :
    Agreed (Address.ofIndices is) (Address.ofIndices is') (r.LikeAddress p) := by
  match h with
  | .nil => exact agreed_error
  | .cons one .nil =>
    obtain ⟨w, agrees⟩ := one
    refine agreed_ok (.intro (.flat w) fun passes v mem => ?_)
    obtain rfl := List.mem_singleton.1 mem
    exact agrees passes
  | .cons one (.cons two .nil) =>
    obtain ⟨w, agrees⟩ := one
    obtain ⟨x, agrees'⟩ := two
    refine agreed_ok (.intro (.grid w x) fun passes v mem => ?_)
    rcases List.mem_pair.1 mem with rfl | rfl
    · exact agrees passes
    · exact agrees' passes
  | .cons _ (.cons _ (.cons _ _)) => exact agreed_error

section Groups

variable {n n' : Nat}
  (h : ∀ {q items items'}, r.LikeItems q items items' →
    Lockstep q (block n items) (block n' items') r.AllAlike)
include h

theorem lockstep_single {inside inside' : List Item} (like : r.LikeInside p inside inside') :
    Lockstep p (single (block n) inside) (single (block n') inside')
      fun q => Option.Rel (r.Alike q) := by
  cases like with
  | items like => exact (h like).bind fun _ _ _ _ => lockstep_join
  | value plain means =>
    -- the first group is resolved on its own, the second is a variable already
    rintro o o' ⟨d, d'⟩ run run'
    obtain ⟨rfl, rfl⟩ := single_value run'
    obtain ⟨resolves, v, rfl, alike⟩ := means .refl run
    exact ⟨⟨resolves, .refl _⟩, .some (alike _ .refl)⟩

theorem lockstep_argument (f : Builtin) {inside inside' : List Item}
    (like : r.LikeInside p inside inside') :
    Lockstep p (argument (block n) f inside) (argument (block n') f inside') r.Alike :=
  lockstep_require.bind fun _ leads _ _ _ =>
    (lockstep_single h (lasting_likeInside leads.grows like)).bind fun _ _ _ _ => lockstep_ofOption

theorem lockstep_arguments (f : Builtin) {inside inside' : List Item}
    (like : r.LikeInside p inside inside') :
    Lockstep p (arguments (block n) f inside) (arguments (block n') f inside') r.AllAlike := by
  simp only [arguments, like.isEmpty_eq]
  split
  · exact lockstep_pure .nil
  · exact lockstep_mapM lasting_likeInside lasting_alike like.splitTop fun _ _ _ =>
      lockstep_argument h f

theorem lockstep_call (f : Builtin) {inside inside' : List Item}
    (like : r.LikeInside p inside inside') :
    Lockstep p (call (block n) f inside) (call (block n') f inside') r.Alike :=
  (lockstep_arguments h f like).bind fun _ _ _ _ args =>
    lockstep_get (lockstep_emitRecipe (agreed_ofCall f args))

theorem lockstep_index {inside inside' : List Item} (like : r.LikeInside p inside inside') :
    Lockstep p (index (block n) inside) (index (block n') inside') r.LikeIndex :=
  (lockstep_single h like).bind fun _ _ _ _ value =>
    (Lockstep.bind (R := r.Alike) (lockstep_ofOption value)) fun _ _ _ _ alike =>
      lockstep_ofExcept (agreed_ofVariable alike)

theorem lockstep_address {inside inside' : List Item} (like : r.LikeInside p inside inside') :
    Lockstep p (address (block n) inside) (address (block n') inside') r.LikeAddress :=
  lockstep_require.bind fun _ leads _ _ _ =>
    (lockstep_mapM lasting_likeInside lasting_likeIndex
      (lasting_likeInside leads.grows like).splitTop fun _ _ _ => lockstep_index h).bind
        fun _ _ _ _ indices => lockstep_ofExcept (agreed_ofIndices indices)

/-! ### Literals -/

theorem lockstep_element {items items' : List Item} (like : r.LikeItems p items items') :
    Lockstep p (element (block n) items) (element (block n') items') r.AllAlike :=
  lockstep_require.bind fun _ leads _ _ _ => h (lasting_likeItems leads.grows like)

theorem lockstep_literalRow {items items' : List Item} (like : r.LikeItems p items items') :
    Lockstep p (literalRow (block n) items) (literalRow (block n') items') r.AllAlike := by
  refine lockstep_require.bind fun q leads _ _ _ => ?_
  refine (lockstep_mapM lasting_likeItems lasting_alike.forall₂
    (like_splitTop .comma (lasting_likeItems leads.grows like) 0) fun _ _ _ =>
      lockstep_element h).bind fun q' _ elements elements' blocks => ?_
  refine lockstep_get ?_
  refine Lockstep.bind (R := fun _ _ _ => True)
    (lockstep_ofExcept fun _ _ _ _ => trivial) fun q'' leads' _ _ _ => ?_
  exact lockstep_pure (lasting_alike.forall₂ leads'.grows (List.rel_flatten blocks))

theorem lockstep_literalRows {inside inside' : List Item} (like : r.LikeItems p inside inside') :
    Lockstep p (literalRows (block n) inside) (literalRows (block n') inside')
      fun q => List.Forall₂ (r.AllAlike q) := by
  simp only [literalRows, like.isEmpty_eq]
  split
  · exact lockstep_pure .nil
  · exact lockstep_mapM lasting_likeItems lasting_alike.forall₂ (like_splitTop .semicolon like 0)
      fun _ _ _ => lockstep_literalRow h

end Groups

/-- The rows of a literal as rows of pairs. -/
theorem pairs_of_rows {rows rows' : Literal} (h : List.Forall₂ (r.AllAlike p) rows rows') :
    ∃ ws : Literal, rows = ws.map (fun row => row.map (Variable.rename .first)) ∧
      rows' = ws.map (fun row => row.map (Variable.rename .second)) ∧
      (r.Passes p → ∀ w ∈ ws.flatten, r.first.store.Agrees r.second.store w) := by
  induction h with
  | nil => exact ⟨[], rfl, rfl, by simp⟩
  | cons row _ ih =>
    obtain ⟨w, rfl, rfl, agrees⟩ := row.pairs
    obtain ⟨ws, rfl, rfl, all⟩ := ih
    refine ⟨w :: ws, rfl, rfl, fun passes u mem => ?_⟩
    rw [List.flatten_cons] at mem
    rcases List.mem_append.1 mem with mem | mem
    · exact agrees passes u mem
    · exact all passes u mem

/-- A literal that is built has passed its checks; then it is an operation like any other. -/
theorem emitRecipe_of_literal {block : Resolver} {inside : List Item} {d d' : Draft} {v : Variable}
    (run : literal block inside d = .ok v d') :
    (literalRows block inside >>= fun rows =>
      emitRecipe (.ok ⟨"matrixConstructor", .literal rows⟩)) d = .ok v d' := by
  simp only [literal, bind_eq_ok_iff, get_eq_ok_iff, ofExcept_eq_ok_iff] at run
  obtain ⟨rows, d₁, resolved, op, _, placed, _, _, ⟨rfl, rfl⟩, _, _, ⟨-, rfl⟩, emitted⟩ := run
  exact bind_eq_ok_iff.2 ⟨rows, d₁, resolved, bind_eq_ok_iff.2 ⟨op, _, placed, emitted⟩⟩

theorem lockstep_literal {n n' : Nat}
    (h : ∀ {q items items'}, r.LikeItems q items items' →
      Lockstep q (block n items) (block n' items') r.AllAlike)
    {inside inside' : List Item} (like : r.LikeItems p inside inside') :
    Lockstep p (literal (block n) inside) (literal (block n') inside') r.Alike := by
  refine Lockstep.of_runs ?_ (fun _ _ _ => emitRecipe_of_literal) fun _ _ _ => emitRecipe_of_literal
  refine (lockstep_literalRows h like).bind fun q _ rows rows' values => ?_
  obtain ⟨ws, rfl, rfl, agree⟩ := pairs_of_rows values
  have pair := agreed_pair (x := .ok ⟨"matrixConstructor", .literal ws⟩)
    (fun recipe made w operand => by
      cases made
      exact operand) agree
  exact lockstep_emitRecipe pair

/-! ### Lists with groups -/

section Lists

variable {n n' : Nat}
  (h : ∀ {q items items'}, r.LikeItems q items items' →
    Lockstep q (block n items) (block n' items') r.AllAlike)
include h

/-- Square brackets. -/
theorem lockstep_bracketLeft {done done' inside inside' : List Item}
    (before : r.FlatAlike p done done') (like : r.LikeItems p inside inside') :
    Lockstep p (resolve (block n) .bracketLeft done inside)
      (resolve (block n') .bracketLeft done' inside') r.FlatAlike := by
  simp only [resolve]
  exact (lockstep_literal h like).bind fun _ leads _ _ alike =>
    lockstep_pure (.cons (.value alike) (lasting_flatAlike leads.grows before))

/-- A group that only groups. -/
theorem lockstep_grouped {done done' inside inside' : List Item}
    (before : r.FlatAlike p done done') (like : r.LikeInside p inside inside') :
    Lockstep p
      (single (block n) inside >>= fun
        | some v => pure (.value v :: done)
        | none => pure done)
      (single (block n') inside' >>= fun
        | some v => pure (.value v :: done')
        | none => pure done') r.FlatAlike := by
  refine (lockstep_single h like).bind fun q leads o o' answer => ?_
  have before' := lasting_flatAlike leads.grows before
  cases answer with
  | some alike => exact lockstep_pure (.cons (.value alike) before')
  | none => exact lockstep_pure before'

/-- Round brackets. -/
theorem lockstep_parenLeft {done done' inside inside' : List Item}
    (before : r.FlatAlike p done done') (like : r.LikeInside p inside inside') :
    Lockstep p (resolve (block n) .parenLeft done inside)
      (resolve (block n') .parenLeft done' inside') r.FlatAlike := by
  -- what stands before the group decides what it is
  rcases before with _ | ⟨⟨s⟩ | ⟨f⟩ | ⟨alike⟩, before⟩
  · simp only [resolve]
    exact lockstep_grouped h .nil like
  · simp only [resolve]
    exact lockstep_grouped h (.cons (.symbol s) before) like
  · simp only [resolve]
    exact (lockstep_call h f like).bind fun q leads _ _ alike =>
      lockstep_pure (.cons (.value alike) (lasting_flatAlike leads.grows before))
  · obtain ⟨⟨_ | _ | _ | _, m⟩, has, has', agrees⟩ := alike
    case matrix =>
      simp only [resolve, Variable.rename]
      refine (lockstep_address h like).bind fun q leads address address' places => ?_
      obtain ⟨w, agrees'⟩ := places
      have pair := agreed_pair (r := r) (p := q) (x := .ok (Recipe.ofAddress m w))
        (fun recipe made u operand => by
          cases made
          exact (Recipe.uses_ofAddress m w).2.mem_iff.2 operand) fun passes u mem => by
        rcases List.mem_cons.1 mem with rfl | mem
        · exact agrees (passes.of_grows leads.grows)
        · exact agrees' passes u mem
      simp only [Except.map, ← Recipe.ofAddress_rename] at pair
      refine (lockstep_emitRecipe pair).bind fun q' leads' _ _ alike => ?_
      exact lockstep_pure (.cons (.value alike)
        (lasting_flatAlike (leads.trans leads').grows before))
    all_goals
      simp only [resolve, Variable.rename]
      exact lockstep_grouped h (.cons (.value (.intro _ has has' agrees)) before) like

theorem lockstep_resolve {opening : Symbol} (opens : opening.role = .opening)
    {done done' inside inside' : List Item} (before : r.FlatAlike p done done')
    (like : r.LikeItems p inside inside') :
    Lockstep p (resolve (block n) opening done inside) (resolve (block n') opening done' inside')
      r.FlatAlike := by
  rcases (Symbol.role_eq_opening_iff opening).1 opens with rfl | rfl
  · exact lockstep_parenLeft h before (.items like)
  · exact lockstep_bracketLeft h before like

theorem lockstep_resolveAll {done done' items items' : List Item}
    (before : r.FlatAlike p done done') (like : r.LikeItems p items items') :
    Lockstep p (resolveAll (block n) done items) (resolveAll (block n') done' items')
      r.FlatAlike := by
  induction length : items.length using Nat.strong_induction_on
    generalizing p done done' items items' with
  | _ k ih =>
    cases like with
    | nil =>
      rw [resolveAll, resolveAll]
      exact lockstep_pure (List.rel_reverse before)
    | @group inside items items' v' plain means more =>
      have cut : untilClose 0 ((inside ++ [Item.symbol .parenRight]) ++ items) =
          some (inside, .symbol .parenRight, items) := by
        rw [List.append_assoc, untilClose_append_of_nesting plain.balanced]
        simp [untilClose, bracketRole, symbol?, Symbol.role]
      have cut' : untilClose 0 ([Item.value v', .symbol .parenRight] ++ items') =
          some ([.value v'], .symbol .parenRight, items') := rfl
      show Lockstep p (resolveAll _ done (.symbol .parenLeft :: (inside ++ [_] ++ items)))
        (resolveAll _ done' (.symbol .parenLeft :: ([.value v', .symbol .parenRight] ++ items'))) _
      rw [resolveAll_opening rfl rfl, resolveAll_opening rfl rfl, cut, cut']
      refine (lockstep_parenLeft h before (.value plain means)).bind
        fun q leads done done' now => ?_
      refine ih _ ?_ now (lasting_likeItems leads.grows more) rfl
      simp [Item.parenthesize] at length
      omega
    | @cons item item' items items' one more =>
      cases role : bracketRole item with
      | neutral =>
        rw [resolveAll_neutral role, resolveAll_neutral (one.bracketRole_eq.trans role)]
        exact ih _ (by simp [← length]) (.cons one before) more rfl
      | closing =>
        have unmatched : ∃ cause, resolveAll (block n) done (item :: items) = Build.fail cause :=
          resolveAll_closing role
        obtain ⟨_, failed⟩ := unmatched
        rw [failed]
        exact lockstep_fail
      | opening =>
        obtain ⟨s, symbol⟩ := exists_symbol (t := item) (by rw [role]; decide)
        have opens : s.role = .opening := by simpa [bracketRole, symbol] using role
        have groups := rel_untilClose more 0
        rw [resolveAll_opening symbol opens, resolveAll_opening (one.symbol_eq.trans symbol) opens]
        cases cut : untilClose 0 items with
        | none => exact lockstep_fail
        | some found =>
          obtain ⟨inside, close, rest⟩ := found
          cases cut' : untilClose 0 items' with
          | none => exact lockstep_fail'
          | some found' =>
            obtain ⟨inside', close', rest'⟩ := found'
            rw [cut, cut'] at groups
            obtain ⟨inner, outer⟩ | _ := groups
            refine (lockstep_resolve h opens before inner).bind fun q leads done done' now => ?_
            have shorter := length_of_untilClose cut
            exact ih _ (by simp only [List.length_cons] at length; omega) now
              (lasting_likeItems leads.grows outer) rfl

end Lists

theorem lockstep_checkRest {items items' : List Item} (like : r.FlatAlike p items items') :
    Lockstep p (checkRest items) (checkRest items') fun _ _ _ => True := by
  induction like with
  | nil => exact lockstep_pure trivial
  | cons one _ ih =>
    cases one with
    | function => exact lockstep_fail
    | value => exact ih
    | symbol s =>
      simp only [checkRest]
      split
      · exact lockstep_fail
      · exact ih

/-- **Like lists stand for like variables**, however deep groups may nest in them. -/
theorem lockstep_block (n n' : Nat) {items items' : List Item} (like : r.LikeItems p items items') :
    Lockstep p (block n items) (block n' items') r.AllAlike := by
  induction n generalizing p n' items items' with
  | zero => exact lockstep_fail
  | succ n ih =>
    cases n' with
    | zero => exact lockstep_fail'
    | succ n' =>
      refine (lockstep_resolveAll (fun like => ih n' like) .nil like).bind fun q _ _ _ rest => ?_
      refine (lockstep_checkRest rest).bind fun q' leads _ _ _ => ?_
      exact (lockstep_all (lasting_flatAlike leads.grows rest)).bind fun _ _ _ _ => lockstep_handles

end Comparison

/-! ### What can be resolved is plain -/

section Plain

variable {n : Nat} {done items out : List Item} {d d' : Draft}

theorem Item.isSymbol_iff {separator : Symbol} {item : Item} :
    isSymbol separator item = true ↔ item = .symbol separator := by
  cases item <;> simp [isSymbol, symbol?]

/-- Symbols stay where they stand when a group behind them is resolved. -/
theorem symbol_mem_of_resolve {block : Resolver} {opening s : Symbol} {inside : List Item}
    (run : resolve block opening done inside d = .ok out d') (mem : .symbol s ∈ done) :
    .symbol s ∈ out := by
  unfold resolve at run
  split at run
  · obtain ⟨_, _, -, last⟩ := bind_eq_ok_iff.1 run
    obtain ⟨rfl, -⟩ := pure_eq_ok_iff.1 last
    exact List.mem_cons_of_mem _ mem
  · obtain ⟨_, _, -, last⟩ := bind_eq_ok_iff.1 run
    obtain ⟨rfl, -⟩ := pure_eq_ok_iff.1 last
    exact List.mem_cons_of_mem _ ((List.mem_cons.1 mem).resolve_left nofun)
  · obtain ⟨_, _, -, more⟩ := bind_eq_ok_iff.1 run
    obtain ⟨_, _, -, last⟩ := bind_eq_ok_iff.1 more
    obtain ⟨rfl, -⟩ := pure_eq_ok_iff.1 last
    exact List.mem_cons_of_mem _ ((List.mem_cons.1 mem).resolve_left nofun)
  · obtain ⟨o, _, -, last⟩ := bind_eq_ok_iff.1 run
    cases o with
    | none =>
      obtain ⟨rfl, -⟩ := pure_eq_ok_iff.1 last
      exact mem
    | some v =>
      obtain ⟨rfl, -⟩ := pure_eq_ok_iff.1 last
      exact List.mem_cons_of_mem _ mem

/-- Groups that are resolved are complete, and a separator outside of them is left over. -/
theorem balanced_of_resolveAll {block : Resolver} (separator : Symbol)
    (run : resolveAll block done items d = .ok out d') :
    Balanced items ∧ (∀ s, .symbol s ∈ done → .symbol s ∈ out) ∧
      (.symbol separator ∈ out ∨ splitTop separator 0 items = [items]) := by
  induction length : items.length using Nat.strong_induction_on generalizing done items d with
  | _ k ih =>
    cases items with
    | nil =>
      rw [resolveAll] at run
      obtain ⟨rfl, -⟩ := pure_eq_ok_iff.1 run
      exact ⟨rfl, fun s mem => List.mem_reverse.2 mem, .inr rfl⟩
    | cons item items =>
      cases role : bracketRole item with
      | closing =>
        have unmatched : ∃ cause, resolveAll block done (item :: items) = Build.fail cause :=
          resolveAll_closing role
        obtain ⟨_, failed⟩ := unmatched
        rw [failed] at run
        exact absurd run Build.fail_ne_ok
      | neutral =>
        rw [resolveAll_neutral role] at run
        obtain ⟨balanced, kept, split⟩ := ih items.length (by simp [← length]) run rfl
        refine ⟨by simpa only [Balanced, nesting, role] using balanced,
          fun s mem => kept s (List.mem_cons_of_mem _ mem), ?_⟩
        simp only [splitTop, role]
        by_cases separates : isSymbol separator item = true
        · exact .inl (kept separator (List.mem_cons.2 (.inl (Item.isSymbol_iff.1 separates).symm)))
        · refine split.imp_right fun whole => ?_
          simp [separates, whole, consToFirst]
      | opening =>
        obtain ⟨s, symbol⟩ := exists_symbol (t := item) (by rw [role]; decide)
        rw [resolveAll_opening symbol (by simpa [bracketRole, symbol] using role)] at run
        cases cut : untilClose 0 items with
        | none =>
          rw [cut] at run
          exact absurd run Build.fail_ne_ok
        | some found =>
          obtain ⟨inside, close, rest⟩ := found
          rw [cut] at run
          obtain ⟨now, d₁, resolved, run⟩ := bind_eq_ok_iff.1 run
          have shorter := length_of_untilClose cut
          obtain ⟨balanced, kept, split⟩ :=
            ih rest.length (by simp only [List.length_cons] at length; omega) run rfl
          obtain ⟨closed, closes⟩ := nesting_of_untilClose cut
          have piece := sealed_group role closes closed
          have all : item :: items = (item :: inside ++ [close]) ++ rest := by
            rw [← append_of_untilClose cut]
            simp
          rw [all]
          refine ⟨(piece.nesting 0 rest).trans balanced,
            fun s mem => kept s (symbol_mem_of_resolve resolved mem), ?_⟩
          refine split.imp_right fun whole => ?_
          rw [piece.splitTop, whole, foldr_consToFirst]

/-- No separator is left over in what is resolved further. -/
theorem comma_notMem_of_checkRest {u : Unit} (run : checkRest out d = .ok u d') :
    .symbol .comma ∉ out := by
  induction out with
  | nil => nofun
  | cons item out ih =>
    intro mem
    cases item with
    | function => exact absurd run Build.fail_ne_ok
    | value => exact ih run ((List.mem_cons.1 mem).resolve_left nofun)
    | symbol s =>
      simp only [checkRest] at run
      split at run
      · exact absurd run Build.fail_ne_ok
      · rename_i allowed
        rcases List.mem_cons.1 mem with eq | mem
        · cases eq
          exact allowed (.inl rfl)
        · exact ih run mem

/-- **Items that have a value can stand in brackets as one value.** -/
theorem Item.plain_of_single {v : Variable} (run : single (block n) items d = .ok (some v) d') :
    Plain items := by
  cases n with
  | zero =>
    obtain ⟨_, _, failed, -⟩ := bind_eq_ok_iff.1 run
    exact absurd failed Build.fail_ne_ok
  | succ n =>
    have nonempty : items ≠ [] := by
      rintro rfl
      have nothing : single (block (n + 1)) [] d = .ok none d := by
        simp only [single, block, resolveAll]
        rfl
      rw [nothing] at run
      cases run
    obtain ⟨vs, d₁, resolved, joined⟩ := bind_eq_ok_iff.1 run
    obtain ⟨out, _, walked, more⟩ := bind_eq_ok_iff.1 resolved
    obtain ⟨_, _, checked, -⟩ := bind_eq_ok_iff.1 more
    obtain ⟨balanced, -, split⟩ := balanced_of_resolveAll .comma walked
    exact ⟨nonempty, balanced, split.resolve_left (comma_notMem_of_checkRest checked)⟩

end Plain

end MatrixCalc
