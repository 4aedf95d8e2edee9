import MatrixCalc.Proofs.Brackets.Shapes
import MatrixCalc.Proofs.Phases.Recipes

/-!
# How compiling fails

Every part of the compilation fails with an error about the text or its names, and emits regular
operations only (`Build.Sound`).  Which errors are allowed is left open: `allowed` holds of all
causes that are not about groups, and the parts that look for brackets ask for more.

* `Group.sound_block` : the value of a list of items.
* `Macro.fails_expand` : the expansion of macros.
* `Statement.sound_compileWith` : **a whole statement**, for any way to expand macros and to resolve
  groups.
-/

namespace MatrixCalc

/-- The operations emitted so far are regular. -/
def Draft.Regular (d : Draft) : Prop := ∀ op ∈ d.program, op.term.Regular

namespace Build

variable {α β : Type} {allowed : Error → Prop}

/-- The computation fails only with errors that are allowed, and emits regular operations only. -/
def Sound (allowed : Error → Prop) (m : Build α) : Prop :=
  ∀ d, match m d with
    | .ok _ d' => d.Regular → d'.Regular
    | .error e _ => allowed e

theorem Sound.of_ok {m : Build α} (h : m.Sound allowed) {d d' : Draft} {a : α}
    (run : m d = .ok a d') (regular : d.Regular) : d'.Regular := by
  have answer := h d
  rw [run] at answer
  exact answer regular

theorem Sound.of_error {m : Build α} (h : m.Sound allowed) {d d' : Draft} {e : Error}
    (run : m d = .error e d') : allowed e := by
  have answer := h d
  rwa [run] at answer

theorem sound_pure (a : α) : (pure a : Build α).Sound allowed := fun _ => id

theorem sound_throw {e : Error} (h : allowed e) : (throw e : Build α).Sound allowed := fun _ => h

theorem sound_get : (get : Build Draft).Sound allowed := fun _ => id

theorem Sound.bind {x : Build α} {f : α → Build β} (hx : x.Sound allowed)
    (hf : ∀ a, (f a).Sound allowed) : (x >>= f).Sound allowed := by
  intro d
  rw [bind_eq]
  cases run : x d with
  | ok a d' =>
    dsimp only
    have more := hf a d'
    cases last : f a d' with
    | ok b d'' =>
      rw [last] at more
      exact more ∘ hx.of_ok run
    | error e d'' =>
      rw [last] at more
      exact more
  | error e d' => exact hx.of_error run

theorem sound_allocate {kind : Kind} (value : kind.Content) : (allocate value).Sound allowed :=
  fun _ => id

theorem sound_create {kind : Kind} (value : kind.Content) : (create value).Sound allowed :=
  fun _ => id

theorem sound_integerLiteral (value : Int64) : (integerLiteral value).Sound allowed := fun _ => id

theorem sound_doubleLiteral (value : Float) : (doubleLiteral value).Sound allowed := fun _ => id

theorem sound_sequenceVariable (value : IndexSequence) :
    (sequenceVariable value).Sound allowed := fun _ => id

theorem sound_emit {op : Operation} (h : op.term.Regular) : (emit op).Sound allowed := by
  intro d regular op' mem
  rcases List.mem_append.1 mem with old | new
  · exact regular op' old
  · rwa [List.mem_singleton.1 new]

/-- A recipe that is there is placed in a new cell. -/
theorem place_bind (recipe : Recipe) (f : Operation → Build β) :
    place (.ok recipe) >>= f = create recipe.kind.blank >>= fun cell => f (recipe.into cell) := rfl

theorem sound_mapM {f : α → Build β} (h : ∀ x, (f x).Sound allowed) (xs : List α) :
    (xs.mapM f).Sound allowed := by
  induction xs with
  | nil => exact sound_pure _
  | cons x xs ih =>
    rw [List.mapM_cons]
    exact (h x).bind fun _ => ih.bind fun _ => sound_pure _

theorem sound_ofLogged {m : Logged α} (h : ∀ log e log', m log = .error e log' → allowed e) :
    (ofLogged m).Sound allowed := by
  intro d
  simp only [ofLogged]
  cases run : m d.log with
  | ok => exact id
  | error e log => exact h _ e log run

end Build

open Build

/-! ### Refusals that are not about groups -/

theorem allowed_of_unclosed {allowed : Error → Prop}
    (plain : ∀ cause : Malformed, ¬ cause.Unclosed → allowed (.malformed cause))
    (cause : Malformed) (h : ¬ cause.OfGroups) : allowed (.malformed cause) :=
  plain cause (h ∘ Malformed.Unclosed.ofGroups)

section Plain

variable {α : Type} {allowed : Error → Prop}
  (plain : ∀ cause : Malformed, ¬ cause.OfGroups → allowed (.malformed cause))

namespace Build

include plain

theorem sound_fail {cause : Malformed} (h : ¬ cause.OfGroups) :
    (fail cause : Build α).Sound allowed := sound_throw (plain cause h)

/-- What an answer is used for is sound if that holds of every good answer. -/
theorem sound_ofExcept_bind {β : Type} {good : α → Prop} {r : Except Malformed α}
    (h : Answers good r) {f : α → Build β} (hf : ∀ a, good a → (f a).Sound allowed) :
    (ofExcept r >>= f).Sound allowed := by
  cases r with
  | ok a => exact hf a h
  | error cause => exact sound_fail plain h

theorem sound_ofExcept {good : α → Prop} {r : Except Malformed α} (h : Answers good r) :
    (ofExcept r).Sound allowed := by
  cases r with
  | ok a => exact sound_pure a
  | error cause => exact sound_fail plain h

theorem sound_ofOption {cause : Malformed} (h : ¬ cause.OfGroups) (o : Option α) :
    (ofOption cause o).Sound allowed := by
  cases o with
  | some value => exact sound_pure value
  | none => exact sound_fail plain h

theorem sound_require {cause : Malformed} (h : ¬ cause.OfGroups) (condition : Bool) :
    (require condition cause).Sound allowed := by
  cases condition with
  | true => exact sound_pure ()
  | false => exact sound_fail plain h

theorem sound_emitRecipe {r : Except Malformed Recipe} (h : GivesRegular r) :
    (emitRecipe r).Sound allowed := by
  cases r with
  | ok recipe =>
    rw [emitRecipe, place_bind]
    exact (sound_create _).bind fun _ => sound_emit h
  | error cause => exact sound_fail plain h

end Build

include plain

/-! ### Items and operators -/

theorem Item.sound_operand (context : String) (item : Item) :
    (item.operand context).Sound allowed := by
  cases item with
  | value v => exact sound_pure v
  | symbol | function => exact sound_get.bind fun _ => sound_fail plain id

theorem Item.sound_ofTokens (unbound : ∀ name, allowed (.unbound name))
    (scope : Bindings Variable) (tokens : List Token) : (ofTokens scope tokens).Sound allowed := by
  have single : ∀ t, (ofToken scope t).Sound allowed := by
    intro t
    cases t with
    | symbol s => exact sound_pure _
    | word name =>
      simp only [ofToken]
      split
      · exact sound_pure _
      · exact sound_pure _
      · split
        · exact sound_fail plain id
        · exact sound_throw (unbound name)
    | integer n => exact (sound_integerLiteral n).bind fun _ => sound_pure _
    | double x => exact (sound_doubleLiteral x).bind fun _ => sound_pure _
  induction tokens with
  | nil => exact sound_pure _
  | cons t tokens ih => exact (single t).bind fun _ => ih.bind fun _ => sound_pure _

namespace Tier

theorem sound_negate (times : Nat) (v : Variable) : (negate times v).Sound allowed := by
  induction times generalizing v with
  | zero => exact sound_pure v
  | succ times ih => exact (sound_emitRecipe plain (Recipe.answers_unary _ _)).bind ih

theorem sound_transpositions (done items : List Item) :
    (transpositions done items).Sound allowed := by
  induction items generalizing done with
  | nil => exact sound_pure _
  | cons item items ih =>
    simp only [transpositions]
    split
    · cases done with
      | nil => exact sound_fail plain id
      | cons left done =>
        exact (left.sound_operand plain _).bind fun _ =>
          (sound_emitRecipe plain (Recipe.answers_unary _ _)).bind fun _ => ih _
    · exact ih _

theorem sound_resolve (p : Pending) (right : Item) : (p.resolve right).Sound allowed := by
  unfold Pending.resolve
  split
  · exact (Item.sound_operand plain _ _).bind fun _ => (right.sound_operand plain _).bind fun _ =>
      sound_emitRecipe plain (Recipe.answers_binary _ _ _)
  · exact (right.sound_operand plain _).bind fun _ => (sound_negate plain _ _).bind fun _ =>
      (Item.sound_operand plain _ _).bind fun _ =>
        sound_emitRecipe plain (Recipe.answers_binary _ _ _)

theorem sound_binaries (tier : List Symbol) (done : List Item) (p : Option Pending)
    (items : List Item) : (binaries tier done p items).Sound allowed := by
  fun_induction binaries tier done p items with
  | case1 => exact sound_pure _
  | case2 | case7 | case8 => exact sound_fail plain id
  | case3 _ _ _ _ _ ih | case4 _ _ _ _ _ _ _ ih | case5 _ _ _ _ _ _ _ ih | case6 _ _ _ _ ih
  | case9 _ _ _ _ _ ih => exact ih
  | case10 _ p item _ _ ih => exact (sound_resolve plain p item).bind ih

theorem sound_negations (done : List Item) (signs : Nat) (items : List Item) :
    (negations done signs items).Sound allowed := by
  fun_induction negations done signs items with
  | case1 => exact sound_pure _
  | case2 => exact sound_fail plain id
  | case3 _ _ _ _ _ ih | case4 _ _ _ _ ih => exact ih
  | case5 _ _ item _ _ _ ih =>
    exact (item.sound_operand plain _).bind fun _ => (sound_negate plain _ _).bind fun v => ih v

theorem sound_all (items : List Item) : (all items).Sound allowed :=
  (sound_transpositions plain _ _).bind fun _ => (sound_binaries plain _ _ _ _).bind fun _ =>
    (sound_binaries plain _ _ _ _).bind fun _ => (sound_binaries plain _ _ _ _).bind fun _ =>
      (sound_negations plain _ _ _).bind fun _ => sound_binaries plain _ _ _ _

end Tier

/-! ### Ranges and groups -/

namespace Range

theorem sound_handles (items : List Item) : (handles items).Sound allowed :=
  sound_get.bind fun _ =>
    (sound_ofExcept plain (decides_mapM (decides_piece _) items)).bind fun _ =>
      (sound_ofExcept plain (decides_parse _)).bind fun rs => sound_mapM (fun r => by
        cases r with
        | value v => exact sound_pure v
        | sequence s => exact sound_sequenceVariable s) rs

theorem sound_join (items : List Variable) : (join items).Sound allowed := by
  unfold join
  split
  · exact sound_pure _
  · exact sound_pure _
  · exact sound_get.bind fun _ => (sound_ofExcept plain (decides_parts _ _ _)).bind fun _ =>
      (sound_sequenceVariable _).bind fun _ => sound_pure _

end Range

namespace Group

theorem sound_checkRest (items : List Item) : (checkRest items).Sound allowed := by
  fun_induction checkRest items with
  | case1 => exact sound_pure _
  | case2 | case3 => exact sound_fail plain id
  | case4 _ _ _ ih | case5 _ _ ih => exact ih

variable {block : Resolver} (h : ∀ items, (block items).Sound allowed)
include h

theorem sound_single (items : List Item) : (single block items).Sound allowed :=
  (h items).bind (Range.sound_join plain)

theorem sound_argument (f : Builtin) (items : List Item) :
    (argument block f items).Sound allowed :=
  (sound_require plain id _).bind fun _ => (sound_single plain h items).bind fun _ =>
    sound_ofOption plain id _

theorem sound_arguments (f : Builtin) (inside : List Item) :
    (arguments block f inside).Sound allowed := by
  unfold arguments
  split
  · exact sound_pure _
  · exact sound_mapM (sound_argument plain h f) _

theorem sound_call (f : Builtin) (inside : List Item) : (call block f inside).Sound allowed :=
  (sound_arguments plain h f inside).bind fun _ => sound_get.bind fun _ =>
    sound_emitRecipe plain (Recipe.answers_ofCall _ _ _)

theorem sound_index (items : List Item) : (index block items).Sound allowed :=
  (sound_single plain h items).bind fun _ => (sound_ofOption plain id _).bind fun _ =>
    sound_ofExcept plain (Index.decides_ofVariable _)

theorem sound_address (inside : List Item) : (address block inside).Sound allowed :=
  (sound_require plain id _).bind fun _ => (sound_mapM (sound_index plain h) _).bind fun _ =>
    sound_ofExcept plain (Address.decides_ofIndices _)

theorem sound_element (items : List Item) : (element block items).Sound allowed :=
  (sound_require plain id _).bind fun _ => h items

theorem sound_literalRow (items : List Item) : (literalRow block items).Sound allowed :=
  (sound_require plain id _).bind fun _ => (sound_mapM (sound_element plain h) _).bind fun _ =>
    sound_get.bind fun _ => (sound_ofExcept plain (decides_checkClosed _ _)).bind fun _ =>
      sound_pure _

theorem sound_literalRows (inside : List Item) : (literalRows block inside).Sound allowed := by
  unfold literalRows
  split
  · exact sound_pure _
  · exact sound_mapM (sound_literalRow plain h) _

/-- The operation of a literal is emitted behind a check. -/
theorem sound_literal (inside : List Item) : (literal block inside).Sound allowed := by
  refine (sound_literalRows plain h inside).bind fun rows => ?_
  rw [place_bind]
  exact (sound_create _).bind fun _ => sound_get.bind fun _ =>
    (sound_ofExcept plain (rows.decides_checkStatic _ _)).bind fun _ =>
      sound_emit ⟨trivial, trivial⟩

theorem sound_resolve (opening : Symbol) (done inside : List Item) :
    (resolve block opening done inside).Sound allowed := by
  unfold resolve
  split
  · exact (sound_literal plain h inside).bind fun _ => sound_pure _
  · exact (sound_call plain h _ inside).bind fun _ => sound_pure _
  · exact (sound_address plain h inside).bind fun _ =>
      (sound_emitRecipe plain (r := .ok _) (Recipe.regular_ofAddress _ _)).bind fun _ =>
        sound_pure _
  · exact (sound_single plain h inside).bind fun
      | some _ => sound_pure _
      | none => sound_pure _

/-- A missing bracket is refused only if that is allowed, or if there is none. -/
theorem sound_resolveAll {items : List Item}
    (closed : Disciplined items ∨ ∀ s, allowed (.malformed (.unterminated s)))
    (done : List Item) : (resolveAll block done items).Sound allowed := by
  fun_induction resolveAll block done items with
  | case1 => exact sound_pure _
  | case2 done item items opening role is cut =>
    rcases closed with closed | may
    · obtain ⟨_, _, _, found, -⟩ := closed [] item items rfl role
      cases cut.symm.trans found
    · exact sound_throw (may opening)
  | case3 done item items opening _ _ inside close rest cut ih =>
    refine (sound_resolve plain h opening done inside).bind fun done' => ih done' ?_
    have split : item :: items = (item :: inside ++ [close]) ++ rest := by
      simp [← append_of_untilClose cut]
    rw [split] at closed
    exact closed.imp Disciplined.of_append id
  | case4 => exact sound_fail plain id
  | case5 _ item _ _ _ ih =>
    exact ih (closed.imp Disciplined.tail id)

end Group

/-! ### Macros -/

namespace Macro

omit plain in
theorem fails_bind {α β : Type} {x : Logged α} {f : α → Logged β} {log log' : List Event}
    {e : Error} (run : (x >>= f) log = .error e log') :
    x log = .error e log' ∨ ∃ a between, f a between = .error e log' := by
  rw [bind_eq] at run
  cases first : x log with
  | ok a between =>
    rw [first] at run
    exact .inr ⟨a, between, run⟩
  | error cause after =>
    rw [first] at run
    cases run
    exact .inl rfl

omit plain in
theorem decides_arguments (m : Macro) (inside : List Token) : Decides (m.arguments inside) := by
  rw [arguments_eq, accept]
  split
  · exact id
  · split
    · exact id
    · trivial

/-- A missing bracket is refused only if that is allowed, or if there is none. -/
theorem fails_replaceCalls {table : Bindings Macro}
    {inner : List Token → Logged (List Token)}
    (h : ∀ tokens log e log', inner tokens log = .error e log' → allowed e) {tokens : List Token}
    (closed : Disciplined tokens ∨ allowed (.malformed .unterminatedInvocation))
    {log log' : List Event} {e : Error}
    (run : replaceCalls table inner tokens log = .error e log') : allowed e := by
  fun_induction replaceCalls table inner tokens generalizing log with
  | case1 => cases run
  | case2 name tokens _ ih =>
    rcases fails_bind run with run | ⟨_, _, run⟩
    · exact ih (closed.imp Disciplined.tail id) run
    · cases run
  | case3 name tokens _ _ cut =>
    cases run
    rcases closed with closed | may
    · obtain ⟨_, _, _, found, -⟩ := closed [_] _ tokens rfl rfl
      cases cut.symm.trans found
    · exact may
  | case4 name tokens m _ inside close rest cut ih =>
    have split : .word name :: .symbol .parenLeft :: tokens =
        (.word name :: .symbol .parenLeft :: inside ++ [close]) ++ rest := by
      simp [← append_of_untilClose cut]
    rw [split] at closed
    rcases fails_bind run with run | ⟨_, _, run⟩
    · have answers := m.decides_arguments inside
      cases parsed : m.arguments inside with
      | ok args =>
        rw [parsed] at run
        cases run
      | error cause =>
        rw [parsed] at run answers
        cases run
        exact plain cause answers
    rcases fails_bind run with run | ⟨_, _, run⟩
    · cases run
    rcases fails_bind run with run | ⟨_, _, run⟩
    · exact h _ _ _ _ run
    rcases fails_bind run with run | ⟨_, _, run⟩
    · exact ih (closed.imp Disciplined.of_append id) run
    · cases run
  | case5 t tokens _ ih =>
    rcases fails_bind run with run | ⟨_, _, run⟩
    · exact ih (closed.imp Disciplined.tail id) run
    · cases run

/-- **Expanding fails only with a refusal.** -/
theorem fails_expand (unterminated : allowed (.malformed .unterminatedInvocation))
    {table : Bindings Macro} {tokens : List Token} {log log' : List Event} {e : Error}
    (run : expand table tokens log = .error e log') : allowed e := by
  have within : ∀ allowance tokens log e log',
      expandWithin table allowance tokens log = .error e log' → allowed e := by
    intro allowance
    induction allowance with
    | zero =>
      rintro tokens log e log' ⟨⟩
      exact plain _ id
    | succ allowance ih =>
      exact fun tokens log e log' run => fails_replaceCalls plain ih (.inr unterminated) run
  unfold expand at run
  split at run
  · cases run
  · exact within _ _ _ _ _ run

end Macro

/-- **The value of a list fails only with a refusal**, and its operations are regular. -/
theorem Group.sound_block (unterminated : ∀ s, allowed (.malformed (.unterminated s)))
    (deep : allowed (.malformed .nestedTooDeeply)) (allowance : Nat) (items : List Item) :
    (block allowance items).Sound allowed := by
  induction allowance generalizing items with
  | zero => exact sound_throw deep
  | succ allowance ih =>
    exact (sound_resolveAll plain ih (.inr unterminated) []).bind fun rest =>
      (sound_checkRest plain rest).bind fun _ => (Tier.sound_all plain rest).bind
        (Range.sound_handles plain)

end Plain

/-! ### Statements -/

namespace Statement

section With

variable (expander : List Token → Logged (List Token)) (resolver : Group.Resolver)
  (scope : Bindings Variable)

/-- The items of a list of tokens, with macros expanded in some way. -/
def prepareWith (tokens : List Token) : Build (List Item) := do
  Item.ofTokens scope (← Build.ofLogged (expander tokens))

/-- The value of the right side, with groups resolved in some way. -/
def valueWith (tokens : List Token) : Build Variable := do
  let items ← prepareWith expander scope tokens
  Build.ofOption .nothingToAssign (← Group.single resolver items)

/-- Assigns a value to places of a matrix, with macros expanded and groups resolved in some way. -/
def assignPlacesWith (name : String) (target : List Token) (v : Variable) : Build Unit := do
  match scope.find? name with
  | some ⟨.matrix, m⟩ =>
    let inside ← Build.ofExcept (targetIndices target)
    let address ← Group.address resolver (← prepareWith expander scope inside)
    let _ ← Build.emit (← Build.ofExcept (Operation.insert v m address))
  | some other => Build.fail (.targetNotAMatrix name other.kind)
  | none => throw (.unbound name)

/-- Assigns a value to a target, with macros expanded and groups resolved in some way. -/
def assignWith (name : String) (left : List Token) (v : Variable) :
    Build (Option (String × Variable)) :=
  if left.length = 1 then assignWhole scope name v
  else do
    assignPlacesWith expander resolver scope name left v
    return none

/-- Compiles the tokens of a statement, with macros expanded and groups resolved in some way. -/
def compileWith (tokens : List Token) : Build Compiled := do
  let (left, right) ← Build.ofExcept (splitAssignment tokens)
  Build.require (!right.isEmpty) .emptyValue
  let name ← target left
  let v ← valueWith expander resolver scope right
  finish tokens.length (← assignWith expander resolver scope name left v)

/-- Statements are compiled with `Macro.expand` and `Group.block`. -/
theorem compileWith_eq (macros : Bindings Macro) (tokens : List Token) :
    compileWith (Macro.expand macros) (Group.block maxNesting) scope tokens =
      compile scope macros tokens := rfl

end With

section Sound

variable {allowed : Error → Prop}
  (plain : ∀ cause : Malformed, ¬ cause.OfGroups → allowed (.malformed cause))
  (unbound : ∀ name, allowed (.unbound name)) (reserved : ∀ name, allowed (.reserved name))
  {expander : List Token → Logged (List Token)}
  (expands : ∀ tokens log e log', expander tokens log = .error e log' → allowed e)
  {resolver : Group.Resolver} (resolves : ∀ items, (resolver items).Sound allowed)
  (scope : Bindings Variable)

include plain

theorem sound_assignWhole (name : String) (v : Variable) :
    (assignWhole scope name v).Sound allowed := by
  unfold assignWhole
  split
  · exact sound_ofExcept_bind plain (Operation.answers_copy _ _) fun op regular =>
      (sound_emit regular).bind fun _ => sound_pure _
  · exact (sound_allocate _).bind fun _ =>
      sound_ofExcept_bind plain (Operation.answers_copy _ _) fun op regular =>
        (sound_emit regular).bind fun _ => sound_pure _

include reserved in
theorem sound_target (left : List Token) : (target left).Sound allowed := by
  unfold target
  split
  · exact sound_pure _
  · rename_i e failed
    unfold targetName at failed
    split at failed
    · cases failed
      exact sound_throw (plain _ id)
    · split at failed <;> cases failed
      exact sound_throw (reserved _)
    · cases failed
      exact sound_throw (plain _ id)

include unbound expands

theorem sound_prepareWith (tokens : List Token) :
    (prepareWith expander scope tokens).Sound allowed :=
  (sound_ofLogged (expands tokens)).bind fun _ => Item.sound_ofTokens plain unbound scope _

include resolves

theorem sound_valueWith (tokens : List Token) :
    (valueWith expander resolver scope tokens).Sound allowed :=
  (sound_prepareWith plain unbound expands scope tokens).bind fun items =>
    (Group.sound_single plain resolves items).bind fun _ => sound_ofOption plain id _

theorem sound_assignPlacesWith (name : String) (left : List Token) (v : Variable) :
    (assignPlacesWith expander resolver scope name left v).Sound allowed := by
  unfold assignPlacesWith
  split
  · exact (sound_ofExcept plain (decides_targetIndices _)).bind fun inside =>
      (sound_prepareWith plain unbound expands scope inside).bind fun items =>
        (Group.sound_address plain resolves items).bind fun _ =>
          sound_ofExcept_bind plain (Operation.answers_insert _ _ _) fun op regular =>
            (sound_emit regular).bind fun _ => sound_pure _
  · exact sound_fail plain id
  · exact sound_throw (unbound _)

end Sound

/-- **A statement fails only with a refusal**, and its operations are regular. -/
theorem sound_compileWith {allowed : Error → Prop}
    (plain : ∀ cause : Malformed, ¬ cause.Unclosed → allowed (.malformed cause))
    (unbound : ∀ name, allowed (.unbound name)) (reserved : ∀ name, allowed (.reserved name))
    {expander : List Token → Logged (List Token)}
    (expands : ∀ tokens log e log', expander tokens log = .error e log' → allowed e)
    {resolver : Group.Resolver} (resolves : ∀ items, (resolver items).Sound allowed)
    (scope : Bindings Variable) (tokens : List Token) :
    (compileWith expander resolver scope tokens).Sound allowed := by
  have plain := allowed_of_unclosed plain
  refine (sound_ofExcept plain (decides_splitAssignment _)).bind fun (left, right) =>
    (sound_require plain id _).bind fun _ => (sound_target plain reserved left).bind fun name =>
      (sound_valueWith plain unbound expands resolves scope right).bind fun v =>
        Sound.bind ?_ fun _ => fun _ => id
  unfold assignWith
  split
  · exact sound_assignWhole plain scope name v
  · exact (sound_assignPlacesWith plain unbound expands resolves scope name left v).bind fun _ =>
      sound_pure _

end Statement

end MatrixCalc
