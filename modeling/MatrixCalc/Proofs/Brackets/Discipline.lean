import MatrixCalc.Proofs.Lexing
import MatrixCalc.Proofs.Phases.Sessions

/-!
# Brackets are in order wherever they are looked for

Only the reading of a text checks the shapes of brackets.  The expansion of macros and the
resolution of groups count brackets without regard to their shape, in lists that have been cut out
of the text, put together from arguments, or collapsed.  All these lists are disciplined.

* `Macro.expandChecked`, `Group.blockChecked` : both check every list that they start on, and refuse
  one that is not disciplined.
* `Macro.expandChecked_eq`, `Group.blockChecked_eq` : on what comes from a text, they refuse
  nothing.
* `Session.compile_disciplined` : **a text is compiled as if every list were checked**, and no
  bracket is ever missing.
-/

namespace MatrixCalc

/-! ### Macros -/

namespace Macro

/-- The expansion of macros in which every list that is scanned is checked first. -/
def expandWithinChecked (refused : Error) (table : Bindings Macro) :
    Nat → List Token → Logged (List Token)
  | 0, _ => throw (.malformed .expansionTooDeep)
  | allowance + 1, tokens =>
    if Disciplined tokens then
      replaceCalls table (expandWithinChecked refused table allowance) tokens
    else throw refused

/-- `expand`, with every list that is scanned checked first. -/
def expandChecked (refused : Error) (table : Bindings Macro) (tokens : List Token) :
    Logged (List Token) :=
  if table.isEmpty then pure tokens
  else expandWithinChecked refused table (maxExpansionDepth + 1) tokens

/-- The macro has been read from the text of a declaration. -/
def Declared (m : Macro) : Prop :=
  ∃ text tokens, Token.tokenize text = .ok (.word macroKeyword :: tokens) ∧ ofTokens tokens = .ok m

variable {opened : List Symbol} {tokens rest : List Token} {m : Macro}

/-! #### Bodies -/

theorem openBehind_paramTokens (params : List String) :
    openBehind opened (paramTokens params) = some opened := by
  induction params with
  | nil => rfl
  | cons param params ih =>
    cases params with
    | nil => rfl
    | cons next params =>
      rw [paramTokens_cons_cons, openBehind_cons, openAfter_of_neutral rfl, Option.bind_some,
        openBehind_cons, openAfter_of_neutral rfl]
      exact ih

/-- Only the brackets around the parameters stand in front of a body. -/
theorem openBehind_toTokens (m : Macro) :
    openBehind opened m.toTokens = openBehind opened m.body := by
  have shut : openAfter (.parenLeft :: opened) (Token.symbol .parenRight) = some opened := rfl
  rw [toTokens_eq, openBehind_cons, openAfter_of_neutral rfl, Option.bind_some, openBehind_cons,
    openAfter_of_opening rfl rfl, Option.bind_some, openBehind_append, openBehind_paramTokens,
    Option.bind_some, openBehind_cons, shut, Option.bind_some, openBehind_cons,
    openAfter_of_neutral rfl, Option.bind_some]

theorem nested_body (nested : Nested tokens) (h : ofTokens tokens = .ok m) : Nested m.body := by
  rw [(declarable_of_ofTokens h).2, nested_iff, openBehind_toTokens] at nested
  exact nested_of_openBehind nested

/-- **The body of a declared macro is nested.** -/
theorem Declared.nested (h : m.Declared) : Nested m.body := by
  obtain ⟨text, tokens, read, declared⟩ := h
  have closed := (Token.legible_of_tokenize read).nested.openBehind []
  rw [openBehind_cons, openAfter_of_neutral rfl, Option.bind_some] at closed
  exact nested_body (nested_of_openBehind closed) declared

/-! #### Invocations -/

theorem nested_parenthesize (h : Nested tokens) : Nested (parenthesize tokens) := by
  have shape : SameShape (Token.symbol .parenLeft) (Token.symbol .parenRight) := .inl ⟨rfl, rfl⟩
  exact .group shape h .nil

theorem nested_embed (h : Nested tokens) : Nested (embed tokens) := by
  unfold embed
  split
  · exact h
  · exact nested_parenthesize h

theorem nested_of_arguments {inside : List Token} {args : List (List Token)}
    (h : m.arguments inside = .ok args) (nested : Nested inside) : ∀ arg ∈ args, Nested arg := by
  obtain ⟨rfl, -⟩ := arguments_eq_ok_iff.1 h
  intro arg mem
  unfold pieces at mem
  split at mem
  · cases mem
  · exact nested_of_splitTop nested mem

theorem substitute_of_symbol {bound : List (String × List Token)} {t : Token} {s : Symbol}
    (is : symbol? t = some s) : substitute bound t = [t] := by
  cases t with
  | symbol => rfl
  | word | integer | double => cases is

/-- **Nested arguments in a nested body are nested.** -/
theorem nested_instantiate (body : Nested m.body) {args : List (List Token)}
    (nested : ∀ arg ∈ args, Nested arg) : Nested (m.instantiate args) := by
  have embedded : ∀ name arg, (m.params.zip args).lookup name = some arg →
      Nested (embed arg) := by
    intro name arg found
    obtain ⟨before, behind, split, -⟩ := List.lookup_eq_some_iff.1 found
    have mem : (name, arg) ∈ m.params.zip args := by simp [split]
    exact nested_embed (nested arg (List.of_mem_zip mem).2)
  refine nested_parenthesize ?_
  generalize m.body = tokens at body
  induction body with
  | nil => exact .nil
  | @token t ts neutral _ ih =>
    rw [List.flatMap_cons]
    refine Nested.append ?_ ih
    unfold substitute
    split
    · split
      · exact embedded _ _ (by assumption)
      · exact .token neutral .nil
    · exact .token neutral .nil
  | @group opening close inside rest shape _ _ inner outer =>
    obtain ⟨s, is⟩ := exists_symbol (t := opening) (by rw [shape.opens]; decide)
    obtain ⟨c, is'⟩ := exists_symbol (t := close) (by rw [shape.closes]; decide)
    rw [List.flatMap_append, List.flatMap_cons, List.flatMap_cons, substitute_of_symbol is,
      substitute_of_symbol is']
    exact .group shape inner outer

/-! #### Expansion -/

/-- Every macro of the table has a nested body. -/
def NestedBodies (table : Bindings Macro) : Prop :=
  ∀ name m, table.find? name = some m → Nested m.body

variable {table : Bindings Macro} {refused : Error}

/-- What an invocation stands for is nested. -/
theorem nested_of_invocation (bodies : NestedBodies table) {name : String}
    (found : table.find? name = some m)
    (closes : openBehind opened (.word name :: .symbol .parenLeft :: tokens) = some [])
    {inside : List Token} {close : Token} (cut : untilClose 0 tokens = some (inside, close, rest)) :
    openBehind opened rest = some [] ∧
      ∀ args, m.arguments inside = .ok args → Nested (m.instantiate args) := by
  rw [openBehind_cons, openAfter_of_neutral rfl, Option.bind_some] at closes
  obtain ⟨_, _, _, cut', -, nested, more⟩ := openBehind_of_untilClose rfl closes
  cases cut.symm.trans cut'
  exact ⟨more, fun args parsed =>
    nested_instantiate (bodies name m found) (nested_of_arguments parsed nested)⟩

/-- Invocations are replaced alike if nested lists are expanded alike. -/
theorem replaceCalls_congr (bodies : NestedBodies table)
    {inner inner' : List Token → Logged (List Token)}
    (agree : ∀ ts, Nested ts → inner ts = inner' ts) (closes : openBehind opened tokens = some []) :
    replaceCalls table inner tokens = replaceCalls table inner' tokens := by
  fun_induction replaceCalls table inner tokens generalizing opened with
  | case1 => rw [replaceCalls]
  | case2 name tokens notFound ih =>
    rw [openBehind_cons, openAfter_of_neutral rfl, Option.bind_some] at closes
    rw [replaceCalls, ih closes]
    simp only [notFound]
  | case3 name tokens m found cut =>
    rw [replaceCalls]
    simp only [found]
    split
    · rfl
    · rename_i cut'
      cases cut.symm.trans cut'
  | case4 name tokens m found inside close rest cut ih =>
    obtain ⟨more, nested⟩ := nested_of_invocation bodies found closes cut
    rw [replaceCalls]
    simp only [found]
    split
    · rename_i cut'
      cases cut.symm.trans cut'
    · rename_i cut'
      cases cut.symm.trans cut'
      cases parsed : m.arguments inside with
      | error cause => rfl
      | ok args =>
        simp only [Except.mapError, Logged.ofExcept, pure_bind, ih more,
          agree _ (nested args parsed)]
  | case5 t tokens noCall ih =>
    obtain ⟨between, -, more⟩ := Option.bind_eq_some_iff.1 (openBehind_cons.symm.trans closes)
    rw [replaceCalls, ih more]
    exact noCall

/-- **Expansion meets only disciplined lists.** -/
theorem expandChecked_eq (bodies : NestedBodies table)
    (closes : openBehind opened tokens = some []) :
    expandChecked refused table tokens = expand table tokens := by
  have within : ∀ allowance ts opened, openBehind opened ts = some [] →
      expandWithinChecked refused table allowance ts = expandWithin table allowance ts := by
    intro allowance
    induction allowance with
    | zero => exact fun _ _ _ => rfl
    | succ allowance ih =>
      intro ts opened closes
      rw [expandWithinChecked, if_pos (disciplined_of_openBehind closes), expandWithin]
      exact replaceCalls_congr bodies (fun us nested => ih us [] (nested.openBehind [])) closes
  unfold expandChecked expand
  rw [within _ _ _ closes]

/-- What a nested list expands to is nested, and the rest of one closes what was open before. -/
theorem Unfolds.openBehind (bodies : NestedBodies table) {n : Nat} {expanded : List Token}
    (h : Unfolds table n tokens expanded) (closes : openBehind opened tokens = some []) :
    MatrixCalc.openBehind opened expanded = some [] := by
  induction h generalizing opened with
  | nil => exact closes
  | call found cut parsed _ _ inner outer =>
    obtain ⟨more, nested⟩ := nested_of_invocation bodies found closes cut
    have expansion := nested_of_openBehind (inner ((nested _ parsed).openBehind []))
    rw [openBehind_append, expansion.openBehind, Option.bind_some]
    exact outer more
  | token _ _ ih =>
    rw [openBehind_cons] at closes ⊢
    obtain ⟨between, after, more⟩ := Option.bind_eq_some_iff.1 closes
    rw [after]
    exact ih more

theorem openBehind_of_expand (bodies : NestedBodies table) {expanded : List Token}
    {log log' : List Event} (run : expand table tokens log = .ok expanded log')
    (closes : openBehind opened tokens = some []) : openBehind opened expanded = some [] := by
  cases declared : table.isEmpty with
  | false => exact (unfolds_of_expand declared run).openBehind bodies closes
  | true =>
    rw [expand, declared] at run
    cases run
    exact closes

end Macro

/-! ### Groups -/

theorem mapM_congr {m : Type → Type} [Monad m] [LawfulMonad m] {α β : Type} {f g : α → m β}
    {xs : List α} (h : ∀ x ∈ xs, f x = g x) : xs.mapM f = xs.mapM g := by
  induction xs with
  | nil => rfl
  | cons x xs ih =>
    rw [List.mapM_cons, List.mapM_cons, h x (by simp), ih fun y mem => h y (by simp [mem])]

/-- The symbols of items are those of their tokens. -/
theorem Item.symbols_of_ofTokens {scope : Bindings Variable} {tokens : List Token}
    {items : List Item} {d d' : Draft} (run : ofTokens scope tokens d = .ok items d') :
    items.map symbol? = tokens.map symbol? := by
  induction tokens generalizing items d with
  | nil =>
    obtain ⟨rfl, -⟩ := pure_eq_ok_iff.1 run
    rfl
  | cons t tokens ih =>
    obtain ⟨item, d₁, more, first, second, rfl⟩ := ofTokens_cons_eq_ok_iff.1 run
    rw [List.map_cons, List.map_cons, symbol_of_ofToken first, ih second]

namespace Group

/-- `block`, with every list whose groups are resolved checked first. -/
def blockChecked (refused : Error) : Nat → Resolver
  | 0, _ => Build.fail .nestedTooDeeply
  | allowance + 1, items =>
    if Disciplined items then do
      let items ← resolveAll (blockChecked refused allowance) [] items
      checkRest items
      Range.handles (← Tier.all items)
    else throw refused

section Congr

variable {block block' : Resolver} (agree : ∀ items, Nested items → block items = block' items)
include agree

theorem single_congr {items : List Item} (nested : Nested items) :
    single block items = single block' items := by
  rw [single, single, agree items nested]

theorem address_congr {inside : List Item} (nested : Nested inside) :
    address block inside = address block' inside := by
  have pieces : (splitTop .comma 0 inside).mapM (index block) =
      (splitTop .comma 0 inside).mapM (index block') :=
    mapM_congr fun piece mem => by
      rw [index, index, single_congr agree (nested_of_splitTop nested mem)]
  rw [address, address, pieces]

theorem call_congr (f : Builtin) {inside : List Item} (nested : Nested inside) :
    call block f inside = call block' f inside := by
  have pieces : (splitTop .comma 0 inside).mapM (argument block f) =
      (splitTop .comma 0 inside).mapM (argument block' f) :=
    mapM_congr fun piece mem => by
      rw [argument, argument, single_congr agree (nested_of_splitTop nested mem)]
  rw [call, call, arguments, arguments, pieces]

theorem literalRow_congr {items : List Item} (nested : Nested items) :
    literalRow block items = literalRow block' items := by
  have pieces : (splitTop .comma 0 items).mapM (element block) =
      (splitTop .comma 0 items).mapM (element block') :=
    mapM_congr fun piece mem => by rw [element, element, agree _ (nested_of_splitTop nested mem)]
  rw [literalRow, literalRow, pieces]

theorem literal_congr {inside : List Item} (nested : Nested inside) :
    literal block inside = literal block' inside := by
  have rows : (splitTop .semicolon 0 inside).mapM (literalRow block) =
      (splitTop .semicolon 0 inside).mapM (literalRow block') :=
    mapM_congr fun piece mem => literalRow_congr agree (nested_of_splitTop nested mem)
  rw [literal, literal, literalRows, literalRows, rows]

theorem resolve_congr (opening : Symbol) (done : List Item) {inside : List Item}
    (nested : Nested inside) :
    resolve block opening done inside = resolve block' opening done inside := by
  unfold resolve
  rw [literal_congr agree nested, address_congr agree nested, single_congr agree nested]
  simp only [call_congr agree _ nested]

theorem resolveAll_congr {done items : List Item} {opened : List Symbol}
    (closes : openBehind opened items = some []) :
    resolveAll block done items = resolveAll block' done items := by
  match items with
  | [] => rw [resolveAll, resolveAll]
  | item :: items =>
    cases role : bracketRole item with
    | neutral =>
      rw [openBehind_cons, openAfter_of_neutral role, Option.bind_some] at closes
      rw [resolveAll_neutral role, resolveAll_neutral role]
      exact resolveAll_congr closes
    | closing =>
      obtain ⟨s, is⟩ := exists_symbol (t := item) (by rw [role]; decide)
      rw [resolveAll_unmatched is role, resolveAll_unmatched is role]
    | opening =>
      obtain ⟨s, is⟩ := exists_symbol (t := item) (by rw [role]; decide)
      obtain ⟨inside, close, rest, cut, -, nested, more⟩ := openBehind_of_untilClose role closes
      have shorter := length_of_untilClose cut
      have opens : s.role = .opening := by
        rwa [bracketRole, is] at role
      rw [resolveAll_opening is opens, resolveAll_opening is opens, cut]
      dsimp only
      rw [resolve_congr agree s done nested]
      congr 1
      funext done'
      exact resolveAll_congr more
termination_by items.length
decreasing_by all_goals (simp only [List.length_cons]; omega)

end Congr

/-- **Groups are resolved only in disciplined lists.** -/
theorem blockChecked_eq (refused : Error) (allowance : Nat) {items : List Item}
    {opened : List Symbol} (closes : openBehind opened items = some []) :
    blockChecked refused allowance items = block allowance items := by
  induction allowance generalizing items opened with
  | zero => rfl
  | succ allowance ih =>
    rw [blockChecked, if_pos (disciplined_of_openBehind closes), block,
      resolveAll_congr (fun _ nested => ih (nested.openBehind [])) closes]

/-- A list that is checked lacks no bracket. -/
theorem sound_blockChecked {allowed : Error → Prop}
    (plain : ∀ cause : Malformed, ¬ cause.Unclosed → allowed (.malformed cause)) {refused : Error}
    (refusal : allowed refused) (allowance : Nat) (items : List Item) :
    (blockChecked refused allowance items).Sound allowed := by
  induction allowance generalizing items with
  | zero => exact Build.sound_throw (plain _ id)
  | succ allowance ih =>
    have plain := allowed_of_unclosed plain
    rw [blockChecked]
    split
    · rename_i disciplined
      exact (sound_resolveAll plain ih (.inl disciplined) []).bind fun rest =>
        (sound_checkRest plain rest).bind fun _ => (Tier.sound_all plain rest).bind
          (Range.sound_handles plain)
    · exact Build.sound_throw refusal

end Group

/-- Tokens that are checked lack no bracket. -/
theorem Macro.fails_expandChecked {allowed : Error → Prop}
    (plain : ∀ cause : Malformed, ¬ cause.Unclosed → allowed (.malformed cause)) {refused : Error}
    (refusal : allowed refused) {table : Bindings Macro} {tokens : List Token}
    {log log' : List Event} {e : Error}
    (run : expandChecked refused table tokens log = .error e log') : allowed e := by
  have within : ∀ allowance tokens log e log',
      expandWithinChecked refused table allowance tokens log = .error e log' → allowed e := by
    intro allowance
    induction allowance with
    | zero =>
      rintro tokens log e log' ⟨⟩
      exact plain _ id
    | succ allowance ih =>
      intro tokens log e log' run
      rw [expandWithinChecked] at run
      split at run
      · rename_i disciplined
        exact fails_replaceCalls (allowed_of_unclosed plain) ih (.inl disciplined) run
      · cases run
        exact refusal
  unfold expandChecked at run
  split at run
  · cases run
  · exact within _ _ _ _ _ run

/-! ### Statements -/

namespace Statement

variable {scope : Bindings Variable} {macros : Bindings Macro} {refused : Error}
  {tokens left right : List Token} {opened : List Symbol}

theorem openBehind_of_prepare (bodies : Macro.NestedBodies macros) {items : List Item}
    {d d' : Draft} (run : prepare scope macros tokens d = .ok items d')
    (closes : openBehind opened tokens = some []) : openBehind opened items = some [] := by
  obtain ⟨expanded, log, expands, reads⟩ := prepare_eq_ok_iff.1 run
  rw [openBehind_congr (Item.symbols_of_ofTokens reads)]
  exact Macro.openBehind_of_expand bodies expands closes

theorem prepareWith_eq (bodies : Macro.NestedBodies macros)
    (closes : openBehind opened tokens = some []) :
    prepareWith (Macro.expandChecked refused macros) scope tokens =
      prepare scope macros tokens := by
  rw [prepareWith, Macro.expandChecked_eq bodies closes, prepare]

/-- The index list of a target is nested, as its group is closed inside of the target. -/
theorem nested_of_targetIndices (nested : Nested tokens)
    (cut : splitAssignment tokens = .ok (left, right)) {inside : List Token}
    (indices : targetIndices left = .ok inside) : Nested inside := by
  obtain ⟨t, rest, close, rfl, group⟩ := CallSite.of_targetIndices indices
  obtain ⟨rfl, -, -⟩ := parts_of_splitAssignment cut
  obtain ⟨_, _, _, group', -, inner⟩ := nested.disciplined [t] (.symbol .parenLeft)
    (rest ++ .symbol .assign :: right) (by simp) rfl
  rw [untilClose_append group] at group'
  cases group'
  exact inner

theorem bind_congr {α β : Type} {x y : Build α} {f g : α → Build β} {d : Draft} (first : x d = y d)
    (more : ∀ a d', y d = .ok a d' → f a d' = g a d') : (x >>= f) d = (y >>= g) d := by
  rw [bind_eq, bind_eq, first]
  cases run : y d with
  | ok a d' => exact more a d' run
  | error e d' => rfl

theorem valueWith_eq (bodies : Macro.NestedBodies macros)
    (closes : openBehind opened tokens = some []) (d : Draft) :
    valueWith (Macro.expandChecked refused macros) (Group.blockChecked refused maxNesting) scope
      tokens d = value scope macros tokens d := by
  unfold valueWith value
  refine bind_congr (by rw [prepareWith_eq bodies closes]) fun items d' run => ?_
  rw [Group.single, Group.single,
    Group.blockChecked_eq refused maxNesting (openBehind_of_prepare bodies run closes)]

theorem assignPlacesWith_eq (bodies : Macro.NestedBodies macros) (name : String)
    (nested : ∀ inside, targetIndices left = .ok inside → Nested inside) (v : Variable)
    (d : Draft) :
    assignPlacesWith (Macro.expandChecked refused macros) (Group.blockChecked refused maxNesting)
      scope name left v d = assignPlaces scope macros name left v d := by
  unfold assignPlacesWith assignPlaces
  generalize scope.find? name = found
  rcases found with _ | ⟨_ | _ | _ | _, m⟩
  case some.matrix =>
    refine bind_congr rfl fun inside d₁ run => ?_
    obtain ⟨indices, -⟩ := Build.ofExcept_eq_ok_iff.1 run
    have closes := (nested inside indices).openBehind []
    refine bind_congr (by rw [prepareWith_eq bodies closes]) fun items d₂ run => ?_
    have inner := nested_of_openBehind (openBehind_of_prepare bodies run closes)
    rw [Group.address_congr (fun items nested =>
      Group.blockChecked_eq refused maxNesting (nested.openBehind [])) inner]
  all_goals rfl

/-- **A nested statement is compiled as if every list were checked.** -/
theorem compileWith_checked (bodies : Macro.NestedBodies macros) (nested : Nested tokens)
    (d : Draft) :
    compileWith (Macro.expandChecked refused macros) (Group.blockChecked refused maxNesting) scope
      tokens d = compile scope macros tokens d := by
  unfold compileWith compile
  refine bind_congr rfl fun (left, right) d₁ run => ?_
  obtain ⟨cut, -⟩ := Build.ofExcept_eq_ok_iff.1 run
  obtain ⟨opened, closes⟩ : ∃ opened, openBehind opened right = some [] := by
    have whole := nested.openBehind []
    rw [(parts_of_splitAssignment cut).1, openBehind_append] at whole
    obtain ⟨opened, -, whole⟩ := Option.bind_eq_some_iff.1 whole
    exact ⟨opened, whole⟩
  refine bind_congr rfl fun _ d₂ _ => bind_congr rfl fun name d₃ _ =>
    bind_congr (valueWith_eq bodies closes d₃) fun v d₄ _ => bind_congr ?_ fun _ _ _ => rfl
  unfold assignWith assign
  split
  · rfl
  · exact bind_congr (assignPlacesWith_eq bodies name
      (fun inside => nested_of_targetIndices nested cut) v d₄) fun _ _ _ => rfl

end Statement

/-! ### Sessions -/

/-- A closing bracket is missing. -/
def Error.Unclosed : Error → Prop
  | malformed cause => cause.Unclosed
  | _ => False

namespace Session

/-- Every macro of the session has been read from the text of a declaration. -/
def MacrosDeclared (s : Session) : Prop :=
  ∀ name m, s.macros.find? name = some m → m.Declared

variable {s : Session} {source : String} {tokens : List Token}

theorem MacrosDeclared.compile (h : s.MacrosDeclared) (source : String) :
    (s.compile source).session.MacrosDeclared := by
  cases result : (s.compile source).result with
  | error e => rwa [compile_of_error result]
  | ok program =>
    cases compilesTo_of_ok result with
    | statement _ _ _ session =>
      rw [session]
      exact h
    | declaration read declares parsed _ session =>
      obtain ⟨rest, rfl⟩ := Token.eq_cons_of_declareMacro declares
      rw [session]
      intro name m' found
      rw [Bindings.find?_insert] at found
      split at found
      · cases found
        exact ⟨source, rest, read, parsed⟩
      · exact h name m' found

/-- **The macros of a session that comes about have been declared.** -/
theorem macrosDeclared_of_reachable {h : History} (reach : h.Reachable) :
    h.session.MacrosDeclared := by
  induction reach with
  | refl => exact fun _ _ found => by cases found
  | tail _ step ih =>
    cases step with
    | allocate | write | remove => exact ih
    | define _ ok =>
      rcases Session.define_eq_ok_iff.1 ok with ⟨-, ⟨_, -, rfl⟩ | ⟨-, rfl⟩⟩ <;> exact ih
    | bind _ ok =>
      obtain ⟨-, rfl⟩ := Session.bind_eq_ok_iff.1 ok
      exact ih
    | compile source =>
      unfold History.compile
      split
      · exact ih.compile source
      · exact ih
    | @perform program mem =>
      intro name m found
      rw [perform_macros] at found
      exact ih name m found

/-- **Brackets are in order wherever they are looked for.**  If all macros of a session have been
declared, a text is compiled as if every list in which macros are expanded or groups are resolved
were checked first: each bracket that is opened in it is closed by one of its shape, the one that a
count finds, and the tokens in between are nested.  So compiling what has been read never fails
because a closing bracket is missing. -/
theorem compile_disciplined (declared : s.MacrosDeclared)
    (read : Token.tokenize source = .ok tokens) :
    (∀ refused d, Statement.compileWith (Macro.expandChecked refused s.macros)
        (Group.blockChecked refused maxNesting) s.scope tokens d =
      Statement.compile s.scope s.macros tokens d) ∧
    ∀ e, (s.compile source).result = .error e → ¬ e.Unclosed := by
  have nested := (Token.legible_of_tokenize read).nested
  have bodies : Macro.NestedBodies s.macros := fun name m found => (declared name m found).nested
  refine ⟨fun refused d => Statement.compileWith_checked bodies nested d, fun e failed => ?_⟩
  have plain : ∀ cause : Malformed, ¬ cause.Unclosed → ¬ (Error.malformed cause).Unclosed :=
    fun _ => id
  -- what is refused does not matter, as nothing is
  have expands : ∀ tokens log e log', Macro.expandChecked (.unbound "") s.macros tokens log =
      .error e log' → ¬ e.Unclosed := fun _ _ _ _ run =>
    @Macro.fails_expandChecked (fun e => ¬ e.Unclosed) plain _ id _ _ _ _ _ run
  have resolves : ∀ items, (Group.blockChecked (.unbound "") maxNesting items).Sound
      fun e => ¬ e.Unclosed := Group.sound_blockChecked plain id maxNesting
  have checked := @Statement.sound_compileWith _ plain (fun _ => id) (fun _ => id) _ expands _
    resolves s.scope tokens
  refine @allowed_of_compile _ _ _ _ (fun e => ¬ e.Unclosed) plain (fun _ => id) read ?_ failed
  intro d
  have step := checked d
  rwa [Statement.compileWith_checked bodies nested] at step

/-- A macro puts its arguments in brackets of both shapes. -/
theorem compile_disciplined_of_macro : ∃ s tokens, MacrosDeclared s ∧
    (s.macros.find? "pick").map Macro.body = some [.word "a", .symbol .parenLeft,
      .symbol .bracketLeft, .word "b", .symbol .bracketRight, .symbol .parenRight] ∧
    Token.tokenize "y = pick([1 2], (1)) + 1" = .ok tokens ∧
    (∀ refused d, Statement.compileWith (Macro.expandChecked refused s.macros)
        (Group.blockChecked refused maxNesting) s.scope tokens d =
      Statement.compile s.scope s.macros tokens d) ∧
    ∀ e, (s.compile "y = pick([1 2], (1)) + 1").result = .error e → ¬ e.Unclosed := by
  have declared : (compile {} "macro pick(a, b) = a([b])").session.MacrosDeclared :=
    MacrosDeclared.compile (fun _ _ found => by cases found) _
  have read : Token.tokenize "y = pick([1 2], (1)) + 1" =
      .ok [.word "y", .symbol .assign, .word "pick", .symbol .parenLeft, .symbol .bracketLeft,
        .integer 1, .integer 2, .symbol .bracketRight, .symbol .comma, .symbol .parenLeft,
        .integer 1, .symbol .parenRight, .symbol .parenRight, .symbol .plus, .integer 1] := by
    cbv
  exact ⟨_, _, declared, by cbv, read, compile_disciplined declared read⟩

end Session

end MatrixCalc
