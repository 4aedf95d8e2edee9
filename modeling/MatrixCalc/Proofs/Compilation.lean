import MatrixCalc.Proofs.Brackets.Shapes
import MatrixCalc.Proofs.Run
import MatrixCalc.Session

/-!
# What a successful compilation consists of

The parts of a statement one after the other, and the session that results.  A text is one of
three things: it cannot be read, it declares a macro, or it is a statement
(`Session.compile_of_statement`).

* `Statement.compile_eq_ok_iff` : a statement compiles iff it has one `=`, both of its sides are
  there, its value compiles and it can be assigned.
* `Session.compile_of_ok`, `Session.compile_of_fail` : what compiling does to the session.
* `Session.CompilesTo` : the two kinds of texts that compile.
-/

namespace MatrixCalc

open EStateM (Result)

/-! ### Statements -/

/-- A word means the variable of its name, and only without one the function. -/
theorem Item.ofToken_word_eq_ok_iff {scope : Bindings Variable} {name : String} {item : Item}
    {d d' : Draft} : ofToken scope (.word name) d = .ok item d' ↔ d = d' ∧
      ((∃ v, scope.find? name = some v ∧ item = value v) ∨
        scope.find? name = none ∧ ∃ f, Builtin.ofName? name = some f ∧ item = function f) := by
  simp only [ofToken]
  generalize scope.find? name = bound, Builtin.ofName? name = builtin
  cases bound with
  | some v => simp [pure_eq_ok_iff, and_comm, eq_comm (a := item)]
  | none =>
    cases builtin with
    | some f => simp [pure_eq_ok_iff, and_comm, eq_comm (a := item)]
    | none =>
      by_cases keyword : name = macroKeyword
      · simp [keyword, Build.fail_ne_ok]
      · simp [keyword, throw_ne_ok]

/-- The draft with an operation added whose target exists. -/
def Draft.emitted (d : Draft) (op : Operation) : Draft :=
  { d with program := d.program ++ [op], log := d.log ++ [.emitted op.name] }

/-- The draft with one more cell that is no intermediate variable. -/
def Draft.allocated (d : Draft) (kind : Kind) : Draft :=
  { d with store := (d.store.allocate kind.blank).1 }

/-- The variable that `Draft.allocated` adds. -/
def Draft.fresh (d : Draft) (kind : Kind) : Variable := ⟨kind, (d.store.allocate kind.blank).2⟩

namespace Statement

open Build

variable {scope : Bindings Variable} {macros : Bindings Macro} {d d' : Draft}

theorem prepare_eq_ok_iff {tokens : List Token} {items : List Item} :
    prepare scope macros tokens d = .ok items d' ↔ ∃ expanded log,
      Macro.expand macros tokens d.log = .ok expanded log ∧
      Item.ofTokens scope expanded { d with log } = .ok items d' := by
  simp only [prepare, bind_eq_ok_iff, ofLogged_eq_ok_iff]
  constructor
  · rintro ⟨expanded, _, ⟨log, h, rfl⟩, h'⟩
    exact ⟨expanded, log, h, h'⟩
  · rintro ⟨expanded, log, h, h'⟩
    exact ⟨expanded, _, ⟨log, h, rfl⟩, h'⟩

theorem value_eq_ok_iff {tokens : List Token} {v : Variable} :
    value scope macros tokens d = .ok v d' ↔ ∃ items d₁,
      prepare scope macros tokens d = .ok items d₁ ∧
      Group.single (Group.block maxNesting) items d₁ = .ok (some v) d' := by
  simp only [value, bind_eq_ok_iff, ofOption_eq_ok_iff]
  constructor
  · rintro ⟨items, d₁, h, _, _, h', rfl, rfl⟩
    exact ⟨items, d₁, h, h'⟩
  · rintro ⟨items, d₁, h, h'⟩
    exact ⟨items, d₁, h, _, _, h', rfl, rfl⟩

/-- A whole variable is overwritten if its name is bound, and created if it is not. -/
theorem assignWhole_eq_ok_iff {name : String} {v : Variable}
    {declared : Option (String × Variable)} :
    assignWhole scope name v d = .ok declared d' ↔
      (∃ target op, scope.find? name = some target ∧ Operation.copy v target = .ok op ∧
        declared = none ∧ d' = d.emitted op) ∨
      (∃ op, scope.find? name = none ∧ Operation.copy v (d.fresh v.kind) = .ok op ∧
        declared = some (name, d.fresh v.kind) ∧ d' = (d.allocated v.kind).emitted op) := by
  unfold assignWhole
  generalize scope.find? name = bound
  cases bound with
  | some target =>
    simp only [bind_eq_ok_iff, ofExcept_eq_ok_iff, pure_eq_ok_iff, emit_eq]
    constructor
    · rintro ⟨op, _, ⟨h, rfl⟩, _, _, h', rfl, rfl⟩
      cases h'
      exact .inl ⟨target, op, rfl, h, rfl, rfl⟩
    · rintro (⟨_, op, found, h, rfl, rfl⟩ | ⟨_, found, -⟩)
      · cases found
        exact ⟨op, d, ⟨h, rfl⟩, _, _, rfl, rfl, rfl⟩
      · exact absurd found (by simp)
  | none =>
    simp only [bind_eq_ok_iff, ofExcept_eq_ok_iff, pure_eq_ok_iff, emit_eq, allocate_eq]
    constructor
    · rintro ⟨_, _, h₀, op, _, ⟨h, rfl⟩, _, _, h', rfl, rfl⟩
      cases h₀
      cases h'
      exact .inr ⟨op, trivial, h, rfl, rfl⟩
    · rintro (⟨_, _, found, -⟩ | ⟨op, -, h, rfl, rfl⟩)
      · exact absurd found (by simp)
      · exact ⟨_, _, rfl, op, _, ⟨h, rfl⟩, _, _, rfl, rfl, rfl⟩

/-- Only places of a matrix are overwritten one by one. -/
theorem assignPlaces_eq_ok_iff {name : String} {target : List Token} {v : Variable} {u : Unit} :
    assignPlaces scope macros name target v d = .ok u d' ↔
      ∃ m inside items d₁ address d₂ op, scope.find? name = some ⟨.matrix, m⟩ ∧
        targetIndices target = .ok inside ∧ prepare scope macros inside d = .ok items d₁ ∧
        Group.address (Group.block maxNesting) items d₁ = .ok address d₂ ∧
        Operation.insert v m address = .ok op ∧ d' = d₂.emitted op := by
  unfold assignPlaces
  generalize scope.find? name = found
  rcases found with _ | ⟨_ | _ | _ | _, m⟩
  case some.matrix =>
    simp only [bind_eq_ok_iff, ofExcept_eq_ok_iff, pure_eq_ok_iff, emit_eq]
    constructor
    · rintro ⟨inside, _, ⟨h₁, rfl⟩, items, d₁, h₂, address, d₂, h₃, op, _, ⟨h₄, rfl⟩, _, _, h₅, -,
        rfl⟩
      cases h₅
      exact ⟨m, inside, items, d₁, address, d₂, op, rfl, h₁, h₂, h₃, h₄, rfl⟩
    · rintro ⟨m, inside, items, d₁, address, d₂, op, found, h₁, h₂, h₃, h₄, rfl⟩
      cases found
      exact ⟨inside, d, ⟨h₁, rfl⟩, items, d₁, h₂, address, d₂, h₃, op, d₂, ⟨h₄, rfl⟩, _, _, rfl,
        trivial, rfl⟩
  all_goals simp [fail_ne_ok, throw_ne_ok]

theorem assign_eq_ok_iff {name : String} {left : List Token} {v : Variable}
    {declared : Option (String × Variable)} :
    assign scope macros name left v d = .ok declared d' ↔
      (left.length = 1 ∧ assignWhole scope name v d = .ok declared d') ∨
      (left.length ≠ 1 ∧ declared = none ∧
        assignPlaces scope macros name left v d = .ok () d') := by
  unfold assign
  by_cases whole : left.length = 1
  · simp [whole]
  · simp only [whole, if_false, bind_eq_ok_iff, pure_eq_ok_iff, false_and, false_or, ne_eq,
      not_false_eq_true, true_and]
    constructor
    · rintro ⟨_, _, h, rfl, rfl⟩
      exact ⟨rfl, h⟩
    · rintro ⟨rfl, h⟩
      exact ⟨(), d', h, rfl, rfl⟩

/-- A target starts with the word that names it. -/
theorem targetName_eq_ok_iff {left : List Token} {name : String} :
    targetName left = .ok name ↔ isReserved name = false ∧ ∃ rest, left = .word name :: rest := by
  rcases left with _ | ⟨_ | found | _ | _, rest⟩
  case cons.word =>
    by_cases same : found = name
    · subst same
      cases reserved : isReserved found <;> simp [targetName, reserved]
    · cases reserved : isReserved found <;> simp [targetName, reserved, same]
  all_goals simp [targetName]

theorem target_eq_ok_iff {left : List Token} {name : String} :
    target left d = .ok name d' ↔ targetName left = .ok name ∧ d = d' := by
  unfold target
  cases targetName left with
  | ok found => simp [pure_eq_ok_iff]
  | error e => simp [throw_ne_ok]

/-- **A statement compiles iff its parts do**, the value before the target. -/
theorem compile_eq_ok_iff {tokens : List Token} {compiled : Compiled} :
    compile scope macros tokens d = .ok compiled d' ↔
      ∃ left right name v d₁ declared d₂, splitAssignment tokens = .ok (left, right) ∧
        right.isEmpty = false ∧ targetName left = .ok name ∧
        value scope macros right d = .ok v d₁ ∧
        assign scope macros name left v d₁ = .ok declared d₂ ∧
        compiled = ⟨d₂.program, declared⟩ ∧
        d' = { d₂ with log := (d₂.log ++ [.compiled tokens.length d₂.program.length
          d₂.temporaries]) ++ [.released d₂.temporaries] } := by
  simp only [compile, finish, bind_eq_ok_iff, ofExcept_eq_ok_iff, require_eq_ok_iff,
    target_eq_ok_iff, pure_eq_ok_iff, get_eq_ok_iff, record_eq]
  constructor
  · rintro ⟨⟨left, right⟩, _, ⟨h₁, rfl⟩, _, _, ⟨h₂, rfl⟩, name, _, ⟨h₃, rfl⟩, v, d₁, h₄, declared,
      d₂, h₅, _, _, ⟨rfl, rfl⟩, _, _, h₆, _, _, h₇, rfl, rfl⟩
    cases h₆
    cases h₇
    exact ⟨left, right, name, v, d₁, declared, _, h₁, by simpa using h₂, h₃, h₄, h₅, rfl, rfl⟩
  · rintro ⟨left, right, name, v, d₁, declared, d₂, h₁, h₂, h₃, h₄, h₅, rfl, rfl⟩
    exact ⟨(left, right), d, ⟨h₁, rfl⟩, (), d, ⟨by simp [h₂], rfl⟩, name, d, ⟨h₃, rfl⟩, v, d₁, h₄,
      declared, d₂, h₅, _, _, ⟨rfl, rfl⟩, _, _, rfl, _, _, rfl, rfl, rfl⟩

/-- A statement with a whole variable on its left. -/
theorem compile_whole_eq_ok_iff {target : String} {right : List Token} {compiled : Compiled}
    (cut : splitAssignment (.word target :: .symbol .assign :: right) = .ok ([.word target], right))
    (nonempty : right ≠ []) :
    compile scope macros (.word target :: .symbol .assign :: right) d = .ok compiled d' ↔
      isReserved target = false ∧ ∃ v d₁ declared d₂, value scope macros right d = .ok v d₁ ∧
        assignWhole scope target v d₁ = .ok declared d₂ ∧ compiled = ⟨d₂.program, declared⟩ ∧
        d' = { d₂ with log := (d₂.log ++ [.compiled (right.length + 2) d₂.program.length
          d₂.temporaries]) ++ [.released d₂.temporaries] } := by
  have name : ∀ name, targetName [.word target] = .ok name ↔
      isReserved target = false ∧ name = target := by
    intro name
    cases reserved : isReserved target <;> simp [targetName, reserved, eq_comm]
  rw [compile_eq_ok_iff]
  constructor
  · rintro ⟨_, _, _, v, d₁, declared, d₂, cut', -, named, valued, assigned, rfl, rfl⟩
    cases cut.symm.trans cut'
    obtain ⟨unreserved, rfl⟩ := (name _).1 named
    rcases assign_eq_ok_iff.1 assigned with ⟨-, whole⟩ | ⟨several, -⟩
    · exact ⟨unreserved, v, d₁, declared, d₂, valued, whole, rfl, rfl⟩
    · exact absurd rfl several
  · rintro ⟨unreserved, v, d₁, declared, d₂, valued, whole, rfl, rfl⟩
    exact ⟨_, _, target, v, d₁, declared, d₂, cut, List.isEmpty_eq_false_iff.2 nonempty,
      (name _).2 ⟨unreserved, rfl⟩, valued, assign_eq_ok_iff.2 (.inl ⟨rfl, whole⟩), rfl, rfl⟩

end Statement

/-! ### Lists with groups -/

namespace Group

variable {block : Resolver} {done items : List Item} {item : Item} {opening : Symbol}

/-- An item that is no symbol with the role of a bracket is no bracket. -/
theorem neutral_of_no_bracket
    (noOpening : ∀ s, symbol? item = some s → bracketRole item = .opening → False)
    (noClosing : ∀ s, symbol? item = some s → bracketRole item = .closing → False) :
    bracketRole item = .neutral := by
  by_contra bracket
  obtain ⟨s, symbol⟩ := exists_symbol bracket
  cases role : bracketRole item with
  | neutral => exact bracket role
  | opening => exact noOpening s symbol role
  | closing => exact noClosing s symbol role

/-- An item that is no bracket is passed. -/
theorem resolveAll_neutral (neutral : bracketRole item = .neutral) :
    resolveAll block done (item :: items) = resolveAll block (item :: done) items := by
  rw [resolveAll]
  split
  · rename_i role
    rw [neutral] at role
    cases role
  · rename_i role
    rw [neutral] at role
    cases role
  · rfl

theorem resolveAll_unmatched {s : Symbol} (symbol : symbol? item = some s)
    (closes : bracketRole item = .closing) :
    resolveAll block done (item :: items) = Build.fail (.unmatchedClosing s) := by
  rw [resolveAll]
  split
  · rename_i role
    rw [closes] at role
    cases role
  · rename_i symbol' _
    cases symbol.symm.trans symbol'
    rfl
  · rename_i noClosing
    exact absurd closes (noClosing s symbol)

theorem resolveAll_closing (closes : bracketRole item = .closing) : ∃ cause,
    resolveAll block done (item :: items) = Build.fail cause := by
  obtain ⟨s, symbol⟩ := exists_symbol (t := item) (by rw [closes]; decide)
  exact ⟨_, resolveAll_unmatched symbol closes⟩

/-- A group is cut out and resolved, then what follows it. -/
theorem resolveAll_opening (symbol : symbol? item = some opening)
    (opens : opening.role = .opening) :
    resolveAll block done (item :: items) = match untilClose 0 items with
      | none => Build.fail (.unterminated opening)
      | some (inside, _, rest) =>
        resolve block opening done inside >>= fun done => resolveAll block done rest := by
  have role : bracketRole item = .opening := by
    rw [bracketRole, symbol]
    exact opens
  rw [resolveAll]
  split
  · rename_i symbol' _
    cases symbol.symm.trans symbol'
    split
    · rename_i cut
      rw [cut]
    · rename_i cut
      rw [cut]
  · rename_i closes
    rw [role] at closes
    cases closes
  · rename_i noOpening _
    exact absurd role (noOpening opening symbol)

end Group

/-! ### Sessions -/

/-- The tokens declare a macro. -/
def Token.declareMacro : List Token → Bool
  | .word first :: _ => first == macroKeyword
  | _ => false

theorem Token.eq_cons_of_declareMacro {tokens : List Token} (h : declareMacro tokens = true) :
    ∃ rest, tokens = .word macroKeyword :: rest := by
  unfold declareMacro at h
  split at h
  · exact ⟨_, by rw [eq_of_beq h]⟩
  · cases h

namespace Session

variable {s : Session} {source : String} {tokens : List Token}

/-- The draft of a statement at its start. -/
def draft (s : Session) : Draft := { store := s.store }

/-- The table of variables after a statement. -/
def scopeWith (s : Session) : Option (String × Variable) → Bindings Variable
  | none => s.scope
  | some (name, v) => s.scope.insert name v

theorem find?_scopeWith {declared : Option (String × Variable)} {name : String} {v : Variable}
    (found : (s.scopeWith declared).find? name = some v) :
    declared = some (name, v) ∨ s.scope.find? name = some v := by
  rcases declared with _ | ⟨target, w⟩
  · exact .inr found
  · rw [scopeWith, Bindings.find?_insert] at found
    split at found
    · rename_i same
      cases found
      exact .inl (by rw [same])
    · exact .inr found

theorem compile_of_unreadable {e : Error} (h : Token.tokenize source = .error e) :
    (s.compile source).result = .error e := by
  simp only [compile, h, Logged.ofExcept, Logged.finish]
  rfl

theorem tokenize_of_compile {program : Program}
    (ok : (s.compile source).result = .ok program) :
    ∃ tokens, Token.tokenize source = .ok tokens := by
  cases read : Token.tokenize source with
  | ok tokens => exact ⟨tokens, rfl⟩
  | error e =>
    rw [compile_of_unreadable read] at ok
    cases ok

theorem compileTokens_of_statement (h : Token.declareMacro tokens = false) :
    s.compileTokens tokens = s.compileAssignment tokens := by
  unfold compileTokens
  split
  · rename_i first rest
    have : first ≠ macroKeyword := by simpa [Token.declareMacro] using h
    rw [if_neg this]
  · rfl

/-- What is read is compiled with an empty log. -/
theorem compile_of_read (h : Token.tokenize source = .ok tokens) :
    s.compile source = match s.compileTokens tokens [] with
      | .ok (session, program) events => ⟨.ok program, session, events⟩
      | .error e events => ⟨.error e, s, events⟩ := by
  unfold compile
  rw [h]
  have bound : (Logged.ofExcept (Except.ok tokens) >>= s.compileTokens) [] =
      s.compileTokens tokens [] := rfl
  dsimp only [Logged.finish, EStateM.run]
  rw [bound]
  cases s.compileTokens tokens [] <;> rfl

/-- A statement that compiles leaves its cells and maybe its target in the session. -/
theorem compile_of_ok {compiled : Compiled} {d : Draft} (h : Token.tokenize source = .ok tokens)
    (notMacro : Token.declareMacro tokens = false)
    (run : Statement.compile s.scope s.macros tokens s.draft = .ok compiled d) :
    (s.compile source).result = .ok compiled.program ∧
      (s.compile source).session =
        { s with store := d.store, scope := s.scopeWith compiled.declared } := by
  have run' : Statement.compile s.scope s.macros tokens { store := s.store, log := [] } =
      .ok compiled d := run
  obtain ⟨program, declared⟩ := compiled
  rw [compile_of_read h, compileTokens_of_statement notMacro]
  simp only [compileAssignment, run']
  rcases declared with _ | ⟨name, v⟩ <;> exact ⟨rfl, rfl⟩

theorem compile_of_fail {e : Error} {d : Draft} (h : Token.tokenize source = .ok tokens)
    (notMacro : Token.declareMacro tokens = false)
    (run : Statement.compile s.scope s.macros tokens s.draft = .error e d) :
    (s.compile source).result = .error e := by
  have run' : Statement.compile s.scope s.macros tokens { store := s.store, log := [] } =
      .error e d := run
  rw [compile_of_read h, compileTokens_of_statement notMacro]
  simp only [compileAssignment, run']

/-- A text that does not declare a macro compiles iff its tokens are a statement. -/
theorem compile_of_statement {program : Program} (h : Token.tokenize source = .ok tokens)
    (notMacro : Token.declareMacro tokens = false)
    (ok : (s.compile source).result = .ok program) : ∃ compiled d,
      Statement.compile s.scope s.macros tokens s.draft = .ok compiled d ∧
      program = compiled.program ∧
      (s.compile source).session =
        { s with store := d.store, scope := s.scopeWith compiled.declared } := by
  cases run : Statement.compile s.scope s.macros tokens s.draft with
  | ok compiled d =>
    obtain ⟨result, session⟩ := compile_of_ok h notMacro run
    rw [result] at ok
    cases ok
    exact ⟨compiled, d, rfl, rfl, session⟩
  | error e d =>
    rw [compile_of_fail h notMacro run] at ok
    cases ok

/-- A macro declaration has the empty program and adds to the macro table. -/
theorem compile_of_declaration {program : Program} (h : Token.tokenize source = .ok tokens)
    (isMacro : Token.declareMacro tokens = true)
    (ok : (s.compile source).result = .ok program) : ∃ m,
      Macro.ofTokens (tokens.drop 1) = .ok m ∧ bindable m.name = true ∧ program = [] ∧
      (s.compile source).session = { s with macros := s.macros.insert m.name m } := by
  obtain ⟨rest, rfl⟩ := Token.eq_cons_of_declareMacro isMacro
  rw [compile_of_read h] at ok ⊢
  simp only [compileTokens, if_true] at ok ⊢
  cases run : s.declare rest [] with
  | error e log =>
    rw [bind_eq, run] at ok
    cases ok
  | ok s' log =>
    rw [bind_eq, run] at ok ⊢
    cases ok
    simp only [declare, bind_eq_ok_iff, Logged.ofExcept_eq_ok_iff, pure_eq_ok_iff,
      Logged.record_eq] at run
    obtain ⟨m, _, ⟨read, rfl⟩, _, _, ⟨name, rfl⟩, _, _, recorded, rfl, rfl⟩ := run
    refine ⟨m, ?_, ?_, rfl, rfl⟩
    · cases parsed : Macro.ofTokens rest <;> rw [parsed] at read <;> cases read
      exact parsed
    · unfold checkName at name
      split at name
      · assumption
      · cases name

/-- What a text is that compiles in a session, and what becomes of the session. -/
inductive CompilesTo (s : Session) (source : String) : Program → Prop
  /-- A declaration adds a macro, and there is nothing to perform. -/
  | declaration {tokens : List Token} {m : Macro} (read : Token.tokenize source = .ok tokens)
      (isMacro : Token.declareMacro tokens = true) (parsed : Macro.ofTokens (tokens.drop 1) = .ok m)
      (named : bindable m.name = true) (session : (s.compile source).session =
        { s with macros := s.macros.insert m.name m }) : CompilesTo s source []
  /-- A statement adds cells, and maybe the name of its target. -/
  | statement {tokens : List Token} {compiled : Compiled} {d : Draft}
      (read : Token.tokenize source = .ok tokens) (notMacro : Token.declareMacro tokens = false)
      (run : Statement.compile s.scope s.macros tokens s.draft = .ok compiled d)
      (session : (s.compile source).session =
        { s with store := d.store, scope := s.scopeWith compiled.declared }) :
      CompilesTo s source compiled.program

/-- **What compiles** is a declaration or a statement. -/
theorem compilesTo_of_ok {program : Program} (ok : (s.compile source).result = .ok program) :
    s.CompilesTo source program := by
  obtain ⟨tokens, read⟩ := tokenize_of_compile ok
  cases isMacro : Token.declareMacro tokens with
  | true =>
    obtain ⟨m, parsed, named, rfl, session⟩ := compile_of_declaration read isMacro ok
    exact .declaration read isMacro parsed named session
  | false =>
    obtain ⟨compiled, d, run, rfl, session⟩ := compile_of_statement read isMacro ok
    exact .statement read isMacro run session

/-- A macro can be declared in every session. -/
theorem compile_of_macro {m : Macro} (h : Token.tokenize source = .ok tokens)
    (isMacro : Token.declareMacro tokens = true) (parsed : Macro.ofTokens (tokens.drop 1) = .ok m)
    (named : bindable m.name = true) : (s.compile source).result = .ok [] := by
  obtain ⟨rest, rfl⟩ := Token.eq_cons_of_declareMacro isMacro
  have parsed : Macro.ofTokens rest = .ok m := parsed
  have run : s.declare rest [] = .ok { s with macros := s.macros.insert m.name m }
      [.declaredMacro m.name m.params] := by
    simp only [declare, bind_eq_ok_iff, Logged.ofExcept_eq_ok_iff, pure_eq_ok_iff]
    exact ⟨m, [], ⟨by rw [parsed]; rfl, rfl⟩, (), [], ⟨if_pos named, rfl⟩, (), _, rfl, rfl, rfl⟩
  rw [compile_of_read h]
  simp only [compileTokens, if_true]
  rw [bind_eq, run]
  rfl

/-- Whether a macro can be declared depends on the text only. -/
theorem result_of_declaration (s s' : Session) (read : Token.tokenize source = .ok tokens)
    (isMacro : Token.declareMacro tokens = true) :
    (s'.compile source).result = (s.compile source).result := by
  obtain ⟨rest, rfl⟩ := Token.eq_cons_of_declareMacro isMacro
  rw [compile_of_read read, compile_of_read read]
  simp only [compileTokens, if_true, declare]
  cases Macro.ofTokens rest with
  | error cause => rfl
  | ok m =>
    cases named : checkName m.name with
    | ok | error =>
      simp only [Except.mapError, Logged.ofExcept, pure_bind, named]
      rfl

end Session

end MatrixCalc
