import MatrixCalc.Proofs.Expression.Compiled
import MatrixCalc.Proofs.Expression.Operands

/-!
# Assignments of written trees

The tree of a text is assigned to a name.  If the name is bound, its variable must take the kind of
the tree; if not, it is bound to a new variable.  Compiling gives the operations of the tree and a
copy of what they leave in the end.

* `Datum.into?` : what a variable holds after a number has been assigned to it.
* `Expression.Assignment` : a compiled assignment, in parts.
* `Session.compiles_assignment` : **which assignments compile, and to what**.
* `Expression.Assignment.perform` : **what performing it stores**.
-/

namespace MatrixCalc

open Build MatrixCalc.Group

/-! ### Copies of numbers -/

/-- A variable of the kind `target` takes numbers of a kind: integers widen to doubles. -/
def Kind.takes (target : Kind) : Kind → Bool
  | .integer => target.isNumber
  | .double => target = .double
  | .matrix | .sequence => false

/-- What a variable of a kind holds after a number has been assigned to it. -/
def Datum.into? (kind : Kind) : Datum → Option Datum
  | ⟨.integer, n⟩ =>
    match kind with
    | .integer => some ⟨.integer, n⟩
    | .double => some ⟨.double, n.toFloat⟩
    | .matrix | .sequence => none
  | ⟨.double, x⟩ => if kind = .double then some ⟨.double, x⟩ else none
  | ⟨.matrix, _⟩ | ⟨.sequence, _⟩ => none

theorem Datum.into?_self {x : Datum} (number : x.1.isNumber = true) : x.into? x.1 = some x := by
  rcases x with ⟨_ | _ | _ | _, value⟩ <;> first | rfl | cases number

theorem Kind.takes_self {kind : Kind} (number : kind.isNumber = true) : kind.takes kind = true := by
  cases kind <;> first | rfl | cases number

/-- A number is copied to a variable iff the variable takes it. -/
theorem Operation.copy_of_number {v target : Variable} (number : v.kind.isNumber = true) :
    (target.kind.takes v.kind = false ∧ ∃ cause, copy v target = .error cause) ∨
    (target.kind.takes v.kind = true ∧ ∃ op, copy v target = .ok op ∧ op.output = target ∧
      ∀ s : Store, s.Has target.cell → ∃ s', op.perform s = .ok s' ∧
        (s.datum v).into? target.kind = some (s'.datum target)) := by
  rcases v with ⟨_ | _ | _ | _, source⟩
  case matrix | sequence => cases number
  all_goals rcases target with ⟨_ | _ | _ | _, cell⟩
  case double.matrix | double.integer | double.sequence | integer.matrix | integer.sequence =>
    exact .inl ⟨rfl, _, rfl⟩
  all_goals
    refine .inr ⟨rfl, _, rfl, rfl, fun s has => ⟨_, rfl, ?_⟩⟩
    exact congrArg (fun x => some (Sigma.mk _ x)) (s.read_write_self has _).symm

theorem Operation.exists_copy {v target : Variable} (number : v.kind.isNumber = true)
    (takes : target.kind.takes v.kind = true) : ∃ op, copy v target = .ok op := by
  rcases @copy_of_number v target number with ⟨refused, -⟩ | ⟨-, op, copied, -⟩
  · cases takes.symm.trans refused
  · exact ⟨op, copied⟩

/-! ### Statements -/

namespace Expression

/-- The operations `body` compute a written tree into the variable `root`. -/
structure Lowering (scope : Bindings Variable) (d d' : Draft) (e : Expression Operand)
    (root : Variable) where
  /-- The draft in which the numbers have their variables. -/
  start : Draft
  /-- The tree of variables. -/
  tree : Expression Variable
  /-- The operations. -/
  body : Program
  larger : d.store.Extends start.store
  program_eq : start.program = d.program
  becomes : Alike (Operand.Becomes scope d.store start.store) e tree
  reduces : Reduces start tree body d' (leaf root)

variable {scope : Bindings Variable} {macros : Bindings Macro} {e : Expression Operand}
  {pieces : List (Symbol ⊕ Operand)} {depth : Nat} {d d' : Draft} {v : Variable} {target : String}

/-- The value of a written tree is computed iff its brackets do not nest too deeply. -/
theorem value_operands (h : e.Prints 6 false pieces depth) (plain : .inl .transpose ∉ pieces)
    (numbers : ∀ a, .inr a ∈ pieces → a.IsNumber scope) (d : Draft) :
    (depth < maxNesting ∧ ∃ d' root, Nonempty (Lowering scope d d' e root) ∧
      root.kind.isNumber = true ∧
      Statement.value scope macros (tokensBy Operand.token pieces) d = .ok root d') ∨
    (maxNesting ≤ depth ∧ ∀ root d',
      Statement.value scope macros (tokensBy Operand.token pieces) d ≠ .ok root d') := by
  obtain ⟨cells, start, items, program_eq, larger, spells⟩ := ofTokens_operands numbers d
  obtain ⟨tree, _, printed, becomes, same⟩ := h.respell spells
  rw [same rfl] at printed
  have prepared : Statement.prepare scope macros (tokensBy Operand.token pieces) d =
      .ok (itemsOf cells) start := (prepare_tokensBy Operand.symbol?_token h d).trans items
  -- no operator of the tree refuses numbers
  have leaves : ∀ w ∈ tree.leaves, ∃ k, some w.kind = some k ∧ k.isNumber = true :=
    becomes.forall_leaves fun a mem w becomes =>
      ⟨w.kind, rfl, (numbers a (mem_of_mem_leaves h mem)).kind becomes⟩
  obtain ⟨k, kind, number⟩ := exists_kindOf (becomes.plain (h.plain plain)) leaves
  rw [← kind?_eq] at kind
  rcases Nat.lt_or_ge depth maxNesting with shallow | deep
  · refine .inl ⟨shallow, ?_⟩
    rcases Statement.resolves_value prepared printed shallow with
      ⟨none, -⟩ | ⟨body, d', _, reduces, root, rfl, valued⟩
    · cases none.symm.trans kind
    · obtain rfl : root.kind = k := Option.some.inj (reduces.kind?_eq.trans kind)
      exact ⟨d', root, ⟨⟨start, tree, body, larger, program_eq, becomes, reduces⟩⟩, number, valued⟩
  · refine .inr ⟨deep, fun root d' valued => ?_⟩
    obtain ⟨_, _, prepared', resolved⟩ := Statement.value_eq_ok_iff.1 valued
    cases prepared.symm.trans prepared'
    obtain ⟨vs, d₁, inside, -⟩ := bind_eq_ok_iff.1 resolved
    exact absurd (depth_lt_of_block printed inside) (Nat.not_lt.2 deep)

end Expression

/-! ### Sessions -/

namespace Session

/-- The value of a written tree in a session. -/
def valueOf (s : Session) (e : Expression Expression.Operand) : Option Datum :=
  e.valueOf (Expression.Operand.datum? s.scope s.store)

/-- The kind of a written tree in a session. -/
def kindOf (s : Session) (e : Expression Expression.Operand) : Option Kind :=
  e.kindOf fun a => (a.datum? s.scope s.store).map Sigma.fst

/-- The name is not bound, or its variable takes the kind. -/
def Takes (s : Session) (target : String) (kind : Option Kind) : Prop :=
  ∀ w, s.scope.find? target = some w → ∃ k, kind = some k ∧ w.kind.takes k = true

end Session

namespace Expression

variable {s : Session} {e : Expression Operand} {d : Draft} {root : Variable}

/-- The variables of the operands hold their values for as long as they keep them. -/
theorem Lowering.datum?_eq (l : Lowering s.scope s.draft d e root) (wellFormed : s.WellFormed)
    {after : Store} (later : l.start.store.Extends after) (a : Operand) (w : Variable)
    (becomes : a.Becomes s.scope s.store l.start.store w) :
    a.datum? s.scope s.store = some (after.datum w) :=
  (becomes.mono (.refl _) later).datum?_eq (l.larger.trans later) wellFormed.bound

theorem Lowering.kindOf_eq (l : Lowering s.scope s.draft d e root) (wellFormed : s.WellFormed) :
    s.kindOf e = some root.kind := by
  have kinds : ∀ (a : Operand) (w : Variable), a.Becomes s.scope s.store l.start.store w →
      (a.datum? s.scope s.store).map Sigma.fst = some w.kind := fun a w becomes =>
    congrArg (Option.map Sigma.fst) (l.datum?_eq wellFormed (.refl _) a w becomes)
  exact (l.becomes.interpret_eq kinds _ _).trans
    ((kind?_eq l.tree).symm.trans l.reduces.kind?_eq.symm)

theorem Lowering.valueOf_eq (l : Lowering s.scope s.draft d e root) (wellFormed : s.WellFormed)
    {after : Store} (later : l.start.store.Extends after) : s.valueOf e = l.tree.value? after :=
  (l.becomes.interpret_eq (l.datum?_eq wellFormed later) _ _).trans (value?_eq after l.tree).symm

theorem Lowering.draft_program (l : Lowering s.scope s.draft d e root) : d.program = l.body := by
  rw [l.reduces.program_eq, l.program_eq]
  rfl

/-- A session `s` compiles the assignment of a tree to a name to a program, and becomes `s'`. -/
structure Assignment (s s' : Session) (target : String) (e : Expression Operand)
    (program : Program) where
  /-- The draft in which the tree is computed. -/
  draft : Draft
  /-- The variable that it is computed into. -/
  root : Variable
  /-- The operations of the tree. -/
  lowering : Lowering s.scope s.draft draft e root
  number : root.kind.isNumber = true
  /-- The variable that it is assigned to. -/
  output : Variable
  /-- The last operation. -/
  copy : Operation
  copied : Operation.copy root output = .ok copy
  program_eq : program = lowering.body ++ [copy]
  later : draft.store.Extends s'.store
  found : s'.scope.find? target = some output
  has : s'.store.Has output.cell
  old_or_new : s.scope.find? target = some output ∨ s.scope.find? target = none ∧
    output.kind = root.kind ∧ ¬ draft.store.Has output.cell

variable {s' : Session} {target : String} {program : Program}

/-- The variable that a tree is computed into is assigned in the place of the tree. -/
theorem Lowering.nonempty_assignment (l : Lowering s.scope s.draft d e root)
    (wellFormed : s.WellFormed) (number : root.kind.isNumber = true) {d' : Draft}
    {declared : Option (String × Variable)}
    (assigned : Statement.assignWhole s.scope target root d = .ok declared d') :
    Nonempty (Assignment s { s with store := d'.store, scope := s.scopeWith declared } target e
      d'.program) := by
  rcases Statement.assignWhole_eq_ok_iff.1 assigned with
    ⟨w, op, found, copied, rfl, rfl⟩ | ⟨op, free, copied, rfl, rfl⟩
  · have has : d.store.Has w.cell :=
      l.reduces.extends.has (l.larger.has (wellFormed.bound target w found))
    exact ⟨⟨d, root, l, number, w, op, copied, congrArg (· ++ [op]) l.draft_program, .refl _,
      found, has, .inl found⟩⟩
  · have bound : (s.scope.insert target (d.fresh root.kind)).find? target =
        some (d.fresh root.kind) := by rw [Bindings.find?_insert, if_pos rfl]
    exact ⟨⟨d, root, l, number, _, op, copied, congrArg (· ++ [op]) l.draft_program,
      d.store.extends_allocate _, bound, d.store.has_allocate _,
      .inr ⟨free, rfl, d.store.not_has_allocate root.kind.blank⟩⟩⟩

/-- A number can be assigned to a name that takes its kind. -/
theorem exists_assignWhole (number : root.kind.isNumber = true)
    (takes : s.Takes target (some root.kind)) (d : Draft) :
    ∃ declared d', Statement.assignWhole s.scope target root d = .ok declared d' := by
  cases found : s.scope.find? target with
  | some w =>
    obtain ⟨k, kind, takes⟩ := takes w found
    obtain rfl : root.kind = k := Option.some.inj kind
    obtain ⟨op, copied⟩ := Operation.exists_copy number takes
    exact ⟨_, _, Statement.assignWhole_eq_ok_iff.2 (.inl ⟨w, op, found, copied, rfl, rfl⟩)⟩
  | none =>
    obtain ⟨op, copied⟩ :=
      @Operation.exists_copy root (d.fresh root.kind) number (Kind.takes_self number)
    exact ⟨_, _, Statement.assignWhole_eq_ok_iff.2 (.inr ⟨op, found, copied, rfl, rfl⟩)⟩

/-- If the name is bound, its variable takes the kind of the tree. -/
theorem Assignment.takes (a : Assignment s s' target e program) {w : Variable}
    (found : s.scope.find? target = some w) : w.kind.takes a.root.kind = true := by
  obtain rfl : a.output = w := by
    rcases a.old_or_new with old | ⟨free, -⟩
    · exact Option.some.inj (old.symm.trans found)
    · cases free.symm.trans found
  rcases @Operation.copy_of_number a.root a.output a.number with ⟨-, cause, failed⟩ | ⟨takes, -⟩
  · cases failed.symm.trans a.copied
  · exact takes

theorem Assignment.copy_output (a : Assignment s s' target e program) :
    a.copy.output = a.output := by
  rcases @Operation.copy_of_number a.root a.output a.number with
    ⟨-, cause, failed⟩ | ⟨-, op, copied, output, -⟩
  · cases failed.symm.trans a.copied
  · cases copied.symm.trans a.copied
    exact output

/-- **What performing an assignment stores**: the value of the tree, if it has one.  Otherwise an
operation fails. -/
theorem Assignment.perform (a : Assignment s s' target e program) (wellFormed : s.WellFormed) :
    (∃ after x, program.perform s'.store = (after, none) ∧ s.valueOf e = some x ∧
      x.1 = a.root.kind ∧ x.into? a.output.kind = some (after.datum a.output)) ∨
    (∃ after cause, program.perform s'.store = (after, some cause) ∧ s.valueOf e = none) := by
  obtain ⟨d, root, l, number, output, copy, copied, rfl, later, -, has, -⟩ := a
  have value := l.valueOf_eq wellFormed (l.reduces.extends.trans later)
  have leaves : l.tree.Allocated l.start.store :=
    l.becomes.forall_leaves fun b _ w becomes => becomes.has l.larger wellFormed.bound
  rw [value, Program.perform_append]
  -- the operations of the tree succeed and leave its value, or the tree has none
  rcases @Reduces.perform _ _ _ _ _ l.reduces leaves s'.store fun v mem => later.has mem with
    ⟨between, ran, same, -⟩ | ⟨between, cause, ran, none⟩
  · rcases @Operation.copy_of_number root output number with
      ⟨-, cause, failed⟩ | ⟨-, op, copied', -, performs⟩
    · cases failed.symm.trans copied
    cases copied'.symm.trans copied
    have there : between.Has output.cell := (Program.has_of_perform ran).2 has
    obtain ⟨after, performed, stored⟩ := performs between there
    refine .inl ⟨after, between.datum root, ?_, same.symm, rfl, stored⟩
    rw [ran]
    exact (Program.perform_cons copy [] between).trans (by rw [performed]; rfl)
  · exact .inr ⟨between, cause, by rw [ran], none⟩

end Expression

namespace Session

open Expression

variable {s : Session} {target source : String} {pieces : List (Symbol ⊕ Operand)}
  {e : Expression Operand} {depth : Nat} {program : Program}

/-- A text that assigns to a whole variable compiles only if its value does and is assigned. -/
theorem exists_of_compile_whole {right : List Token}
    (read : Token.tokenize source = .ok (.word target :: .symbol .assign :: right))
    (cut : Statement.splitAssignment (.word target :: .symbol .assign :: right) =
      .ok ([.word target], right)) (nonempty : right ≠ [])
    (ok : (s.compile source).result = .ok program) : isReserved target = false ∧
      ∃ v d declared d', Statement.value s.scope s.macros right s.draft = .ok v d ∧
        Statement.assignWhole s.scope target v d = .ok declared d' ∧ program = d'.program ∧
        (s.compile source).session = { s with
          store := d'.store
          scope := s.scopeWith declared } := by
  cases isMacro : Token.declareMacro (.word target :: .symbol .assign :: right) with
  | true =>
    -- a declaration has no `=` behind its first word
    obtain ⟨m, declaration, -⟩ := compile_of_declaration read isMacro ok
    cases declaration
  | false =>
    obtain ⟨compiled, d₀, run, rfl, session⟩ := compile_of_statement read isMacro ok
    obtain ⟨unreserved, v, d, declared, d', valued, assigned, rfl, rfl⟩ :=
      (Statement.compile_whole_eq_ok_iff cut nonempty).1 run
    exact ⟨unreserved, v, d, declared, d', valued, assigned, rfl, session⟩

theorem exists_compile_whole {right : List Token}
    (read : Token.tokenize source = .ok (.word target :: .symbol .assign :: right))
    (cut : Statement.splitAssignment (.word target :: .symbol .assign :: right) =
      .ok ([.word target], right)) (nonempty : right ≠ []) (unreserved : isReserved target = false)
    {v : Variable} {declared : Option (String × Variable)} {d d' : Draft}
    (valued : Statement.value s.scope s.macros right s.draft = .ok v d)
    (assigned : Statement.assignWhole s.scope target v d = .ok declared d') :
    ∃ program, (s.compile source).result = .ok program := by
  have notMacro : Token.declareMacro (.word target :: .symbol .assign :: right) = false := by
    simp only [isReserved, Bool.or_eq_false_iff] at unreserved
    exact unreserved.1
  have run := (Statement.compile_whole_eq_ok_iff cut nonempty).2
    ⟨unreserved, v, d, declared, d', valued, assigned, rfl, rfl⟩
  exact ⟨_, (compile_of_ok read notMacro run).1⟩

/-- **Which assignments compile, and to what.** -/
theorem compiles_assignment (wellFormed : s.WellFormed)
    (text : Spells (.inr (.word target) :: .inl .assign :: pieces) source.toList)
    (h : e.Prints 6 false pieces depth) (plain : .inl .transpose ∉ pieces)
    (numbers : ∀ a, .inr a ∈ pieces → a.IsNumber s.scope) :
    ((∃ program, (s.compile source).result = .ok program) ↔
      isReserved target = false ∧ depth < maxNesting ∧ s.Takes target (s.kindOf e)) ∧
    ∀ program, (s.compile source).result = .ok program →
      Nonempty (Assignment s (s.compile source).session target e program) := by
  have read := tokenize_of_spells text h
  have cut := splitAssignment_tokensBy Operand.symbol?_token h target
  have nonempty := tokensBy_ne_nil Operand.token h
  rcases value_operands h plain numbers s.draft with
    ⟨shallow, d', root, ⟨l⟩, number, valued⟩ | ⟨deep, failed⟩
  · have assignment : ∀ program, (s.compile source).result = .ok program →
        isReserved target = false ∧
          Nonempty (Assignment s (s.compile source).session target e program) := by
      intro program ok
      obtain ⟨unreserved, _, _, declared, _, valued', assigned, rfl, session⟩ :=
        exists_of_compile_whole read cut nonempty ok
      cases valued.symm.trans valued'
      rw [session]
      exact ⟨unreserved, l.nonempty_assignment wellFormed number assigned⟩
    refine ⟨⟨?_, ?_⟩, fun program ok => (assignment program ok).2⟩
    · rintro ⟨program, ok⟩
      obtain ⟨unreserved, ⟨a⟩⟩ := assignment program ok
      exact ⟨unreserved, shallow, fun w found =>
        ⟨_, a.lowering.kindOf_eq wellFormed, a.takes found⟩⟩
    · rintro ⟨unreserved, -, takes⟩
      rw [l.kindOf_eq wellFormed] at takes
      obtain ⟨declared, d₁, assigned⟩ := exists_assignWhole number takes d'
      exact exists_compile_whole read cut nonempty unreserved valued assigned
  · have noProgram : ∀ program, (s.compile source).result ≠ .ok program := by
      intro program ok
      obtain ⟨-, v, d, _, _, valued, -⟩ := exists_of_compile_whole read cut nonempty ok
      exact failed v d valued
    refine ⟨⟨?_, ?_⟩, fun program ok => absurd ok (noProgram program)⟩
    · rintro ⟨program, ok⟩
      exact absurd ok (noProgram program)
    · rintro ⟨-, shallow, -⟩
      exact absurd shallow (Nat.not_lt.2 deep)

end Session

end MatrixCalc
