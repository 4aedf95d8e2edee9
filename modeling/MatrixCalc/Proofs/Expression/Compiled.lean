import MatrixCalc.Proofs.Expression.Reading
import MatrixCalc.Proofs.Reachable

/-!
# Compiled expressions

An assignment of an expression to a new variable compiles iff every operator in the expression takes
the kinds of its operands.  Its program consists of one operation for each operator and a last one
that copies the value, and performing it is evaluating the tree.

* `Expression.Evaluates` : what the program of a tree is and does.
* `Session.compile_expression` : **compiling an expression is correct**.
-/

namespace MatrixCalc

open Build MatrixCalc.Group

/-! ### The copy -/

/-- A variable is copied to one of its kind whatever the kind is. -/
theorem Operation.copy_of_kind (v : Variable) (cell : Cell v.kind) : ∃ op,
    copy v ⟨v.kind, cell⟩ = .ok op ∧ op.output = ⟨v.kind, cell⟩ ∧
      ∀ s, op.perform s = .ok (s.write cell (s.read v.cell)) := by
  rcases v with ⟨_ | _ | _ | _, source⟩ <;> exact ⟨_, rfl, rfl, fun _ => rfl⟩

namespace Expression

variable {d d' : Draft} {e e' : Expression Variable} {program : Program}

/-- The outputs of the operations are new and different. -/
theorem Reduces.outputs (h : Reduces d e program d' e') : program.outputs.Nodup ∧
    ∀ v ∈ program.outputs, ¬ d.store.Has v.cell ∧ d'.store.Has v.cell := by
  induction h with
  | refl => exact ⟨List.nodup_nil, nofun⟩
  | @head d _ r _ _ _ program _ rest ih =>
    have larger : d.store.Extends (d.emitting r).store := Store.extends_allocate _ _
    have first : (d.emitting r).store.Has (d.placed r).output.cell := d.store.has_allocate _
    change ((d.placed r).output :: Program.outputs program).Nodup ∧ _
    refine ⟨List.nodup_cons.2 ⟨fun mem => (ih.2 _ mem).1 first, ih.1⟩, fun v mem => ?_⟩
    rcases List.mem_cons.1 mem with rfl | mem
    · exact ⟨d.store.not_has_allocate r.kind.blank, rest.extends.has first⟩
    · exact ⟨fun old => (ih.2 v mem).1 (larger.has old), (ih.2 v mem).2⟩

theorem leaves_map {α β : Type} (f : α → β) (e : Expression α) :
    (e.map f).leaves = e.leaves.map f := by
  induction e with
  | leaf a => rfl
  | unary o x ih => exact ih
  | binary o l r ihl ihr => simp [map, leaves, ihl, ihr]

/-- There is one operation for each operator. -/
theorem Computes.length_eq {v : Variable} (h : Computes e program v) :
    program.length = e.operators := by
  induction h with
  | leaf => rfl
  | unary _ _ _ _ ih => simp [operators, ih]
  | binary _ _ _ _ _ ihl ihr => simp [operators, ihl, ihr, Nat.add_assoc]

/-- The program evaluates a tree and stores the value in `target`.  It consists of one operation for
each operator, whose outputs are new and different, and a last one that copies their result.  At any
time at which its cells exist, it succeeds iff every operator of the tree does. -/
structure Evaluates (before after : Store) (e : Expression Variable) (target : Variable)
    (program : Program) : Prop where
  /-- There is one operation for each operator, and a copy. -/
  operations : ∃ body nodes root copy, program = body ++ [copy] ∧ e.Computes nodes root ∧
    body.Perm nodes ∧ body.length = e.operators ∧ Operation.copy root target = .ok copy
  /-- The outputs are different and new. -/
  outputs : program.outputs.Nodup ∧ ∀ v ∈ program.outputs, ¬ before.Has v.cell
  /-- The program fails iff the tree has no value. -/
  succeeds_iff : ∀ later : Store, (∀ v : Variable, after.Has v.cell → later.Has v.cell) →
    ((program.perform later).2 = none ↔ (e.value? later).isSome = true)
  /-- The program stores the value of the tree. -/
  stores : ∀ later : Store, (∀ v : Variable, after.Has v.cell → later.Has v.cell) → ∀ x,
    e.value? later = some x → (program.perform later).1.datum target = x

/-- The operations of a tree that is reduced to a variable, and a copy of that variable to a new
one. -/
theorem Reduces.evaluates {root : Variable} (h : Reduces d e program d' (leaf root))
    (old : e.Allocated d.store) {copy : Operation}
    (copied : Operation.copy root (d'.fresh root.kind) = .ok copy) :
    Evaluates d.store (d'.allocated root.kind).store e (d'.fresh root.kind)
      (program ++ [copy]) := by
  obtain ⟨nodes, computes, perm⟩ := h.computes
  obtain ⟨distinct, new⟩ := h.outputs
  have larger : d'.store.Extends (d'.allocated root.kind).store := Store.extends_allocate _ _
  have fresh : ¬ d'.store.Has (d'.fresh root.kind).cell := d'.store.not_has_allocate root.kind.blank
  obtain ⟨op, made, output, performed⟩ :=
    Operation.copy_of_kind root (d'.store.allocate root.kind.blank).2
  cases made.symm.trans copied
  -- either all operations succeed, and then so does the copy, or the tree has no value
  have run : ∀ later : Store, (∀ v : Variable, (d'.allocated root.kind).store.Has v.cell →
      later.Has v.cell) → (∃ s', (program ++ [copy]).perform later = (s', none) ∧
        e.value? later = some (s'.datum (d'.fresh root.kind))) ∨
      (∃ s' cause, (program ++ [copy]).perform later = (s', some cause) ∧
        e.value? later = none) := by
    intro later cells
    rcases h.perform old (s := later) fun v mem => cells v (larger.has mem) with
      ⟨s', ran, same, -⟩ | ⟨s', cause, ran, none⟩
    · have target : s'.Has (d'.fresh root.kind).cell :=
        (Program.has_of_perform ran).2 (cells (d'.fresh root.kind) (d'.store.has_allocate _))
      refine .inl ⟨_, by rw [Program.perform_append, ran]; exact
        (Program.perform_cons copy [] s').trans (by rw [performed]; rfl), ?_⟩
      rw [← same]
      exact congrArg (fun x => some (Sigma.mk root.kind x)) (s'.read_write_self target _).symm
    · exact .inr ⟨s', cause, by rw [Program.perform_append, ran], none⟩
  refine ⟨⟨program, nodes, root, copy, rfl, computes, perm, perm.length_eq.trans computes.length_eq,
    copied⟩, ?_, fun later cells => ?_, fun later cells x value => ?_⟩
  · have outputs : (program ++ [copy]).outputs = program.outputs ++ [d'.fresh root.kind] := by
      rw [Program.outputs_append]
      exact congrArg (fun v => program.outputs ++ [v]) output
    rw [outputs]
    refine ⟨List.nodup_append.2 ⟨distinct, by simp, fun v mem w last => ?_⟩, fun v mem => ?_⟩
    · rintro rfl
      obtain rfl := List.mem_singleton.1 last
      exact fresh (new _ mem).2
    · rcases List.mem_append.1 mem with mem | last
      · exact (new v mem).1
      · obtain rfl := List.mem_singleton.1 last
        exact fun old => fresh (h.extends.has old)
  · rcases run later cells with ⟨s', ran, value⟩ | ⟨s', cause, ran, value⟩ <;> simp [ran, value]
  · rcases run later cells with ⟨s', ran, value'⟩ | ⟨s', cause, ran, none⟩
    · rw [ran]
      exact Option.some.inj (value'.symm.trans value)
    · cases none.symm.trans value

end Expression

/-! ### Statements -/

namespace Statement

open Expression

variable {scope : Bindings Variable} {macros : Bindings Macro}

/-- The value of tokens whose items are a printed tree. -/
theorem resolves_value {tokens : List Token} {x : Expression Variable} {d d₁ : Draft}
    {cells : List (Symbol ⊕ Variable)} {depth : Nat}
    (prepared : prepare scope macros tokens d = .ok (itemsOf cells) d₁)
    (h : x.Prints 6 false cells depth) (shallow : depth < maxNesting) :
    Resolves (value scope macros tokens d) d₁ x fun d' x' =>
      ∃ w, x' = leaf w ∧ value scope macros tokens d = .ok w d' := by
  have start : value scope macros tokens d =
      (block maxNesting (itemsOf cells) >>= fun vs =>
        Range.join vs >>= ofOption .nothingToAssign) d₁ := by
    rw [value, bind_eq, prepared]
    dsimp only
    rw [single, bind_assoc]
  refine ((resolves_block h shallow).bind start).mono ?_
  rintro d' _ ⟨_, ⟨w, rfl, rfl⟩, next⟩
  exact ⟨w, rfl, next⟩

/-- An assignment of a printed tree to a new variable: it does not compile, and then some operator
does not take its operands, or the tree is reduced to a variable, which is copied. -/
theorem compile_tokensOf (macros : Bindings Macro) (d : Draft) {e : Expression String}
    {v : String → Variable} {pieces : List (Symbol ⊕ String)} {depth : Nat} {target : String}
    (h : e.Prints 6 false pieces depth) (shallow : depth < maxNesting)
    (bound : ∀ name ∈ e.leaves, scope.find? name = some (v name))
    (free : scope.find? target = none) (unreserved : isReserved target = false) :
    ((e.map v).kind? = none ∧ ∀ compiled d', compile scope macros
      (.word target :: .symbol .assign :: tokensBy Token.word pieces) d ≠ .ok compiled d') ∨
    ∃ program d' root copy d'', Reduces d (e.map v) program d' (leaf root) ∧
      Operation.copy root (d'.fresh root.kind) = .ok copy ∧
      compile scope macros (.word target :: .symbol .assign :: tokensBy Token.word pieces) d =
        .ok ⟨d'.program ++ [copy], some (target, d'.fresh root.kind)⟩ d'' ∧
      d''.store = (d'.allocated root.kind).store := by
  have plain : ∀ name, symbol? (Token.word name) = none := fun _ => rfl
  have cut := splitAssignment_tokensBy plain h target
  have nonempty := tokensBy_ne_nil Token.word h
  rcases resolves_value (prepare_tokensOf h bound) (h.map v) shallow with
    ⟨none, cause, d', failed⟩ | ⟨program, d', _, reduces, root, rfl, valued⟩
  · refine .inl ⟨none, fun compiled d'' ok => ?_⟩
    obtain ⟨-, w, d₁, _, _, valued, -⟩ := (compile_whole_eq_ok_iff cut nonempty).1 ok
    cases failed.symm.trans valued
  · obtain ⟨copy, copied, -, -⟩ :=
      Operation.copy_of_kind root (d'.store.allocate root.kind.blank).2
    have assigned := (@assignWhole_eq_ok_iff _ _ _ target root _).2
      (.inr ⟨copy, free, copied, rfl, rfl⟩)
    exact .inr ⟨program, d', root, copy, _, reduces, copied,
      (compile_whole_eq_ok_iff cut nonempty).2
        ⟨unreserved, root, d', _, _, valued, assigned, rfl, rfl⟩, rfl⟩

end Statement

/-! ### Sessions -/

open Expression

/-- **Compiling an expression is correct.**  The expression is a tree over names of variables, in
the layout of `Expression.write` or any other with the same tokens, and it is assigned to a new
name.  The statement compiles iff every operator of the tree takes the kinds of its operands.  Then
its program consists of one operation for each operator, which reads what the operations of its
operands write, and a copy; at any later time it succeeds iff every operator succeeds, and it
stores the value of the tree. -/
theorem Session.compile_expression {h : History} (reachable : h.Reachable) {e : Expression String}
    {v : String → Variable}
    (bound : ∀ name ∈ e.leaves, h.session.scope.find? name = some (v name))
    (shallow : e.nesting < maxNesting) {target : String}
    (free : h.session.scope.find? target = none) (named : bindable target = true) :
    Token.tokenize (target ++ " = " ++ e.text) =
      .ok (.word target :: .symbol .assign :: e.tokens) ∧
    ∀ source, Token.tokenize source = .ok (.word target :: .symbol .assign :: e.tokens) →
      ((∃ program, (h.session.compile source).result = .ok program) ↔
        ∃ kind, (e.map v).kind? = some kind) ∧
      ∀ program, (h.session.compile source).result = .ok program → ∃ w : Variable,
        (h.session.compile source).session.scope = h.session.scope.insert target w ∧
        (e.map v).kind? = some w.kind ∧
        Evaluates h.session.store (h.session.compile source).session.store (e.map v) w program := by
  obtain ⟨unreserved, word⟩ : isReserved target = false ∧ isIdentifier target = true := by
    simpa [bindable] using named
  have words : ∀ name ∈ e.leaves, isIdentifier name = true := by
    intro name mem
    have := reachable.wellFormed.named name _ (bound name mem)
    simp only [bindable, Bool.and_eq_true] at this
    exact this.2
  have old : (e.map v).Allocated h.session.store := by
    intro w mem
    rw [leaves_map] at mem
    obtain ⟨name, inTree, rfl⟩ := List.mem_map.1 mem
    exact reachable.wellFormed.bound name _ (bound name inTree)
  refine ⟨tokenize_assignment word words, fun source read => ?_⟩
  have notMacro : Token.declareMacro (.word target :: .symbol .assign :: e.tokens) = false := by
    simp only [isReserved, Bool.or_eq_false_iff] at unreserved
    exact unreserved.1
  rcases Statement.compile_tokensOf h.session.macros h.session.draft (prints_write 6 false e)
      shallow bound free unreserved with
    ⟨none, failed⟩ | ⟨program, d', root, copy, d'', reduces, copied, ok, store⟩
  · have noProgram : ∀ program, (h.session.compile source).result ≠ .ok program := by
      intro program ok
      obtain ⟨compiled, d', run, -, -⟩ := compile_of_statement read notMacro ok
      exact failed compiled d' run
    refine ⟨⟨?_, ?_⟩, fun program ok => absurd ok (noProgram program)⟩
    · rintro ⟨program, ok⟩
      exact absurd ok (noProgram program)
    · rintro ⟨kind, found⟩
      cases none.symm.trans found
  · obtain ⟨result, session⟩ := compile_of_ok read notMacro ok
    have kind : (e.map v).kind? = some root.kind := reduces.kind?_eq.symm
    refine ⟨⟨fun _ => ⟨_, kind⟩, fun _ => ⟨_, result⟩⟩, fun program' ok' => ?_⟩
    cases result.symm.trans ok'
    have whole : d'.program ++ [copy] = program ++ [copy] := by
      rw [reduces.program_eq]
      rfl
    refine ⟨d'.fresh root.kind, by rw [session]; rfl, kind, ?_⟩
    rw [session, store, whole]
    exact reduces.evaluates old copied

/-- A product with the negative of a power of a sum. -/
theorem Session.compile_expression_of_product : ∃ (h : History) (e : Expression String)
    (v : String → Variable) (program : Program) (w : Variable), h.Reachable ∧
    (∀ name ∈ e.leaves, h.session.scope.find? name = some (v name)) ∧ e.nesting < maxNesting ∧
    h.session.scope.find? "t" = none ∧ bindable "t" = true ∧
    "t" ++ " = " ++ e.text = "t = n*-(n+n)^n" ∧
    (h.session.compile "t = n*-(n+n)^n").result = .ok program ∧
    program.names = ["add-ii", "pow-ss", "neg-s", "multiply-ss", "copy-ss"] ∧ w.kind = .double ∧
    Evaluates h.session.store (h.session.compile "t = n*-(n+n)^n").session.store (e.map v) w
      program := by
  let s : Session := { store := { integers := #[3] }, scope := ⟨[("n", ⟨.integer, ⟨0⟩⟩)]⟩ }
  let n : Expression String := .leaf "n"
  let e : Expression String := .binary .times n
    (.unary .negate (.binary .power (.binary .plus n n) n))
  let v : String → Variable := fun _ => ⟨.integer, ⟨0⟩⟩
  have defined : @Session.define {} .integer "n" 3 = .ok s := by rfl
  have reachable : History.Reachable { session := s } :=
    .single (@History.Step.define {} .integer "n" 3 s nofun defined)
  have bound : ∀ name ∈ e.leaves, s.scope.find? name = some (v name) := by decide +kernel
  have free : s.scope.find? "t" = none := by decide +kernel
  have named : bindable "t" = true := by decide +kernel
  have text : "t" ++ " = " ++ e.text = "t = n*-(n+n)^n" := by decide +kernel
  obtain ⟨read, correct⟩ :=
    compile_expression reachable bound (by decide) free named
  rw [text] at read
  obtain ⟨compiles, evaluates⟩ := correct _ read
  obtain ⟨program, ok⟩ := compiles.2 ⟨.double, by decide⟩
  obtain ⟨w, -, kind, done⟩ := evaluates program ok
  have names : (s.compile "t = n*-(n+n)^n").result.toOption.map Program.names =
      some ["add-ii", "pow-ss", "neg-s", "multiply-ss", "copy-ss"] := by
    decide +kernel
  rw [ok] at names
  have double : (e.map v).kind? = some .double := by decide
  exact ⟨{ session := s }, e, v, program, w, reachable, bound, by decide, free, named, text, ok,
    Option.some.inj names, Option.some.inj (kind.symm.trans double), done⟩

end MatrixCalc
