import MatrixCalc.Proofs.Private

/-!
# What performing writes

A compiled statement ends in the one operation that writes its target; the operations before it
write cells of their own.  So performing it changes the target and nothing else that was there
before, no literal is ever overwritten, and a performance that stops half-way has not touched the
target.

* `Program.perform_concat_of_error` : a program that fails has not done its last operation.
* `Statement.target_of_compile` : the last operation writes what the name of the target is bound to.
* `Program.Framed` : what a program may write, in every store.
* `Session.perform_framed` : **compiled programs are framed and atomic**, then and later.
-/

namespace MatrixCalc

/-! ### Programs that stop -/

namespace Program

variable {init : Program} {op : Operation} {s : Store}

/-- A program that fails has not done its last operation. -/
theorem perform_concat_of_error {e : Error} (failed : (perform (init ++ [op]) s).2 = some e) :
    (perform (init ++ [op]) s).1 = (perform init s).1 := by
  rw [perform_append] at failed ⊢
  cases run : perform init s with
  | mk after stop =>
    rw [run] at failed
    cases stop with
    | some e' => rfl
    | none =>
      show (perform [op] after).1 = after
      have last : (perform [op] after).2 = some e := failed
      rw [perform_cons] at last ⊢
      cases done : op.perform after with
      | ok after' =>
        rw [done] at last
        cases last
      | error e' => rfl

/-- **A program that is framed and atomic.**  It was compiled from the store `before` to the store
`after`; the cells of `literals` hold the literals of the statement, and `target` is what it
assigns to. -/
structure Framed (before after : Store) (literals : List Variable) (target : Variable)
    (program : Program) : Prop where
  /-- An operation writes the target or a new cell. -/
  outputs : ∀ v ∈ program.outputs, v = target ∨ after.Has v.cell ∧ ¬ before.Has v.cell
  /-- No operation writes a literal. -/
  literals_kept : ∀ v ∈ literals, v ∉ program.outputs
  /-- The literals, and all cells but the target that are not new, hold after performing what they
  held before it. -/
  frame : ∀ s v, v ∈ literals ∨ v ≠ target ∧ (before.Has v.cell ∨ ¬ after.Has v.cell) →
    (program.perform s).1.read v.cell = s.read v.cell
  /-- After a failure, also the target holds what it held before. -/
  atomic : ∀ s e, (program.perform s).2 = some e →
    (program.perform s).1.read target.cell = s.read target.cell
  /-- No cell is created. -/
  count : ∀ s kind, (program.perform s).1.count kind = s.count kind

theorem count_perform (program : Program) (s : Store) (kind : Kind) :
    (program.perform s).1.count kind = s.count kind := by
  induction program generalizing s with
  | nil => rfl
  | cons op program ih =>
    rw [perform_cons]
    cases run : op.perform s with
    | ok s' =>
      obtain ⟨value, -, rfl⟩ := Operation.perform_eq_ok_iff.1 run
      rw [ih, Store.count_write]
    | error e => rfl

/-- Writing new cells, then the target, makes a program framed and atomic. -/
theorem framed_concat {before after : Store} {literals : List Variable}
    (new : ∀ v ∈ outputs init, after.Has v.cell ∧ ¬ before.Has v.cell ∧ v ≠ op.output)
    (kept : ∀ v ∈ literals, v ∉ outputs (init ++ [op])) :
    Framed before after literals op.output (init ++ [op]) := by
  have written : ∀ v ∈ outputs (init ++ [op]),
      v = op.output ∨ after.Has v.cell ∧ ¬ before.Has v.cell := by
    intro v mem
    rw [outputs_append] at mem
    rcases List.mem_append.1 mem with mem | mem
    · exact .inr ⟨(new v mem).1, (new v mem).2.1⟩
    · exact .inl (List.mem_singleton.1 mem)
  refine ⟨written, kept, fun s v which => ?_, fun s e failed => ?_, count_perform _⟩
  · -- what is kept is not written
    refine read_perform fun mem => ?_
    rcases which with literal | ⟨other, old⟩
    · exact kept v literal mem
    · rcases written v mem with rfl | ⟨there, created⟩
      · exact other rfl
      · exact old.elim created fun missing => missing there
  · rw [perform_concat_of_error failed]
    exact read_perform fun mem => (new op.output mem).2.2 rfl

end Program

/-! ### The target of a statement -/

namespace Statement

variable {scope : Bindings Variable} {macros : Bindings Macro} {d d' : Draft}

/-- The last operation of a statement writes what the name of its target is bound to, or what is
bound to this name from then on. -/
theorem target_of_compile {tokens : List Token} {compiled : Compiled}
    (run : compile scope macros tokens d = .ok compiled d') : ∃ left right name init op,
      splitAssignment tokens = .ok (left, right) ∧ targetName left = .ok name ∧
      compiled.program = init ++ [op] ∧
      (compiled.declared = none ∧ scope.find? name = some op.output ∨
        compiled.declared = some (name, op.output)) := by
  obtain ⟨left, right, name, v, d₁, declared, d₂, cut, -, named, -, assigned, rfl, rfl⟩ :=
    compile_eq_ok_iff.1 run
  refine ⟨left, right, name, ?_⟩
  rcases assign_eq_ok_iff.1 assigned with ⟨-, whole⟩ | ⟨-, rfl, places⟩
  · rcases assignWhole_eq_ok_iff.1 whole with ⟨target, op, found, copied, rfl, rfl⟩ |
      ⟨op, -, copied, rfl, rfl⟩
    · obtain ⟨-, rfl⟩ := operands_of_copy copied
      exact ⟨d₁.program, op, cut, named, rfl, .inl ⟨rfl, found⟩⟩
    · have output := (operands_of_copy copied).2
      exact ⟨d₁.program, op, cut, named, rfl, .inr (by rw [output])⟩
  · obtain ⟨m, inside, items, e, address, e₁, op, found, -, -, -, inserted, rfl⟩ :=
      assignPlaces_eq_ok_iff.1 places
    have output := (operands_of_insert inserted).2
    exact ⟨e₁.program, op, cut, named, rfl, .inl ⟨rfl, by rw [output, found]⟩⟩

end Statement

/-! ### Sessions -/

namespace Session

/-- What is bound after a statement was bound before, or the program of the statement writes it. -/
theorem bound_of_statement {s : Session} {tokens : List Token} {compiled : Compiled} {d : Draft}
    (run : Statement.compile s.scope s.macros tokens s.draft = .ok compiled d) {name : String}
    {v : Variable} (found : (s.scopeWith compiled.declared).find? name = some v) :
    s.scope.find? name = some v ∨ v ∈ compiled.program.outputs := by
  obtain ⟨-, -, target, init, op, -, -, split, whole | whole⟩ := Statement.target_of_compile run
  · rw [whole.1] at found
    exact .inl found
  · rw [whole] at found
    have found : (s.scope.insert target op.output).find? name = some v := found
    rw [Bindings.find?_insert] at found
    by_cases same : name = target
    · rw [if_pos same] at found
      obtain rfl := Option.some.inj found
      rw [split, Program.outputs_append]
      exact .inr (List.mem_append_right _ (List.mem_singleton.2 rfl))
    · rw [if_neg same] at found
      exact .inl found

/-- The last operation of a statement writes what the name of its target is bound to from then
on. -/
theorem target_of_statement {s : Session} {tokens : List Token} {compiled : Compiled} {d : Draft}
    (run : Statement.compile s.scope s.macros tokens s.draft = .ok compiled d) :
    ∃ left right name init op, Statement.splitAssignment tokens = .ok (left, right) ∧
      Statement.targetName left = .ok name ∧ compiled.program = init ++ [op] ∧
      (s.scopeWith compiled.declared).find? name = some op.output := by
  obtain ⟨left, right, name, init, op, cut, named, split, bound⟩ := Statement.target_of_compile run
  refine ⟨left, right, name, init, op, cut, named, split, ?_⟩
  rcases bound with ⟨whole, found⟩ | whole
  · rw [whole]
    exact found
  · rw [whole]
    show (s.scope.insert name op.output).find? name = some op.output
    rw [Bindings.find?_insert, if_pos rfl]

/-- A statement compiles to a framed program, whose target is bound to the name that the statement
starts with. -/
theorem framed_of_statement {s : Session} (wellFormed : s.WellFormed) {tokens : List Token}
    {compiled : Compiled} {d : Draft}
    (run : Statement.compile s.scope s.macros tokens s.draft = .ok compiled d) :
    ∃ left right name target literals, Statement.splitAssignment tokens = .ok (left, right) ∧
      Statement.targetName left = .ok name ∧
      (s.scopeWith compiled.declared).find? name = some target ∧
      Statement.Literals s.macros tokens d.store literals ∧
      SingleAssignment s.store d.store literals compiled.program ∧
      compiled.program.Framed s.store d.store literals target := by
  obtain ⟨left, right, name, init, op, cut, named, split, found⟩ := target_of_statement run
  obtain ⟨init', op', split', new, -⟩ :=
    Statement.outputs_of_compile wellFormed.bound wellFormed.closed run
  obtain ⟨-, -, literals, numbers, linear⟩ :=
    Statement.singleAssignment_of_compile wellFormed.bound wellFormed.closed run
  obtain ⟨rfl, same⟩ := List.append_inj' (split.symm.trans split') rfl
  obtain rfl := List.singleton_inj.1 same
  refine ⟨left, right, name, op.output, literals, cut, named, found, numbers, linear, ?_⟩
  have kept : ∀ v ∈ literals, v ∉ Program.outputs compiled.program := by
    intro v literal mem
    obtain ⟨o, member, rfl⟩ := List.mem_map.1 mem
    exact linear.literals_kept o member literal
  rw [split] at kept ⊢
  exact Program.framed_concat new kept

/-- **Performing is framed and atomic.**  Of the cells that a compiled statement did not create,
performing it writes the target only, which is what the name of the target is bound to; it writes no
literal; and if it fails, the target holds what it held.  This is so in every store, whatever names
are bound to its cells and however often the program has been performed.  In all that follows, no
other program writes a literal of the statement either. -/
theorem perform_framed {h : History} (reachable : h.Reachable) {source : String}
    {program : Program} (ok : (h.session.compile source).result = .ok program) :
    ∃ tokens, Token.tokenize source = .ok tokens ∧
      (Token.declareMacro tokens = true ∧ program = [] ∨
        Token.declareMacro tokens = false ∧ ∃ left right name target literals,
          Statement.splitAssignment tokens = .ok (left, right) ∧
          Statement.targetName left = .ok name ∧
          (h.session.compile source).session.scope.find? name = some target ∧
          Statement.Literals h.session.macros tokens (h.session.compile source).session.store
            literals ∧
          program.Framed h.session.store (h.session.compile source).session.store literals target ∧
          ∀ h', Relation.ReflTransGen History.Step (h.compile source) h' →
            ∀ p ∈ h'.programs, ∀ v ∈ literals, v ∉ p.outputs) := by
  have wellFormed := reachable.wellFormed
  cases compilesTo_of_ok ok with
  | declaration read isMacro => exact ⟨_, read, .inl ⟨isMacro, rfl⟩⟩
  | @statement tokens compiled d read notMacro run session =>
    refine ⟨tokens, read, .inr ⟨notMacro, ?_⟩⟩
    obtain ⟨left, right, name, target, literals, cut, named, found, numbers, linear, framed⟩ :=
      framed_of_statement wellFormed run
    have compiledTo : (h.session.compile source).session.store = d.store := by rw [session]
    have scope : (h.session.compile source).session.scope =
        h.session.scopeWith compiled.declared := by rw [session]
    refine ⟨left, right, name, target, literals, cut, named, by rw [scope, found],
      compiledTo ▸ numbers, compiledTo ▸ framed, fun h' steps p known v literal mem => ?_⟩
    obtain ⟨has, new⟩ := linear.literals_new v literal
    -- no name is bound to a literal: it is new, and the program does not write it
    have unbound : ∀ other, (h.session.compile source).session.scope.find? other ≠ some v := by
      intro other found
      rw [scope] at found
      rcases bound_of_statement run found with old | mem
      · exact new (wellFormed.bound other v old)
      · exact framed.literals_kept v literal mem
    have own := reachable.private_of_compile ok (compiledTo ▸ has) new unbound
    have writes := (own.later (reachable.tail (.compile source)) steps).1.writers p known mem
    subst writes
    exact framed.literals_kept v literal mem

/-- Places of a matrix are assigned a quotient, whose divisor is zero when it is performed. -/
theorem perform_framed_of_division : ∃ (h : History) (program : Program), h.Reachable ∧
    (h.session.compile "b(0) = 7 / n + 1").result = .ok program ∧
    program.names = ["divide-ii", "add-ii", "copyR"] ∧
    (program.perform (h.session.compile "b(0) = 7 / n + 1").session.store).2.isSome = true ∧
    ∃ tokens, Token.tokenize "b(0) = 7 / n + 1" = .ok tokens ∧
      (Token.declareMacro tokens = true ∧ program = [] ∨
        Token.declareMacro tokens = false ∧ ∃ left right name target literals,
          Statement.splitAssignment tokens = .ok (left, right) ∧
          Statement.targetName left = .ok name ∧
          (h.session.compile "b(0) = 7 / n + 1").session.scope.find? name = some target ∧
          Statement.Literals h.session.macros tokens
            (h.session.compile "b(0) = 7 / n + 1").session.store literals ∧
          program.Framed h.session.store (h.session.compile "b(0) = 7 / n + 1").session.store
            literals target ∧
          ∀ h', Relation.ReflTransGen History.Step (h.compile "b(0) = 7 / n + 1") h' →
            ∀ p ∈ h'.programs, ∀ v ∈ literals, v ∉ p.outputs) := by
  let b : Matrix := .ofFn 1 3 fun _ j => j.toFloat
  let s : Session := { store := { integers := #[0] }, scope := ⟨[("n", ⟨.integer, ⟨0⟩⟩)]⟩ }
  let s' : Session :=
    { store := { integers := #[0], matrices := #[b] }
      scope := ⟨[("b", ⟨.matrix, ⟨0⟩⟩), ("n", ⟨.integer, ⟨0⟩⟩)]⟩ }
  have first : @define {} .integer "n" 0 = .ok s := by rfl
  have second : @define s .matrix "b" b = .ok s' := by rfl
  have reachable : History.Reachable { session := s' } :=
    (Relation.ReflTransGen.single (@History.Step.define {} .integer "n" 0 s nofun first)).tail
      (@History.Step.define { session := s } .matrix "b" b s' nofun second)
  have names : (s'.compile "b(0) = 7 / n + 1").result.toOption.map Program.names =
      some ["divide-ii", "add-ii", "copyR"] := by decide +kernel
  have fails : (s'.compile "b(0) = 7 / n + 1").result.toOption.map (fun program =>
      (program.perform (s'.compile "b(0) = 7 / n + 1").session.store).2.isSome) = some true := by
    decide +kernel
  cases ok : (s'.compile "b(0) = 7 / n + 1").result with
  | error e =>
    rw [ok] at names
    cases names
  | ok program =>
    rw [ok] at names fails
    exact ⟨{ session := s' }, program, reachable, ok, Option.some.inj names,
      Option.some.inj fails, perform_framed reachable ok⟩

end Session

end MatrixCalc
