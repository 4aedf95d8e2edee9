import MatrixCalc.Proofs.Dataflow
import MatrixCalc.Proofs.Literals.Checked
import MatrixCalc.Proofs.Recompilation.Later

/-!
# Open ranges in matrix literals

A range without an end means something only against a size, and a matrix literal has none to give.
The check of a literal is made once, when it is compiled, but its blocks are laid out whenever it is
performed.  A block that the statement has made itself stays closed for ever.  A block that is a
bound variable may be given an open range in the meantime, and then the literal lays it out against
the size zero.

* `History.Reachable.open_block_iff` : **when a literal meets an open range**.
* `Session.open_literal` : such a literal succeeds.
-/

namespace MatrixCalc

open MatrixCalc.Group

namespace Session

variable {s : Session} {source : String} {program : Program}

/-- The blocks of literals in a compiled text exist, have a name if they are old, and are closed. -/
theorem checked_of_compile (wellFormed : s.WellFormed)
    (ok : (s.compile source).result = .ok program) : ∀ op ∈ program, ∀ v ∈ op.term.blocks,
      s.Admits (s.compile source).session.store v ∧
        needsSize (s.compile source).session.store v = false := by
  cases compilesTo_of_ok ok with
  | declaration => exact fun _ mem => absurd mem List.not_mem_nil
  | statement _ _ run session =>
    obtain ⟨checked, emitted⟩ := Statement.checked_of_compile wellFormed.bound run
    rw [session, ← emitted]
    exact checked.blocks

/-- Only the last operation may write a sequence. -/
theorem kind_of_intermediate (wellFormed : s.WellFormed)
    (ok : (s.compile source).result = .ok program) :
    ∀ v ∈ Program.outputs program.dropLast, v.kind ≠ .sequence := by
  cases compilesTo_of_ok ok with
  | declaration => exact fun _ mem => absurd mem List.not_mem_nil
  | statement _ _ run => exact Statement.kind_of_intermediate wellFormed.bound wellFormed.closed run

/-- What a text introduces is written by its program. -/
theorem mem_outputs_of_new_name (ok : (s.compile source).result = .ok program)
    (wellFormed : s.WellFormed) {name : String} {v : Variable}
    (found : (s.compile source).session.scope.find? name = some v)
    (new : s.scope.find? name ≠ some v) : v ∈ program.outputs := by
  cases compilesTo_of_ok ok with
  | declaration _ _ _ _ session =>
    rw [session] at found
    exact absurd found new
  | statement _ _ run session =>
    rw [session] at found
    obtain ⟨init, op, split, -, last⟩ :=
      Statement.outputs_of_compile wellFormed.bound wellFormed.closed run
    rcases find?_scopeWith found with declared | before
    · rcases last with ⟨none, -⟩ | ⟨-, -, target, declared'⟩
      · cases declared.symm.trans none
      · cases declared.symm.trans declared'
        rw [split, Program.outputs_append]
        exact List.mem_append_right _ (List.mem_singleton.2 rfl)
    · exact absurd before new

end Session

/-! ### Blocks in a program -/

/-- The blocks of a literal are its operands. -/
theorem Term.mem_operands_of_block {kind : Kind} {t : Term kind} {v : Variable}
    (h : v ∈ t.blocks) : v ∈ t.operands := by
  cases t
  case literal => exact h
  all_goals cases h

/-- What stands in front of an operation is not the last of the program. -/
theorem Program.subset_dropLast {program before after : Program} {op : Operation}
    (split : program = before ++ op :: after) : ∀ o ∈ before, o ∈ program.dropLast := by
  intro o mem
  rw [split, List.dropLast_append_of_ne_nil (List.cons_ne_nil op after)]
  exact List.mem_append_left _ mem

namespace History

variable {h h' : History} {source : String} {program before after : Program} {op : Operation}
  {v : Variable}

/-- The program does not write the sequences among the blocks that it has made itself. -/
theorem Reachable.unwritten_of_block (reachable : h.Reachable)
    (ok : (h.session.compile source).result = .ok program)
    (split : program = before ++ op :: after) (block : v ∈ op.term.blocks)
    (kind : v.kind = .sequence) (new : ¬ h.session.store.Has v.cell) : v ∉ program.outputs := by
  have wellFormed := reachable.wellFormed
  have nonempty : program ≠ [] := by simp [split]
  obtain ⟨_, literals, -, -, linear⟩ := Session.compile_dataflow reachable ok nonempty
  have read : v ∈ (h.session.compile source).session.store.reads op.term :=
    Store.mem_reads_of_operand _ (Term.mem_operands_of_block block)
  rcases linear.reads_defined before op after split v read new with
    literal | ⟨-, unwritten⟩ | computed
  · intro mem
    obtain ⟨o, member, rfl⟩ := List.mem_map.1 mem
    exact linear.literals_kept o member literal
  · exact unwritten
  · obtain ⟨o, member, rfl⟩ := List.mem_map.1 computed
    exact absurd kind (Session.kind_of_intermediate wellFormed ok _
      (List.mem_map_of_mem (Program.subset_dropLast split o member)))

/-- A sequence among the blocks that has no name keeps what it held. -/
theorem Reachable.read_block (reachable : h.Reachable)
    (ok : (h.session.compile source).result = .ok program)
    (later : Relation.ReflTransGen Step (h.compile source) h')
    (split : program = before ++ op :: after) (block : v ∈ op.term.blocks)
    (kind : v.kind = .sequence) (nameless : ∀ name, h.session.scope.find? name ≠ some v) :
    h'.session.store.read v.cell = (h.session.compile source).session.store.read v.cell := by
  have wellFormed := reachable.wellFormed
  have mem : op ∈ program := by simp [split]
  obtain ⟨⟨has, named⟩, -⟩ := Session.checked_of_compile wellFormed ok op mem v block
  have new : ¬ h.session.store.Has v.cell := fun old =>
    (named old).elim fun name found => nameless name found
  have unwritten := reachable.unwritten_of_block ok split block kind new
  have isolated : (h.compile source).Private program v :=
    reachable.private_of_compile ok has new fun name found =>
      unwritten (Session.mem_outputs_of_new_name ok wellFormed found (nameless name))
  rw [← compile_session]
  exact (isolated.later (reachable.tail (.compile source)) later).2 unwritten

/-- **When a literal meets an open range.**  A text is compiled, other things are done with the
session, and then its program is performed up to a literal.  All blocks of the literal were closed
when the text was compiled.  A block is an open range now iff some name was bound to it then, and it
has been given an open range since. -/
theorem Reachable.open_block_iff (reachable : h.Reachable)
    (ok : (h.session.compile source).result = .ok program)
    (later : Relation.ReflTransGen Step (h.compile source) h')
    (split : program = before ++ op :: after) (block : v ∈ op.term.blocks) :
    needsSize (h.compile source).session.store v = false ∧
      (needsSize (before.perform h'.session.store).1 v = true ↔
        (∃ name, h.session.scope.find? name = some v) ∧
          needsSize h'.session.store v = true) := by
  have wellFormed := reachable.wellFormed
  have mem : op ∈ program := by simp [split]
  obtain ⟨-, closed⟩ := Session.checked_of_compile wellFormed ok op mem v block
  rw [compile_session]
  refine ⟨closed, ?_⟩
  by_cases kind : v.kind = .sequence
  · -- the operations before the literal write no sequence
    have unwritten : v ∉ Program.outputs before := by
      intro computed
      obtain ⟨o, member, rfl⟩ := List.mem_map.1 computed
      exact Session.kind_of_intermediate wellFormed ok _
        (List.mem_map_of_mem (Program.subset_dropLast split o member)) kind
    rw [needsSize_congr (Program.read_perform unwritten)]
    refine ⟨fun opened => ⟨?_, opened⟩, And.right⟩
    by_contra nameless
    rw [not_exists] at nameless
    rw [needsSize_congr (reachable.read_block ok later split block kind nameless), closed] at opened
    cases opened
  · constructor
    · exact fun opened => absurd (kind_of_needsSize opened) kind
    · exact fun opened => absurd (kind_of_needsSize opened.2) kind

/-- A literal of a variable and a range of its own, after the variable has been given the range from
`n` on. -/
theorem open_block_of_variable : ∃ (h h' : History) (op : Operation) (after : Program),
    h.Reachable ∧ (h.session.compile "y = [p, 1:n]").result = .ok (op :: after) ∧
    Relation.ReflTransGen Step (h.compile "y = [p, 1:n]") h' ∧
    op.term.blocks = [⟨.sequence, ⟨0⟩⟩, ⟨.sequence, ⟨1⟩⟩] ∧
    needsSize (Program.perform [] h'.session.store).1 ⟨.sequence, ⟨0⟩⟩ = true ∧
    needsSize (Program.perform [] h'.session.store).1 ⟨.sequence, ⟨1⟩⟩ = false := by
  let h : History := { session := Session.sample 3 (.listed [⟨0⟩]) }
  let h' : History := h.revise "y = [p, 1:n]" ⟨.sequence, ⟨0⟩⟩ (.span (some ⟨0⟩) none)
  let program := h.session.programOf "y = [p, 1:n]"
  have reachable : h.Reachable := Session.reachable_sample 3 (by simp [IndexSequence.cells])
  have ok := @Session.result_eq_programOf h.session "y = [p, 1:n]" (by decide +kernel)
  have later : Relation.ReflTransGen Step (h.compile "y = [p, 1:n]") h' :=
    @steps_revise _ _ _ _ "p" (Session.find?_of_compile rfl) (by
      intro c mem
      obtain rfl : c = ⟨0⟩ := by simpa [Kind.cellsOf, IndexSequence.cells] using mem
      change 0 < Store.count _ _
      decide +kernel)
  have first : program.head?.map (fun op => op.term.blocks) =
      some [⟨.sequence, ⟨0⟩⟩, ⟨.sequence, ⟨1⟩⟩] := by
    decide +kernel
  have closed : needsSize h'.session.store ⟨.sequence, ⟨1⟩⟩ = false := by decide +kernel
  change _ = Except.ok program at ok
  cases whole : program with
  | nil =>
    rw [whole] at first
    cases first
  | cons op after =>
    rw [whole] at ok first
    have blocks : op.term.blocks = [⟨.sequence, ⟨0⟩⟩, ⟨.sequence, ⟨1⟩⟩] := Option.some.inj first
    have variable' := (reachable.open_block_iff ok later (List.nil_append _).symm
      (v := ⟨.sequence, ⟨0⟩⟩) (by simp [blocks])).2
    have range := (reachable.open_block_iff ok later (List.nil_append _).symm
      (v := ⟨.sequence, ⟨1⟩⟩) (by simp [blocks])).2
    refine ⟨h, h', op, after, reachable, ok, later, blocks,
      variable'.2 ⟨⟨"p", by decide +kernel⟩, by decide +kernel⟩, ?_⟩
    by_contra opened
    rw [Bool.not_eq_false] at opened
    exact Bool.false_ne_true (closed.symm.trans (range.1 opened).2)

end History

namespace Session

/-- **An open range becomes a block without elements.**  A literal of the variable `p` is compiled
while `p` is closed; then `p` is assigned the range from one on.  The literal still succeeds, and
lays the range out as if it were empty. -/
theorem open_literal : ∃ (h h' : History) (op : Operation) (after : Program) (v : Variable)
    (m : Matrix), h.Reachable ∧ (h.session.compile "y = [p]").result = .ok (op :: after) ∧
    Relation.ReflTransGen History.Step (h.compile "y = [p]") h' ∧
    h'.session.scope.find? "p" = some v ∧ v ∈ op.term.blocks ∧
    needsSize h'.session.store v = true ∧
    (h'.session.perform (op :: after)).result = .ok () ∧
    (h'.session.perform (op :: after)).session.content? .matrix "y" = some m ∧
    m.shape = ⟨1, 0⟩ := by
  let h : History := { session := sample 1 (.listed [⟨0⟩]) }
  let h' : History := (h.compile "y = [p]").process "p = 1:"
  let program := h.session.programOf "y = [p]"
  have reachable : h.Reachable := reachable_sample 1 (by simp [IndexSequence.cells])
  have ok := @result_eq_programOf h.session "y = [p]" (by decide +kernel)
  have later : Relation.ReflTransGen History.Step (h.compile "y = [p]") h' :=
    .head (.compile "p = 1:") (.single (History.step_process (by decide +kernel)))
  have first : program.head?.map (fun op => op.term.blocks) = some [⟨.sequence, ⟨0⟩⟩] := by
    decide +kernel
  have shape : ((h'.session.perform program).session.content? .matrix "y").map Matrix.shape =
      some ⟨1, 0⟩ := by
    decide +kernel
  have succeeds : (program.perform h'.session.store).2.isNone = true := by decide +kernel
  obtain ⟨m, content, rows⟩ := Option.map_eq_some_iff.1 shape
  change _ = Except.ok program at ok
  cases whole : program with
  | nil =>
    rw [whole] at first
    cases first
  | cons op after =>
    rw [whole] at ok first content succeeds
    have blocks : op.term.blocks = [⟨.sequence, ⟨0⟩⟩] := Option.some.inj first
    exact ⟨h, h', op, after, ⟨.sequence, ⟨0⟩⟩, m, reachable, ok, later, by decide +kernel,
      by simp [blocks], by decide +kernel,
      perform_eq_ok_iff.2 (Option.isNone_iff_eq_none.1 succeeds), content, rows⟩

end Session

end MatrixCalc
