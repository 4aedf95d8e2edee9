import MatrixCalc.Proofs.Reachable

/-!
# The dataflow of compiled statements

In every session that comes about, a text that compiles to operations compiles to a linear
single-assignment program: no computed part is lost, used twice, or left from an earlier run.
-/

namespace MatrixCalc

namespace Session

/-- **Compiled statements are linear single-assignment programs.**  The literal cells are those of
the numbers that are written in the statement or come from its macros. -/
theorem compile_dataflow {h : History} (reachable : h.Reachable) {source : String}
    {program : Program} (ok : (h.session.compile source).result = .ok program)
    (nonempty : program ≠ []) : ∃ tokens literals, Token.tokenize source = .ok tokens ∧
      Statement.Literals h.session.macros tokens (h.session.compile source).session.store literals ∧
      SingleAssignment h.session.store (h.session.compile source).session.store literals
        program := by
  have wellFormed := reachable.wellFormed
  cases compilesTo_of_ok ok with
  | declaration => exact absurd rfl nonempty
  | @statement tokens _ _ read _ run session =>
    obtain ⟨-, -, literals, numbers, linear⟩ :=
      Statement.singleAssignment_of_compile wellFormed.bound wellFormed.closed run
    rw [session]
    exact ⟨tokens, literals, read, numbers, linear⟩

/-- A statement with a product, a range, a literal, an address and a transposition. -/
theorem compile_dataflow_of_address : ∃ (h : History) (program : Program), h.Reachable ∧
    (h.session.compile "y = [n * 2, 1:n + 1](0, 1:)'").result = .ok program ∧ program ≠ [] ∧
    program.names = ["multiply-ii", "add-ii", "matrixConstructor", "extract", "transpose-m",
      "copy-mm"] ∧
    ∃ tokens literals, Token.tokenize "y = [n * 2, 1:n + 1](0, 1:)'" = .ok tokens ∧
      Statement.Literals h.session.macros tokens
        (h.session.compile "y = [n * 2, 1:n + 1](0, 1:)'").session.store literals ∧
      SingleAssignment h.session.store
        (h.session.compile "y = [n * 2, 1:n + 1](0, 1:)'").session.store literals program := by
  let s : Session := { store := { integers := #[3] }, scope := ⟨[("n", ⟨.integer, ⟨0⟩⟩)]⟩ }
  have defined : @define {} .integer "n" 3 = .ok s := by rfl
  have reachable : History.Reachable { session := s } :=
    .single (@History.Step.define {} .integer "n" 3 s nofun defined)
  have names : (s.compile "y = [n * 2, 1:n + 1](0, 1:)'").result.toOption.map Program.names =
      some ["multiply-ii", "add-ii", "matrixConstructor", "extract", "transpose-m", "copy-mm"] := by
    decide +kernel
  cases ok : (s.compile "y = [n * 2, 1:n + 1](0, 1:)'").result with
  | error e =>
    rw [ok] at names
    cases names
  | ok program =>
    rw [ok] at names
    have listed := Option.some.inj names
    have nonempty : program ≠ [] := by
      rintro rfl
      cases listed
    exact ⟨{ session := s }, program, reachable, ok, nonempty, listed,
      compile_dataflow reachable ok nonempty⟩

end Session

end MatrixCalc
