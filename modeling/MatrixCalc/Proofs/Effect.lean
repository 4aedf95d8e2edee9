import MatrixCalc.Proofs.Compilation
import MatrixCalc.Proofs.Growth

/-!
# What compiling does to a session

Compiling writes to no cell, and it touches the tables of a session only when it succeeds.  Then it
does one of three things: it leaves both tables alone, it binds a name that was free to a new cell,
or it enters a macro.

* `Statement.declared_of_compile` : what a statement introduces is free before, new, and of the
  kind of its value.
* `Session.compile_effect` : **the effect of compiling on a session**, for every text.
-/

namespace MatrixCalc

/-! ### Statements -/

namespace Statement

variable {scope : Bindings Variable} {macros : Bindings Macro} {d d' : Draft}

/-- What an assignment introduces is a variable of the kind of its value, under a free name. -/
theorem declared_of_assign {name : String} {left : List Token} {v w : Variable} {target : String}
    (h : assign scope macros name left v d = .ok (some (target, w)) d') :
    target = name ∧ left.length = 1 ∧ scope.find? name = none ∧ w.kind = v.kind ∧
      ¬ d.store.Has w.cell ∧ d'.store.Has w.cell := by
  rcases assign_eq_ok_iff.1 h with ⟨whole, h⟩ | ⟨-, none, -⟩
  · rcases assignWhole_eq_ok_iff.1 h with ⟨_, _, _, _, none, -⟩ | ⟨_, free, _, eq, rfl⟩
    · cases none
    · cases eq
      exact ⟨rfl, whole, free, rfl, d.store.not_has_allocate v.kind.blank,
        d.store.has_allocate v.kind.blank⟩
  · cases none

/-- The variable that a statement introduces. -/
theorem declared_of_compile {tokens : List Token} {compiled : Compiled} {name : String}
    {w : Variable} (h : compile scope macros tokens d = .ok compiled d')
    (declared : compiled.declared = some (name, w)) : ∃ left right v d₁,
      splitAssignment tokens = .ok (left, right) ∧ targetName left = .ok name ∧
      left.length = 1 ∧ value scope macros right d = .ok v d₁ ∧ scope.find? name = none ∧
      w.kind = v.kind ∧ ¬ d.store.Has w.cell ∧ d'.store.Has w.cell := by
  obtain ⟨left, right, target, v, d₁, given, d₂, cut, _, named, valued, assigned, rfl, rfl⟩ :=
    compile_eq_ok_iff.1 h
  obtain rfl : given = some (name, w) := declared
  obtain ⟨rfl, whole, free, kind, new, has⟩ := declared_of_assign assigned
  have kept : d.store.Extends d₁.store := ((growing_value scope macros right).of_ok valued).extends
  exact ⟨left, right, v, d₁, cut, named, whole, valued, free, kind, fun old => new (kept.has old),
    has⟩

end Statement

/-! ### Sessions -/

namespace Session

/-- A statement has left both tables alone. -/
def Keeps (s : Session) (tokens : List Token) (s' : Session) : Prop :=
  Token.declareMacro tokens = false ∧ s'.scope = s.scope ∧ s'.macros = s.macros

/-- A statement has bound its target, which was free, to a new cell of the kind of its right
side. -/
def Declares (s : Session) (tokens : List Token) (s' : Session) : Prop :=
  ∃ name w right v d, Statement.splitAssignment tokens = .ok ([.word name], right) ∧
    Statement.value s.scope s.macros right s.draft = .ok v d ∧
    s.scope.find? name = none ∧ w.kind = v.kind ∧ ¬ s.store.Has w.cell ∧ s'.store.Has w.cell ∧
    s'.scope = s.scope.insert name w ∧ s'.macros = s.macros

/-- A declaration has entered a macro, which replaces an earlier one of its name. -/
def EntersMacro (s : Session) (tokens : List Token) (s' : Session) : Prop :=
  Token.declareMacro tokens = true ∧ ∃ m, Macro.ofTokens (tokens.drop 1) = .ok m ∧
    s'.scope = s.scope ∧ s'.macros = s.macros.insert m.name m

/-- One of three statements holds and the other two do not. -/
def ExactlyOne (p q r : Prop) : Prop := (p ∧ ¬ q ∧ ¬ r) ∨ (¬ p ∧ q ∧ ¬ r) ∨ (¬ p ∧ ¬ q ∧ r)

variable {s s' : Session} {tokens : List Token}

/-- A statement whose target is bound in the end to what it was not bound to before. -/
theorem Declares.not_same (h : s.Declares tokens s') : s'.scope ≠ s.scope := by
  obtain ⟨name, w, _, _, _, _, _, free, _, _, _, bound, -⟩ := h
  intro same
  have found : s'.scope.find? name = some w := by
    rw [bound, Bindings.find?_insert, if_pos rfl]
  rw [same, free] at found
  cases found

/-- A statement either leaves the tables alone or introduces its target. -/
theorem keeps_or_declares {compiled : Compiled} {d : Draft}
    (notMacro : Token.declareMacro tokens = false)
    (run : Statement.compile s.scope s.macros tokens s.draft = .ok compiled d) :
    let s' : Session := { s with store := d.store, scope := s.scopeWith compiled.declared }
    s.Keeps tokens s' ∨ s.Declares tokens s' := by
  cases declared : compiled.declared with
  | none => exact .inl ⟨notMacro, rfl, rfl⟩
  | some entry =>
    obtain ⟨name, w⟩ := entry
    obtain ⟨left, right, v, d₁, cut, named, whole, valued, free, kind, new, has⟩ :=
      Statement.declared_of_compile run declared
    -- the only token of the target is the word that names it
    obtain ⟨t, rfl⟩ := List.length_eq_one_iff.1 whole
    obtain ⟨-, _, word⟩ := Statement.targetName_eq_ok_iff.1 named
    cases word
    exact .inr ⟨name, w, right, v, d₁, cut, valued, free, kind, new, has, rfl, rfl⟩

/-- What a text that compiles does to the tables. -/
theorem exactlyOne_of_compile {source : String} {program : Program}
    (read : Token.tokenize source = .ok tokens) (ok : (s.compile source).result = .ok program) :
    ExactlyOne (s.Keeps tokens (s.compile source).session)
      (s.Declares tokens (s.compile source).session)
      (s.EntersMacro tokens (s.compile source).session) := by
  cases isMacro : Token.declareMacro tokens with
  | false =>
    obtain ⟨compiled, d, run, -, session⟩ := compile_of_statement read isMacro ok
    have noMacro : ¬ s.EntersMacro tokens (s.compile source).session := by
      rintro ⟨is, -⟩
      rw [isMacro] at is
      cases is
    rw [session] at noMacro ⊢
    rcases keeps_or_declares isMacro run with keeps | declares
    · exact .inl ⟨keeps, fun declares => declares.not_same keeps.2.1, noMacro⟩
    · exact .inr (.inl ⟨fun keeps => declares.not_same keeps.2.1, declares, noMacro⟩)
  | true =>
    obtain ⟨m, parsed, -, -, session⟩ := compile_of_declaration read isMacro ok
    rw [session]
    refine .inr (.inr ⟨?_, fun declares => declares.not_same rfl, isMacro, m, parsed, rfl, rfl⟩)
    rintro ⟨is, -⟩
    rw [isMacro] at is
    cases is

/-- A bound name stays bound to its variable. -/
theorem find?_of_compile {source name : String} {v : Variable}
    (bound : s.scope.find? name = some v) :
    (s.compile source).session.scope.find? name = some v := by
  cases result : (s.compile source).result with
  | error e => rwa [compile_of_error result]
  | ok program =>
    obtain ⟨tokens, read⟩ := tokenize_of_compile result
    rcases exactlyOne_of_compile read result with ⟨keeps, -⟩ | ⟨-, declares, -⟩ | ⟨-, -, enters⟩
    · rwa [keeps.2.1]
    · obtain ⟨target, w, _, _, _, _, _, free, _, _, _, scope, -⟩ := declares
      have other : name ≠ target := by
        rintro rfl
        rw [free] at bound
        cases bound
      rwa [scope, Bindings.find?_insert, if_neg other]
    · obtain ⟨-, m, -, scope, -⟩ := enters
      rwa [scope]

/-- A text has only added cells when it has been compiled. -/
theorem extends_compile (s : Session) (source : String) :
    s.store.Extends (s.compile source).session.store := by
  cases result : (s.compile source).result with
  | error e =>
    rw [compile_of_error result]
    exact .refl _
  | ok program =>
    cases compilesTo_of_ok result with
    | declaration _ _ _ _ session =>
      rw [session]
      exact .refl _
    | statement _ _ run session =>
      rw [session]
      exact ((Statement.growing_compile s.scope s.macros _).of_ok run).extends

/-- **The effect of compiling on a session.**  No cell that was there has changed, also when the
compilation stopped half-way, and no name is bound to another variable than before.  A text that
does not compile leaves the session as it was.  One that does leaves both tables alone, binds one
free name to a new cell of the kind of its right side, or enters one macro, and only one of
these. -/
theorem compile_effect (s : Session) (source : String) :
    s.store.Extends (s.compile source).session.store ∧
    (∀ tokens e d, Token.tokenize source = .ok tokens →
      Statement.compile s.scope s.macros tokens s.draft = .error e d → s.store.Extends d.store) ∧
    (∀ name v, s.scope.find? name = some v →
      (s.compile source).session.scope.find? name = some v) ∧
    (∀ e, (s.compile source).result = .error e → (s.compile source).session = s) ∧
    (∀ program, (s.compile source).result = .ok program →
      ∃ tokens, Token.tokenize source = .ok tokens ∧
        ExactlyOne (s.Keeps tokens (s.compile source).session)
          (s.Declares tokens (s.compile source).session)
          (s.EntersMacro tokens (s.compile source).session)) := by
  have stopped : ∀ tokens e d, Token.tokenize source = .ok tokens →
      Statement.compile s.scope s.macros tokens s.draft = .error e d → s.store.Extends d.store :=
    fun tokens _ _ _ run =>
      ((Statement.growing_compile s.scope s.macros tokens).of_error run).extends
  refine ⟨s.extends_compile source, stopped, fun _ _ => find?_of_compile,
    fun _ => compile_of_error, fun program ok => ?_⟩
  obtain ⟨tokens, read⟩ := tokenize_of_compile ok
  exact ⟨tokens, read, exactlyOne_of_compile read ok⟩

end Session

end MatrixCalc
