import MatrixCalc.Statement.Assignment
import MatrixCalc.Token.Lexer

/-!
# Sessions

A `Session` holds what statements see: the contents of all cells, the names bound to variables and
the declared macros.  Compiling a statement gives a program, which can be performed again and again
on what the cells hold then.

* `Session.compile` : a macro declaration changes the macro table and has the empty program; any
  other statement adds cells, and binds its target if that is new.  A text that does not compile
  changes nothing.
* `Session.process` : compiles a statement and performs it once.  If performing fails, the target
  stays bound and what was written stays written.
* `Session.compile_of_error` : a failed compilation leaves the session as it was.
-/

namespace MatrixCalc

/-- Variables, macros and the contents of all cells. -/
structure Session where
  /-- The contents of all cells. -/
  store : Store := {}
  /-- The bound variables. -/
  scope : Bindings Variable := {}
  /-- The declared macros. -/
  macros : Bindings Macro := {}

/-- What a step of a session leads to. -/
structure Outcome (α : Type) where
  /-- The result, or why there is none. -/
  result : Except Error α
  /-- The session after the step. -/
  session : Session
  /-- What the step reported. -/
  events : List Event

namespace Session

/-! ### Names -/

/-- A name that cannot be bound is an error. -/
def checkName (name : String) : Except Error Unit :=
  if bindable name then .ok () else .error (.reserved name)

/-- The cell of the given kind that a name is bound to. -/
def cell? (s : Session) (kind : Kind) (name : String) : Option (Cell kind) :=
  match s.scope.find? name with
  | some v => if same : v.kind = kind then some (same ▸ v.cell) else none
  | none => none

/-- What a variable of the given kind holds. -/
def content? (s : Session) (kind : Kind) (name : String) : Option kind.Content :=
  (s.cell? kind name).map s.store.read

/-- What a scalar variable holds, as a double. -/
def scalar? (s : Session) (name : String) : Option Float :=
  (s.scope.find? name).bind fun v => v.scalar?.map s.store.readScalar

/-- Gives a variable a value.  A variable of that name and kind is overwritten, so programs that
were compiled against it see the new value; otherwise the name is bound to a new variable. -/
def define (s : Session) {kind : Kind} (name : String) (value : kind.Content) :
    Except Error Session := do
  checkName name
  match s.cell? kind name with
  | some cell => return { s with store := s.store.write cell value }
  | none =>
    let (store, cell) := s.store.allocate value
    return { s with store, scope := s.scope.insert name ⟨kind, cell⟩ }

/-- Binds a name to a variable. -/
def bind (s : Session) (name : String) (v : Variable) : Except Error Session := do
  checkName name
  return { s with scope := s.scope.insert name v }

/-- Removes a name; the cell it was bound to stays. -/
def remove (s : Session) (name : String) : Session :=
  { s with scope := s.scope.erase name }

/-! ### Statements -/

/-- Declares a macro. -/
def declare (s : Session) (declaration : List Token) : Logged Session := do
  let m ← Logged.ofExcept ((Macro.ofTokens declaration).mapError .malformed)
  Logged.ofExcept (checkName m.name)
  Logged.record (.declaredMacro m.name m.params)
  return { s with macros := s.macros.insert m.name m }

/-- Compiles the tokens of an assignment. -/
def compileAssignment (s : Session) (tokens : List Token) : Logged (Session × Program) :=
  fun log =>
    match Statement.compile s.scope s.macros tokens { store := s.store, log } with
    | .error e draft => .error e draft.log
    | .ok compiled draft =>
      match compiled.declared with
      | none => .ok ({ s with store := draft.store }, compiled.program) draft.log
      | some (name, v) =>
        .ok ({ s with store := draft.store, scope := s.scope.insert name v },
          compiled.program) (draft.log ++ [.declared name v.kind])

/-- Compiles the tokens of a statement. -/
def compileTokens (s : Session) : List Token → Logged (Session × Program)
  | .word first :: rest =>
    if first = macroKeyword then do return (← s.declare rest, [])
    else s.compileAssignment (.word first :: rest)
  | tokens => s.compileAssignment tokens

/-- Compiles a statement. -/
def compile (s : Session) (source : String) : Outcome Program :=
  match (Logged.ofExcept (Token.tokenize source) >>= s.compileTokens).finish with
  | (.ok (session, program), events) => ⟨.ok program, session, events⟩
  | (.error e, events) => ⟨.error e, s, events⟩

/-- Performs a program. -/
def perform (s : Session) (program : Program) : Outcome Unit :=
  match program.perform s.store with
  | (store, none) => ⟨.ok (), { s with store }, []⟩
  | (store, some e) => ⟨.error e, { s with store }, []⟩

/-- Compiles a statement and performs it once. -/
def process (s : Session) (source : String) : Outcome Program :=
  match s.compile source with
  | ⟨.error e, session, events⟩ => ⟨.error e, session, events⟩
  | ⟨.ok program, session, events⟩ =>
    match session.perform program with
    | ⟨.ok _, session, more⟩ => ⟨.ok program, session, events ++ more⟩
    | ⟨.error e, session, more⟩ => ⟨.error e, session, events ++ more⟩

/-! ### Laws -/

theorem compile_of_error {s : Session} {source : String} {e : Error}
    (h : (s.compile source).result = .error e) : (s.compile source).session = s := by
  unfold compile at h ⊢
  split
  · rename_i session program events eq
    rw [eq] at h
    simp at h
  · rfl

theorem perform_scope (s : Session) (program : Program) :
    (s.perform program).session.scope = s.scope := by
  unfold perform
  split <;> rfl

theorem perform_macros (s : Session) (program : Program) :
    (s.perform program).session.macros = s.macros := by
  unfold perform
  split <;> rfl

end Session

end MatrixCalc
