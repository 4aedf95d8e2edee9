import MatrixCalc.Macro.Expansion
import MatrixCalc.Statement.Group

/-!
# Assignments

A statement assigns the value on the right of `=` to a variable or to places of a matrix on the
left.  Compiling it emits the operations of the value and then one that writes the target.  A
target that is not bound yet is created; binding it is left to the caller, so a statement that does
not compile binds nothing.
-/

namespace MatrixCalc

/-- A compiled statement. -/
structure Compiled where
  /-- The operations. -/
  program : Program
  /-- The name and the variable that the statement introduces, if it introduces one. -/
  declared : Option (String × Variable)

namespace Statement

variable (scope : Bindings Variable) (macros : Bindings Macro)

/-- The items of a list of tokens, with macros expanded. -/
def prepare (tokens : List Token) : Build (List Item) := do
  Item.ofTokens scope (← Build.ofLogged (Macro.expand macros tokens))

/-- Cuts a statement at its only `=`. -/
def splitAssignment (tokens : List Token) : Except Malformed (List Token × List Token) :=
  match tokens.countP (isSymbol .assign) with
  | 0 => .error .noAssignment
  | 1 =>
    .ok (tokens.takeWhile (!isSymbol .assign ·), (tokens.dropWhile (!isSymbol .assign ·)).drop 1)
  | _ => .error .severalAssignments

/-- The name that a target starts with. -/
def targetName : List Token → Except Error String
  | [] => .error (.malformed .emptyTarget)
  | .word name :: _ => if isReserved name then .error (.reserved name) else .ok name
  | t :: _ => .error (.malformed (.targetNotAWord t.describe))

/-- The tokens between the brackets of a target `name(…)`. -/
def targetIndices : List Token → Except Malformed (List Token)
  | _ :: .symbol .parenLeft :: rest =>
    match untilClose 0 rest with
    | some (inside, close, []) =>
      if isSymbol .parenRight close && !inside.isEmpty then .ok inside
      else .error .targetNotAddressed
    | _ => .error .targetNotAddressed
  | _ => .error .targetNotAddressed

/-- The value of the right side. -/
def value (tokens : List Token) : Build Variable := do
  let items ← prepare scope macros tokens
  Build.ofOption .nothingToAssign (← Group.single (Group.block maxNesting) items)

/-- Assigns a value to a whole variable; the answer is what the statement introduces. -/
def assignWhole (name : String) (v : Variable) : Build (Option (String × Variable)) := do
  match scope.find? name with
  | some target =>
    let _ ← Build.emit (← Build.ofExcept (Operation.copy v target))
    return none
  | none =>
    let target : Variable := ⟨v.kind, ← Build.allocate v.kind.blank⟩
    let _ ← Build.emit (← Build.ofExcept (Operation.copy v target))
    return some (name, target)

/-- Assigns a value to places of a matrix. -/
def assignPlaces (name : String) (target : List Token) (v : Variable) : Build Unit := do
  match scope.find? name with
  | some ⟨.matrix, m⟩ =>
    let inside ← Build.ofExcept (targetIndices target)
    let address ← Group.address (Group.block maxNesting) (← prepare scope macros inside)
    let _ ← Build.emit (← Build.ofExcept (Operation.insert v m address))
  | some other => Build.fail (.targetNotAMatrix name other.kind)
  | none => throw (.unbound name)

/-- The name that a target starts with. -/
def target (left : List Token) : Build String :=
  match targetName left with
  | .ok name => pure name
  | .error e => throw e

/-- Assigns a value to the target `left`, whose name is `name`; the answer is what the statement
introduces. -/
def assign (name : String) (left : List Token) (v : Variable) :
    Build (Option (String × Variable)) :=
  if left.length = 1 then assignWhole scope name v
  else do
    assignPlaces scope macros name left v
    return none

/-- Reports on a statement of `count` tokens and gives up its intermediate variables. -/
def finish (count : Nat) (declared : Option (String × Variable)) : Build Compiled := do
  let draft ← get
  Build.record (.compiled count draft.program.length draft.temporaries)
  Build.record (.released draft.temporaries)
  return ⟨draft.program, declared⟩

/-- Compiles the tokens of a statement. -/
def compile (tokens : List Token) : Build Compiled := do
  let (left, right) ← Build.ofExcept (splitAssignment tokens)
  Build.require (!right.isEmpty) .emptyValue
  let name ← target left
  let v ← value scope macros right
  finish tokens.length (← assign scope macros name left v)

end Statement

end MatrixCalc
