import MatrixCalc.Statement.Range
import MatrixCalc.Statement.Tier

/-!
# Groups

The groups of a list are resolved from left to right, the inside of a group before the group.
Square brackets are a matrix literal.  Round brackets behind a function are a call, behind a matrix
an address, and otherwise they only group.  `Group.block` resolves a whole list to the variables
that stand side by side in it; its first argument bounds how deep groups may nest.
-/

namespace MatrixCalc

/-- How deep groups may nest. -/
def maxNesting : Nat := 64

namespace Group

/-- What resolves the inside of a group. -/
abbrev Resolver := List Item → Build (List Variable)

/-- The value of a list; nothing has none. -/
def single (block : Resolver) (items : List Item) : Build (Option Variable) := do
  Range.join (← block items)

/-! ### Calls and addresses -/

/-- The value of an argument. -/
def argument (block : Resolver) (f : Builtin) (items : List Item) : Build Variable := do
  Build.require (!items.isEmpty) (.emptyArgument f)
  Build.ofOption (.emptyArgument f) (← single block items)

/-- The values of the arguments of a call. -/
def arguments (block : Resolver) (f : Builtin) (inside : List Item) : Build (List Variable) :=
  if inside.isEmpty then pure [] else (splitTop .comma 0 inside).mapM (argument block f)

/-- The value of a call. -/
def call (block : Resolver) (f : Builtin) (inside : List Item) : Build Variable := do
  let args ← arguments block f inside
  Build.emitRecipe (Recipe.ofCall (← get).constant f args)

/-- The value of an index. -/
def index (block : Resolver) (items : List Item) : Build Index := do
  let v ← Build.ofOption .emptyIndex (← single block items)
  Build.ofExcept (Index.ofVariable v)

/-- The address inside of a pair of brackets. -/
def address (block : Resolver) (inside : List Item) : Build Address := do
  Build.require (!inside.isEmpty) .emptyIndex
  Build.ofExcept (Address.ofIndices (← (splitTop .comma 0 inside).mapM (index block)))

/-! ### Matrix literals -/

/-- The variable is a sequence that means something only against a size. -/
def needsSize (s : Store) : Variable → Bool
  | ⟨.sequence, cell⟩ => (s.read cell).needsSize
  | _ => false

/-- Refuses an open range among the blocks of a literal. -/
def checkClosed (s : Store) (blocks : List Variable) : Except Malformed Unit :=
  match blocks.find? (needsSize s) with
  | some v => .error (.openRangeInLiteral (v.describe s))
  | none => .ok ()

/-- The blocks of an element of a literal. -/
def element (block : Resolver) (items : List Item) : Build (List Variable) := do
  Build.require (!items.isEmpty) .emptyElement
  block items

/-- The blocks of a row of a literal. -/
def literalRow (block : Resolver) (items : List Item) : Build (List Variable) := do
  Build.require (!items.isEmpty) .emptyRow
  let elements ← (splitTop .comma 0 items).mapM (element block)
  Build.ofExcept (checkClosed (← get).store elements.flatten)
  return elements.flatten

/-- The rows of a literal. -/
def literalRows (block : Resolver) (inside : List Item) : Build Literal :=
  if inside.isEmpty then pure [] else (splitTop .semicolon 0 inside).mapM (literalRow block)

/-- The value of a literal. -/
def literal (block : Resolver) (inside : List Item) : Build Variable := do
  let rows ← literalRows block inside
  let op ← Build.place (.ok ⟨"matrixConstructor", .literal rows⟩)
  let draft ← get
  Build.ofExcept (rows.checkStatic draft.store draft.constant)
  Build.emit op

/-! ### Lists with groups -/

/-- Resolves a group; `done` is what stands before it, last item first, and the answer is what
stands there afterwards. -/
def resolve (block : Resolver) (opening : Symbol) (done inside : List Item) :
    Build (List Item) := do
  match opening, done with
  | .bracketLeft, done => return .value (← literal block inside) :: done
  | _, .function f :: done => return .value (← call block f inside) :: done
  | _, .value ⟨.matrix, m⟩ :: done =>
    let address ← address block inside
    return .value (← Build.emitRecipe (.ok (Recipe.ofAddress m address))) :: done
  | _, done =>
    match ← single block inside with
    | some v => return .value v :: done
    | none => return done

/-- Resolves all groups of a list. -/
def resolveAll (block : Resolver) (done : List Item) : List Item → Build (List Item)
  | [] => pure done.reverse
  | item :: items =>
    match symbol? item, bracketRole item with
    | some opening, .opening =>
      match _cut : untilClose 0 items with
      | none => Build.fail (.unterminated opening)
      | some (inside, _, rest) => do resolveAll block (← resolve block opening done inside) rest
    | some closing, .closing => Build.fail (.unmatchedClosing closing)
    | _, _ => resolveAll block (item :: done) items
termination_by items => items.length
decreasing_by
  · have := length_of_untilClose _cut
    simp only [List.length_cons]
    omega
  · simp

/-- Refuses what no operator takes: functions without arguments, and symbols that only separate. -/
def checkRest : List Item → Build Unit
  | [] => pure ()
  | .function f :: _ => Build.fail (.uncalledFunction f)
  | .symbol s :: items =>
    if s = .comma ∨ s = .semicolon ∨ s = .assign then Build.fail (.unexpected s.quoted)
    else checkRest items
  | .value _ :: items => checkRest items

/-- The variables that stand side by side in a list, in which groups may nest `allowance - 1`
deep. -/
def block : Nat → Resolver
  | 0, _ => Build.fail .nestedTooDeeply
  | allowance + 1, items => do
    let items ← resolveAll (block allowance) [] items
    checkRest items
    Range.handles (← Tier.all items)

end Group

end MatrixCalc
