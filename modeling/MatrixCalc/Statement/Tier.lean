import MatrixCalc.Statement.Item

/-!
# Operator tiers

The operators of a list without brackets are resolved tier by tier, the tightest first, and within
a tier from left to right.  Resolving an operator emits its operation and puts the result in the
place of the operator and its operands.  A tier walks along the list; `done` is what it has
passed, last item first.
-/

namespace MatrixCalc

namespace Tier

/-- Negates a variable the given number of times. -/
def negate : Nat → Variable → Build Variable
  | 0, v => pure v
  | times + 1, v => do negate times (← Build.emitRecipe (Recipe.unary .neg v))

/-- What an operator is called in a message about its operands. -/
def operandOf (s : Symbol) : String := "operand of " ++ s.quoted

/-- Resolves the transpositions. -/
def transpositions (done : List Item) : List Item → Build (List Item)
  | [] => pure done.reverse
  | item :: items =>
    if isSymbol .transpose item then
      match done with
      | [] => Build.fail .nothingToTranspose
      | left :: done => do
        let a ← left.operand "transpose"
        let v ← Build.emitRecipe (Recipe.unary .transpose a)
        transpositions (.value v :: done) items
    else transpositions (item :: done) items

/-- An operator that waits for its right operand. -/
structure Pending where
  /-- The left operand. -/
  left : Item
  /-- The operator. -/
  symbol : Symbol
  /-- The minus signs between the operator and its right operand. -/
  signs : Nat

/-- Resolves a binary operator.  Minus signs in front of its right operand negate that operand
first. -/
def Pending.resolve (p : Pending) (right : Item) : Build Variable := do
  match p.signs with
  | 0 =>
    let a ← p.left.operand (operandOf p.symbol)
    let b ← right.operand (operandOf p.symbol)
    Build.emitRecipe (Recipe.binary p.symbol a b)
  | signs + 1 =>
    let b ← negate (signs + 1) (← right.operand (operandOf .neg))
    let a ← p.left.operand (operandOf p.symbol)
    Build.emitRecipe (Recipe.binary p.symbol a b)

/-- Resolves the binary operators of a tier. -/
def binaries (tier : List Symbol) (done : List Item) :
    Option Pending → List Item → Build (List Item)
  | none, [] => pure done.reverse
  | none, item :: items =>
    match symbol? item, done with
    | some s, [] =>
      if s ∈ tier then Build.fail (.missingLeftOperand s) else binaries tier [item] none items
    | some s, left :: before =>
      if s ∈ tier then binaries tier before (some ⟨left, s, 0⟩) items
      else binaries tier (item :: left :: before) none items
    | none, done => binaries tier (item :: done) none items
  | some ⟨_, s, 0⟩, [] => Build.fail (.missingRightOperand s)
  | some ⟨_, _, _ + 1⟩, [] => Build.fail .nothingToNegate
  | some p, item :: items =>
    if isSymbol .neg item then binaries tier done (some { p with signs := p.signs + 1 }) items
    else do
      let v ← p.resolve item
      binaries tier (.value v :: done) none items

/-- Resolves the unary minus signs; `signs` of them stand directly before. -/
def negations (done : List Item) (signs : Nat) : List Item → Build (List Item)
  | [] => if signs = 0 then pure done.reverse else Build.fail .nothingToNegate
  | item :: items =>
    if isSymbol .neg item then negations done (signs + 1) items
    else if signs = 0 then negations (item :: done) 0 items
    else do
      let v ← negate signs (← item.operand (operandOf .neg))
      negations (.value v :: done) 0 items

/-- Resolves all tiers. -/
def all (items : List Item) : Build (List Item) := do
  let items ← transpositions [] items
  let items ← binaries [.power, .elementPower] [] none items
  let items ← binaries [.elementTimes, .elementDivide] [] none items
  let items ← binaries [.times, .divideRight, .divideLeft] [] none items
  let items ← negations [] 0 items
  binaries [.plus, .minus] [] none items

end Tier

end MatrixCalc
