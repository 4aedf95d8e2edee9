import MatrixCalc.Proofs.Reads
import MatrixCalc.Operation.Recipe
import MatrixCalc.Token

/-!
# Expressions

The right sides of statements that are built from variables with operators, as trees.  A tree is
printed with no more brackets than its precedences need.  What it computes is said node by node:
each operator does to the values of its operands what its operation does.

* `Expression.write` : the symbols and leaves of the printed tree.
* `Expression.kind?`, `Expression.value?` : the kind and the value of a tree, if every operator
  takes its operands.
-/

namespace MatrixCalc

/-- An operator of one operand. -/
inductive UnaryOperator where
  | transpose
  | negate
deriving DecidableEq

/-- An operator between two operands. -/
inductive BinaryOperator where
  | plus
  | minus
  | times
  | divideRight
  | divideLeft
  | power
  | elementTimes
  | elementDivide
  | elementPower
deriving DecidableEq

/-- The symbol of an operator. -/
def UnaryOperator.symbol : UnaryOperator → Symbol
  | transpose => .transpose
  | negate => .neg

namespace BinaryOperator

/-- The symbol of an operator. -/
def symbol : BinaryOperator → Symbol
  | plus => .plus
  | minus => .minus
  | times => .times
  | divideRight => .divideRight
  | divideLeft => .divideLeft
  | power => .power
  | elementTimes => .elementTimes
  | elementDivide => .elementDivide
  | elementPower => .elementPower

/-- The tier of an operator; those of a lower one bind tighter.  Transposition is in the first tier,
unary minus in the fifth. -/
def level : BinaryOperator → Nat
  | power | elementPower => 2
  | elementTimes | elementDivide => 3
  | times | divideRight | divideLeft => 4
  | plus | minus => 6

end BinaryOperator

/-- A tree of operators. -/
inductive Expression (α : Type) where
  | leaf (a : α)
  | unary (o : UnaryOperator) (x : Expression α)
  | binary (o : BinaryOperator) (l r : Expression α)
deriving DecidableEq

namespace Expression

variable {α β : Type}

/-- The tree with other leaves. -/
def map (f : α → β) : Expression α → Expression β
  | leaf a => leaf (f a)
  | unary o x => unary o (x.map f)
  | binary o l r => binary o (l.map f) (r.map f)

/-- The leaves from left to right. -/
def leaves : Expression α → List α
  | leaf a => [a]
  | unary _ x => x.leaves
  | binary _ l r => l.leaves ++ r.leaves

/-- The number of operators. -/
def operators : Expression α → Nat
  | leaf _ => 0
  | unary _ x => x.operators + 1
  | binary _ l r => l.operators + r.operators + 1

/-! ### Printing -/

/-- A printed tree in round brackets. -/
def enclose (pieces : List (Symbol ⊕ α)) : List (Symbol ⊕ α) :=
  .inl .parenLeft :: pieces ++ [.inl .parenRight]

/-- The tree in a place that takes operators up to tier `n`; other trees are bracketed there.
Binary operators associate to the left.  Directly behind one, `signs`, a minus sign needs no
brackets: it negates the right operand. -/
def write (n : Nat) (signs : Bool) : Expression α → List (Symbol ⊕ α)
  | leaf a => [.inr a]
  | unary .transpose x =>
    let pieces := write 1 false x ++ [.inl .transpose]
    if n < 1 then enclose pieces else pieces
  | unary .negate x =>
    if signs then .inl .neg :: write n true x
    else
      let pieces := .inl .neg :: write 5 true x
      if n < 5 then enclose pieces else pieces
  | binary o l r =>
    let pieces := write o.level false l ++ .inl o.symbol :: write (o.level - 1) true r
    if n < o.level then enclose pieces else pieces

/-- How deep the brackets of the printed tree nest. -/
def nestingIn (n : Nat) (signs : Bool) : Expression α → Nat
  | leaf _ => 0
  | unary .transpose x => nestingIn 1 false x + if n < 1 then 1 else 0
  | unary .negate x =>
    if signs then nestingIn n true x else nestingIn 5 true x + if n < 5 then 1 else 0
  | binary o l r =>
    max (nestingIn o.level false l) (nestingIn (o.level - 1) true r) +
      if n < o.level then 1 else 0

/-- How deep the brackets of a whole right side nest. -/
def nesting (e : Expression α) : Nat := e.nestingIn 6 false

/-- The ways to print a tree in a place that takes operators up to tier `n`, with brackets that nest
as deep as the number says.  Brackets that are not needed may be there too. -/
inductive Prints : Nat → Bool → Expression α → List (Symbol ⊕ α) → Nat → Prop
  | leaf {n : Nat} {signs : Bool} (a : α) : Prints n signs (leaf a) [.inr a] 0
  | transpose {n depth : Nat} {signs : Bool} {x : Expression α} {pieces : List (Symbol ⊕ α)}
      (room : 1 ≤ n) (operand : Prints 1 false x pieces depth) :
      Prints n signs (unary .transpose x) (pieces ++ [.inl .transpose]) depth
  | sign {n depth : Nat} {x : Expression α} {pieces : List (Symbol ⊕ α)}
      (operand : Prints n true x pieces depth) :
      Prints n true (unary .negate x) (.inl .neg :: pieces) depth
  | negate {n depth : Nat} {x : Expression α} {pieces : List (Symbol ⊕ α)} (room : 5 ≤ n)
      (operand : Prints 5 true x pieces depth) :
      Prints n false (unary .negate x) (.inl .neg :: pieces) depth
  | binary {n depth depth' : Nat} {signs : Bool} {o : BinaryOperator} {l r : Expression α}
      {pieces pieces' : List (Symbol ⊕ α)} (room : o.level ≤ n)
      (left : Prints o.level false l pieces depth)
      (right : Prints (o.level - 1) true r pieces' depth') :
      Prints n signs (binary o l r) (pieces ++ .inl o.symbol :: pieces') (max depth depth')
  | bracket {n depth : Nat} {signs : Bool} {e : Expression α} {pieces : List (Symbol ⊕ α)}
      (inside : Prints 6 false e pieces depth) : Prints n signs e (enclose pieces) (depth + 1)

/-- The printed tree is one of these ways. -/
theorem prints_write (n : Nat) (signs : Bool) (e : Expression α) :
    Prints n signs e (e.write n signs) (e.nestingIn n signs) := by
  induction e generalizing n signs with
  | leaf a => exact .leaf a
  | unary o x ih =>
    cases o with
    | transpose =>
      simp only [write, nestingIn]
      split
      · exact .bracket (.transpose (by decide) (ih 1 false))
      · exact .transpose (by omega) (ih 1 false)
    | negate =>
      cases signs with
      | true => exact .sign (ih n true)
      | false =>
        simp only [write, nestingIn, Bool.false_eq_true, if_false]
        split
        · exact .bracket (.negate (by decide) (ih 5 true))
        · exact .negate (by omega) (ih 5 true)
  | binary o l r ihl ihr =>
    have top : o.level ≤ 6 := by cases o <;> decide
    simp only [write, nestingIn]
    split
    · exact .bracket (.binary top (ihl _ false) (ihr _ true))
    · exact .binary (by omega) (ihl _ false) (ihr _ true)

/-- The tokens of a tree of names. -/
def tokens (e : Expression String) : List Token :=
  (e.write 6 false).map (Sum.elim Token.symbol Token.word)

/-- The text of a tree of names. -/
def text (e : Expression String) : String :=
  String.join ((e.write 6 false).map (Sum.elim Symbol.spelling id))

end Expression

/-! ### Meaning -/

/-- A content with its kind. -/
abbrev Datum := (kind : Kind) × kind.Content

/-- What a variable holds. -/
def Store.datum (s : Store) (v : Variable) : Datum := ⟨v.kind, s.read v.cell⟩

/-- What the operation of a recipe computes, if it succeeds. -/
def Recipe.datum? (s : Store) (r : Recipe) : Option Datum :=
  (r.term.eval s).toOption.map (⟨r.kind, ·⟩)

namespace UnaryOperator

/-- The kind of value that an operator gives, if it takes an operand of the given kind. -/
def kind? (o : UnaryOperator) (k : Kind) : Option Kind :=
  (Recipe.unary o.symbol ⟨k, ⟨0⟩⟩).toOption.map Recipe.kind

/-- What an operator does with a value that is held by a variable of its own. -/
def apply (o : UnaryOperator) (x : Datum) : Option Datum :=
  let (s, cell) := ({} : Store).allocate x.2
  (Recipe.unary o.symbol ⟨x.1, cell⟩).toOption.bind (Recipe.datum? s)

end UnaryOperator

namespace BinaryOperator

/-- The kind of value that an operator gives, if it takes operands of the given kinds. -/
def kind? (o : BinaryOperator) (k k' : Kind) : Option Kind :=
  (Recipe.binary o.symbol ⟨k, ⟨0⟩⟩ ⟨k', ⟨1⟩⟩).toOption.map Recipe.kind

/-- What an operator does with two values that are held by variables of their own. -/
def apply (o : BinaryOperator) (x y : Datum) : Option Datum :=
  let (s, cell) := ({} : Store).allocate x.2
  let (s, cell') := s.allocate y.2
  (Recipe.binary o.symbol ⟨x.1, cell⟩ ⟨y.1, cell'⟩).toOption.bind (Recipe.datum? s)

end BinaryOperator

namespace Expression

/-- The kind of a tree, if every operator in it takes operands of their kinds. -/
def kind? : Expression Variable → Option Kind
  | leaf v => some v.kind
  | unary o x => x.kind?.bind o.kind?
  | binary o l r => l.kind?.bind fun k => r.kind?.bind fun k' => o.kind? k k'

/-- The value of a tree, from the leaves up, if every operator in it succeeds. -/
def value? (s : Store) : Expression Variable → Option Datum
  | leaf v => some (s.datum v)
  | unary o x => (x.value? s).bind o.apply
  | binary o l r => (l.value? s).bind fun a => (r.value? s).bind fun b => o.apply a b

/-- The operations compute a tree, node by node: the operation of an operator is the one that
belongs to the kinds of its operands, it reads the outputs of their operations and nothing else, and
`v` is the output of the last. -/
inductive Computes : Expression Variable → Program → Variable → Prop
  | leaf (v : Variable) : Computes (leaf v) [] v
  | unary {o : UnaryOperator} {x : Expression Variable} {program : Program} {a : Variable}
      {recipe : Recipe} (target : Cell recipe.kind) (operand : Computes x program a)
      (made : Recipe.unary o.symbol a = .ok recipe) (reads : recipe.term.operands.Perm [a]) :
      Computes (unary o x) (program ++ [recipe.into target]) ⟨recipe.kind, target⟩
  | binary {o : BinaryOperator} {l r : Expression Variable} {program program' : Program}
      {a b : Variable} {recipe : Recipe} (target : Cell recipe.kind) (left : Computes l program a)
      (right : Computes r program' b) (made : Recipe.binary o.symbol a b = .ok recipe)
      (reads : recipe.term.operands.Perm [a, b]) :
      Computes (binary o l r) (program ++ program' ++ [recipe.into target]) ⟨recipe.kind, target⟩

end Expression

end MatrixCalc
