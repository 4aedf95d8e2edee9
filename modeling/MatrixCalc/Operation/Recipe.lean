import MatrixCalc.Operation.Basic

/-!
# Recipes

A `Recipe` is an operation that has no target yet.  Which recipe an operator or a function has is
decided by the kinds of its operands alone; a combination without one is a syntax error.  The only
exception is the axis of `max`, `min` and `sum`, which must be a literal.
-/

namespace MatrixCalc

/-- What an operation computes, before it has a target. -/
structure Recipe where
  /-- The name shown for the operation. -/
  name : String
  /-- The kind of value. -/
  {kind : Kind}
  /-- How the value is computed. -/
  term : Term kind

/-- How an operator treats each combination of operand kinds. -/
structure Operator where
  /-- The first part of the names of its operations. -/
  name : String
  /-- What it does with two numbers. -/
  scalar : Arith
  /-- What it does with two matrices, if it takes them. -/
  matrix : Option MatrixArith
  /-- Two integers give an integer. -/
  integer : Bool
  /-- It takes a matrix and a number. -/
  broadcast : Bool

/-- The error of operands that have no recipe. -/
def unsupported {α : Type} (what : String) (operands : List Variable) : Except Malformed α :=
  .error (.notDefinedFor what (operands.map Variable.kind))

namespace Recipe

/-! ### Operators -/

/-- The recipe of an operator. -/
def ofOperator (o : Operator) (a b : Variable) : Except Malformed Recipe :=
  match a, b with
  | ⟨.matrix, x⟩, ⟨.matrix, y⟩ =>
    match o.matrix with
    | some op => .ok ⟨o.name ++ "-mm", .matrixArith op x y⟩
    | none => unsupported o.name [a, b]
  | ⟨.matrix, m⟩, other =>
    match other.scalar?, o.broadcast with
    | some s, true => .ok ⟨o.name ++ "-ms", .broadcast o.scalar m s false⟩
    | _, _ => unsupported o.name [a, b]
  | other, ⟨.matrix, m⟩ =>
    match other.scalar?, o.broadcast with
    | some s, true => .ok ⟨o.name ++ "-sm", .broadcast o.scalar m s true⟩
    | _, _ => unsupported o.name [a, b]
  | ⟨.integer, x⟩, ⟨.integer, y⟩ =>
    if o.integer then .ok ⟨o.name ++ "-ii", .integerArith o.scalar x y⟩
    else .ok ⟨o.name ++ "-ss", .scalarArith o.scalar (.integer x) (.integer y)⟩
  | a, b =>
    match a.scalar?, b.scalar? with
    | some x, some y => .ok ⟨o.name ++ "-ss", .scalarArith o.scalar x y⟩
    | _, _ => unsupported o.name [a, b]

/-- The solution of the system `a x = b`. -/
def solve (a b : Variable) : Except Malformed Recipe :=
  match a, b with
  | ⟨.matrix, x⟩, ⟨.matrix, y⟩ => .ok ⟨"solve", .solve x y⟩
  | _, _ => unsupported "solve" [a, b]

/-- Division by `b`; for two matrices, the solution of `b x = a`. -/
def divide (a b : Variable) : Except Malformed Recipe :=
  match a, b with
  | ⟨.matrix, x⟩, ⟨.matrix, y⟩ => .ok ⟨"solve", .solve y x⟩
  | _, _ => ofOperator ⟨"divide", .divide, none, true, true⟩ a b

/-- The recipe of a binary symbol. -/
def binary (s : Symbol) (a b : Variable) : Except Malformed Recipe :=
  match s with
  | .plus => ofOperator ⟨"add", .add, some .add, true, true⟩ a b
  | .minus => ofOperator ⟨"subtract", .subtract, some .subtract, true, true⟩ a b
  | .times => ofOperator ⟨"multiply", .multiply, some .multiply, true, true⟩ a b
  | .divideRight => divide a b
  | .divideLeft => divide b a
  | .power => ofOperator ⟨"pow", .power, none, false, false⟩ a b
  | .elementTimes => ofOperator ⟨"elementMult", .multiply, some .elementMultiply, true, true⟩ a b
  | .elementDivide =>
    ofOperator ⟨"elementDivision", .divide, some .elementDivide, false, true⟩ a b
  | .elementPower => ofOperator ⟨"elementPow", .power, some .elementPower, false, true⟩ a b
  | other => .error (.notBinary other)

/-- A function of every entry of a matrix or of a number; `whole` keeps integers integral. -/
def elementwise (name : String) (f : ElementFn) (whole : Option IntegerFn) (a : Variable) :
    Except Malformed Recipe :=
  match a, whole with
  | ⟨.matrix, m⟩, _ => .ok ⟨name ++ "-m", .elementwise f m⟩
  | ⟨.integer, i⟩, some g => .ok ⟨name ++ "-i", .integerUnary g i⟩
  | a, _ =>
    match a.scalar? with
    | some s => .ok ⟨name ++ "-s", .scalarUnary f s⟩
    | none => unsupported name [a]

/-- A function of a whole matrix; `scalar` is what it does with a number. -/
def ofMatrix (name : String) (f : MatrixFn) (scalar : Option ElementFn) (a : Variable) :
    Except Malformed Recipe :=
  match a, scalar with
  | ⟨.matrix, m⟩, _ => .ok ⟨name ++ "-m", .matrixUnary f m⟩
  | a, some g =>
    match a.scalar? with
    | some s => .ok ⟨name ++ "-s", .scalarUnary g s⟩
    | none => unsupported name [a]
  | a, none => unsupported name [a]

/-- The recipe of a unary symbol. -/
def unary (s : Symbol) (a : Variable) : Except Malformed Recipe :=
  match s, a with
  | .neg, a => elementwise "neg" .negate (some .negate) a
  | .transpose, ⟨.matrix, m⟩ => .ok ⟨"transpose-m", .matrixUnary .transpose m⟩
  | .transpose, a => .error (.transposeOf a.kind)
  | other, _ => .error (.notUnary other)

/-! ### Functions -/

/-- A measure of a matrix; a number is its own measure up to `scalar` or `whole`. -/
def ofMeasure (name : String) (f : MatrixMeasure) (scalar : ElementFn) (whole : Option IntegerFn)
    (a : Variable) : Except Malformed Recipe :=
  match a with
  | ⟨.matrix, m⟩ => .ok ⟨name ++ "-m", .measure f m⟩
  | a => elementwise name scalar whole a

/-- The reduction of rows (axis 0) or columns (axis 1); the axis is a literal. -/
def along (constant : Cell .integer → Option Int64) (name : String) (how : Reduction)
    (a axis : Variable) : Except Malformed Recipe :=
  match a, axis with
  | ⟨.matrix, m⟩, ⟨.integer, cell⟩ =>
    match constant cell with
    | some 0 => .ok ⟨name ++ "_rows", .reduceAlong how true m⟩
    | some 1 => .ok ⟨name ++ "_cols", .reduceAlong how false m⟩
    | _ => .error (.axisNotLiteral name)
  | ⟨.matrix, _⟩, _ => .error (.axisNotLiteral name)
  | _, _ => unsupported name [a, axis]

/-- The recipe of a function of one argument. -/
def ofFunction1 (f : Builtin) (a : Variable) : Except Malformed Recipe :=
  match f with
  | .inv => ofMatrix f.name .inverse (some .reciprocal) a
  | .pinv => ofMatrix f.name .pseudoInverse (some .reciprocal) a
  | .rref => ofMatrix f.name .rref (some .echelon) a
  | .diag => ofMatrix f.name .diag none a
  | .det => ofMeasure f.name .determinant .identity none a
  | .trace => ofMeasure f.name .trace .identity none a
  | .normF => ofMeasure f.name .normF .abs none a
  | .max => ofMeasure f.name (.reduction .max) .identity (some .identity) a
  | .min => ofMeasure f.name (.reduction .min) .identity (some .identity) a
  | .sum => ofMeasure f.name (.reduction .sum) .identity (some .identity) a
  | .abs => elementwise f.name .abs (some .abs) a
  | .sin => elementwise f.name .sin none a
  | .cos => elementwise f.name .cos none a
  | .atan => elementwise f.name .atan none a
  | .exp => elementwise f.name .exp none a
  | .log => elementwise f.name .log none a
  | .sqrt => elementwise f.name .sqrt none a
  | .eye =>
    match a with
    | ⟨.matrix, m⟩ => .ok ⟨"eye-m", .matrixUnary .identity m⟩
    | ⟨.integer, n⟩ => .ok ⟨"eye-i", .eye n⟩
    | a => unsupported f.name [a]
  | f => .error (.wrongArity f 1)

/-- The recipe of a function of two arguments. -/
def ofFunction2 (constant : Cell .integer → Option Int64) (f : Builtin) (a b : Variable) :
    Except Malformed Recipe :=
  match f, a, b with
  | .max, a, b => along constant f.name .max a b
  | .min, a, b => along constant f.name .min a b
  | .sum, a, b => along constant f.name .sum a b
  | .atan2, a, b => ofOperator ⟨f.name, .atan2, none, false, false⟩ a b
  | .pow, a, b => ofOperator ⟨f.name, .power, none, false, false⟩ a b
  | .normP, ⟨.matrix, m⟩, b =>
    match b.scalar? with
    | some p => .ok ⟨f.name, .normP m p⟩
    | none => unsupported f.name [a, b]
  | .zeros, ⟨.integer, rows⟩, ⟨.integer, cols⟩ => .ok ⟨f.name, .filled rows cols 0.0⟩
  | .ones, ⟨.integer, rows⟩, ⟨.integer, cols⟩ => .ok ⟨f.name, .filled rows cols 1.0⟩
  | .kron, ⟨.matrix, x⟩, ⟨.matrix, y⟩ => .ok ⟨f.name, .kron x y⟩
  | .dot, ⟨.matrix, x⟩, ⟨.matrix, y⟩ => .ok ⟨f.name, .dot x y⟩
  | .solve, a, b => solve a b
  | .normP, _, _ | .zeros, _, _ | .ones, _, _ | .kron, _, _ | .dot, _, _ =>
    unsupported f.name [a, b]
  | f, _, _ => .error (.wrongArity f 2)

/-- The recipe of a function call. -/
def ofCall (constant : Cell .integer → Option Int64) (f : Builtin) (args : List Variable) :
    Except Malformed Recipe :=
  if !f.arities.contains args.length then .error (.wrongArity f args.length)
  else match args with
    | [a] => ofFunction1 f a
    | [a, b] => ofFunction2 constant f a b
    | _ => .error (.wrongArity f args.length)

/-- The recipe of the elements of a matrix at an address: a number if the address means a single
place whatever its cells hold. -/
def ofAddress (m : Cell .matrix) (address : Address) : Recipe :=
  if address.isSingle then ⟨"extractScalar", .element m address⟩
  else ⟨"extract", .submatrix m address⟩

/-- The operation of a recipe with its target. -/
def into (r : Recipe) (target : Cell r.kind) : Operation := ⟨r.name, target, r.term⟩

end Recipe

/-! ### Assignments -/

/-- The index that a variable is. -/
def Index.ofVariable (v : Variable) : Except Malformed Index :=
  match v with
  | ⟨.integer, cell⟩ => .ok (.single cell)
  | ⟨.sequence, cell⟩ => .ok (.sequence cell)
  | v => .error (.notAnIndex v.kind)

/-- One index list addresses elements, two address rows and columns. -/
def Address.ofIndices : List Index → Except Malformed Address
  | [index] => .ok (.flat index)
  | [rows, cols] => .ok (.grid rows cols)
  | _ => .error .tooManyIndices

namespace Operation

/-- The assignment of a variable to another one.  Integers widen to doubles, and a matrix goes
into a double if it has a single element when the assignment is performed. -/
def copy (source target : Variable) : Except Malformed Operation :=
  match source, target with
  | ⟨.matrix, a⟩, ⟨.matrix, b⟩ => .ok ⟨"copy-mm", b, .matrix a⟩
  | ⟨.matrix, a⟩, ⟨.double, b⟩ => .ok ⟨"copy-m1s", b, .onlyElement a⟩
  | ⟨.integer, a⟩, ⟨.integer, b⟩ => .ok ⟨"copy-ii", b, .integer a⟩
  | ⟨.sequence, a⟩, ⟨.sequence, b⟩ => .ok ⟨"copy-is-is", b, .sequence a⟩
  | ⟨.integer, a⟩, ⟨.double, b⟩ => .ok ⟨"copy-ss", b, .scalar (.integer a)⟩
  | ⟨.double, a⟩, ⟨.double, b⟩ => .ok ⟨"copy-ss", b, .scalar (.double a)⟩
  | a, b => .error (.cannotCopy a.kind b.kind)

/-- The assignment of a variable to the places of a matrix. -/
def insert (source : Variable) (target : Cell .matrix) (address : Address) :
    Except Malformed Operation :=
  match source with
  | ⟨.matrix, a⟩ => .ok ⟨"copyR", target, .inserted target (.matrix a) address⟩
  | source =>
    match source.scalar? with
    | some s => .ok ⟨"copyR", target, .inserted target (.scalar s) address⟩
    | none => .error (.cannotInsert source.kind)

end Operation

end MatrixCalc
