import MatrixCalc.Proofs.Expression.Atoms
import MatrixCalc.Proofs.Expression.Signs
import MatrixCalc.Proofs.Phases.Sessions

/-!
# Trees of integers

What `+`, `-`, `*`, `.*`, `/` and unary minus do with 64-bit integers.  Sums, differences, products
and negatives are reduced modulo `2 ^ 64` to the range of these integers, at every operator; a
quotient is cut towards zero, and it does not exist if the divisor is zero or the quotient lies out
of the range.

* `Expression.evaluate` : the value of a tree, from the leaves up.
* `Expression.exact` : the value of a tree without divisions among all integers.
* `Expression.evaluate_of_exact` : **reducing once, at the root, is enough**.
* `Session.process_integers` : **what the assignment of a tree of integers does**.
-/

namespace MatrixCalc

/-! ### Operators -/

/-- The integer modulo `2 ^ 64`, from `-2 ^ 63` up to `2 ^ 63 - 1`. -/
def wrapped (n : Int) : Int := n.bmod (2 ^ 64)

theorem wrapped_toInt (k : Int64) : wrapped k.toInt = k.toInt := by
  have least := k.le_toInt
  have greatest := k.toInt_lt
  exact Int.bmod_eq_of_le (by omega) (by omega)

theorem wrapped_neg (n : Int) : wrapped (-wrapped n) = wrapped (-n) := Int.bmod_neg_bmod

theorem wrapped_add (m n : Int) : wrapped (wrapped m + wrapped n) = wrapped (m + n) :=
  Int.bmod_add_bmod.trans Int.add_bmod_bmod

theorem wrapped_sub (m n : Int) : wrapped (wrapped m - wrapped n) = wrapped (m - n) :=
  Int.bmod_sub_bmod.trans Int.sub_bmod_bmod

theorem wrapped_mul (m n : Int) : wrapped (wrapped m * wrapped n) = wrapped (m * n) :=
  Int.bmod_mul_bmod.trans Int.mul_bmod_bmod

/-- Only one quotient of two integers of 64 bits lies out of their range. -/
theorem toInt_div_of_defined {a b : Int64} (defined : ¬ (a = Int64.minValue ∧ b = -1)) :
    (a / b).toInt = a.toInt.tdiv b.toInt := by
  by_cases least : a = Int64.minValue
  · have other : b ≠ -1 := by
      intro negative
      exact defined ⟨least, negative⟩
    exact Int64.toInt_div_of_ne_right a b other
  · exact Int64.toInt_div_of_ne_left a b least

/-- What an operator does with an integer. -/
def UnaryOperator.exact : UnaryOperator → Int → Option Int
  | negate, a => some (-a)
  | transpose, _ => none

/-- What an operator does with an integer of 64 bits. -/
def UnaryOperator.onWord (o : UnaryOperator) (a : Int) : Option Int := (o.exact a).map wrapped

namespace BinaryOperator

/-- The operators that give the integers their ring structure. -/
def ring : List BinaryOperator := [plus, minus, times, elementTimes]

/-- The operators whose results with integers are integers. -/
def integral : List BinaryOperator := divideRight :: ring

/-- What an operator of the ring does with two integers. -/
def exact : BinaryOperator → Int → Int → Option Int
  | plus, a, b => some (a + b)
  | minus, a, b => some (a - b)
  | times, a, b | elementTimes, a, b => some (a * b)
  | _, _, _ => none

/-- What an operator does with two integers of 64 bits. -/
def onWords : BinaryOperator → Int → Int → Option Int
  | divideRight, a, b => if b = 0 ∨ (a = -2 ^ 63 ∧ b = -1) then none else some (a.tdiv b)
  | o, a, b => (o.exact a b).map wrapped

/-- The value that an operator gives for two integers, and its value for those of 64 bits. -/
theorem exists_apply {o : BinaryOperator} (whole : o ∈ integral) (a b : Int64) :
    ∃ r : Option Int64, o.apply ⟨.integer, a⟩ ⟨.integer, b⟩ = r.map (Sigma.mk Kind.integer) ∧
      o.onWords a.toInt b.toInt = r.map Int64.toInt := by
  cases o
  case power | elementPower | elementDivide | divideLeft => exact absurd whole (by decide)
  case plus => exact ⟨some (a + b), rfl, congrArg some (Int64.toInt_add a b).symm⟩
  case minus => exact ⟨some (a - b), rfl, congrArg some (Int64.toInt_sub a b).symm⟩
  case times => exact ⟨some (a * b), rfl, congrArg some (Int64.toInt_mul a b).symm⟩
  case elementTimes => exact ⟨some (a * b), rfl, congrArg some (Int64.toInt_mul a b).symm⟩
  case divideRight =>
    have least : a = Int64.minValue ↔ a.toInt = -2 ^ 63 := Int64.toInt_inj.symm
    have negative : b = -1 ↔ b.toInt = -1 := Int64.toInt_inj.symm
    have same : (b = 0 ∨ (a = Int64.minValue ∧ b = -1)) ↔
        (b.toInt = 0 ∨ (a.toInt = -2 ^ 63 ∧ b.toInt = -1)) :=
      or_congr Int64.toInt_inj.symm (and_congr least negative)
    have applied : divideRight.apply ⟨.integer, a⟩ ⟨.integer, b⟩ =
        (((Arith.divide.applyInteger a b).mapError Error.numeric).toOption).map
          (Sigma.mk Kind.integer) := rfl
    rw [applied, Arith.applyInteger, onWords]
    by_cases undefined : b = 0 ∨ (a = Int64.minValue ∧ b = -1)
    · rw [if_pos undefined, if_pos (same.1 undefined)]
      exact ⟨none, rfl, rfl⟩
    · rw [if_neg undefined, if_neg (mt same.2 undefined)]
      have inRange := toInt_div_of_defined fun least => undefined (.inr least)
      exact ⟨some (a / b), rfl, congrArg some inRange.symm⟩

end BinaryOperator

namespace Expression

/-! ### Trees -/

section

variable {α β : Type}

/-- The operators between two operands are among the given ones, and nothing is transposed. -/
def Over (operators : List BinaryOperator) : Expression α → Prop
  | leaf _ => True
  | unary o x => o = .negate ∧ x.Over operators
  | binary o l r => o ∈ operators ∧ l.Over operators ∧ r.Over operators

/-- The value of a tree without divisions, with the given integers as its leaves. -/
def exact (value : α → Int) (e : Expression α) : Option Int :=
  e.interpret UnaryOperator.exact BinaryOperator.exact fun a => some (value a)

/-- The value of a tree of integers of 64 bits, if none of its divisions fails. -/
def evaluate (value : α → Int) (e : Expression α) : Option Int :=
  e.interpret UnaryOperator.onWord BinaryOperator.onWords fun a => some (value a)

variable {operators : List BinaryOperator} {e : Expression α} {value : α → Int}

theorem exact_unary (o : UnaryOperator) (x : Expression α) :
    (unary o x).exact value = (x.exact value).bind o.exact := rfl

theorem exact_binary (o : BinaryOperator) (l r : Expression α) : (binary o l r).exact value =
    (l.exact value).bind fun m => (r.exact value).bind fun n => o.exact m n := rfl

theorem evaluate_unary (o : UnaryOperator) (x : Expression α) :
    (unary o x).evaluate value = (x.evaluate value).bind o.onWord := rfl

theorem evaluate_binary (o : BinaryOperator) (l r : Expression α) : (binary o l r).evaluate value =
    (l.evaluate value).bind fun m => (r.evaluate value).bind fun n => o.onWords m n := rfl

theorem Over.plain (h : e.Over operators) : e.Plain := by
  induction e with
  | leaf => trivial
  | unary o x ih => exact ⟨h.1, ih h.2⟩
  | binary o l r ihl ihr => exact ⟨ihl h.2.1, ihr h.2.2⟩

theorem Over.map (h : e.Over operators) (f : α → β) : (e.map f).Over operators := by
  induction e with
  | leaf => trivial
  | unary o x ih => exact ⟨h.1, ih h.2⟩
  | binary o l r ihl ihr => exact ⟨h.1, ihl h.2.1, ihr h.2.2⟩

theorem Alike.over {R : α → β → Prop} {x : Expression β} (h : Alike R e x)
    (admitted : e.Over operators) : x.Over operators := by
  induction h with
  | leaf => trivial
  | unary _ ih => exact ⟨admitted.1, ih admitted.2⟩
  | binary _ _ ihl ihr => exact ⟨admitted.1, ihl admitted.2.1, ihr admitted.2.2⟩

/-! ### Exact values -/

/-- **Reducing once, at the root, is enough**: a tree without divisions has the value that it has
among all integers, modulo `2 ^ 64`. -/
theorem evaluate_of_exact (admitted : e.Over BinaryOperator.ring)
    (range : ∀ a ∈ e.leaves, wrapped (value a) = value a) :
    ∃ n, e.exact value = some n ∧ e.evaluate value = some (wrapped n) := by
  induction e with
  | leaf a => exact ⟨value a, rfl, congrArg some (range a List.mem_cons_self).symm⟩
  | unary o x ih =>
    obtain ⟨rfl, admitted⟩ := admitted
    obtain ⟨n, exact', evaluated⟩ := ih admitted range
    refine ⟨-n, ?_, ?_⟩
    · rw [exact_unary, exact']
      rfl
    · rw [evaluate_unary, evaluated]
      exact congrArg some (wrapped_neg n)
  | binary o l r ihl ihr =>
    obtain ⟨ring, left, right⟩ := admitted
    obtain ⟨m, exactl, evaluatedl⟩ := ihl left fun a mem => range a (List.mem_append_left _ mem)
    obtain ⟨n, exactr, evaluatedr⟩ := ihr right fun a mem => range a (List.mem_append_right _ mem)
    have operator : ∃ k, o.exact m n = some k ∧
        o.onWords (wrapped m) (wrapped n) = some (wrapped k) := by
      cases o
      case plus => exact ⟨m + n, rfl, congrArg some (wrapped_add m n)⟩
      case minus => exact ⟨m - n, rfl, congrArg some (wrapped_sub m n)⟩
      case times => exact ⟨m * n, rfl, congrArg some (wrapped_mul m n)⟩
      case elementTimes => exact ⟨m * n, rfl, congrArg some (wrapped_mul m n)⟩
      all_goals exact absurd ring (by decide)
    obtain ⟨k, exactly, onWords⟩ := operator
    refine ⟨k, ?_, ?_⟩
    · rw [exact_binary, exactl, exactr]
      exact exactly
    · rw [evaluate_binary, evaluatedl, evaluatedr]
      exact onWords

/-! ### Values of variables -/

/-- A tree whose leaves hold integers has the value that it has among the integers of 64 bits. -/
theorem exists_evaluate (admitted : e.Over BinaryOperator.integral) {datum : α → Option Datum}
    (leaves : ∀ a ∈ e.leaves, ∃ k : Int64, datum a = some ⟨.integer, k⟩ ∧ value a = k.toInt) :
    ∃ r : Option Int64, e.valueOf datum = r.map (Sigma.mk Kind.integer) ∧
      e.evaluate value = r.map Int64.toInt := by
  induction e with
  | leaf a =>
    obtain ⟨k, holds, eq⟩ := leaves a List.mem_cons_self
    exact ⟨some k, holds, congrArg some eq⟩
  | unary o x ih =>
    obtain ⟨rfl, admitted⟩ := admitted
    obtain ⟨r, holds, evaluated⟩ := ih admitted leaves
    refine ⟨r.map (-·), ?_, ?_⟩
    · rw [valueOf_unary, holds]
      cases r <;> rfl
    · rw [evaluate_unary, evaluated]
      cases r with
      | none => rfl
      | some k => exact congrArg some (Int64.toInt_neg k).symm
  | binary o l r ihl ihr =>
    obtain ⟨whole, left, right⟩ := admitted
    obtain ⟨x, holdsl, evaluatedl⟩ := ihl left fun a mem => leaves a (List.mem_append_left _ mem)
    obtain ⟨y, holdsr, evaluatedr⟩ := ihr right fun a mem => leaves a (List.mem_append_right _ mem)
    rw [valueOf_binary, evaluate_binary, holdsl, holdsr, evaluatedl, evaluatedr]
    cases x with
    | none => exact ⟨none, rfl, rfl⟩
    | some a =>
      cases y with
      | none => exact ⟨none, rfl, rfl⟩
      | some b => exact BinaryOperator.exists_apply whole a b

end

end Expression

/-! ### Failures -/

/-- Whatever computes an integer fails only with divisions that are not defined. -/
theorem Term.division_of_integer {t : Term .integer} (orderly : t.Orderly) {s : Store} {e : Error}
    (failed : t.eval s = .error e) : ∃ a b, e = .numeric (.integerDivision a b) := by
  cases t with
  | integerArith op a b =>
    rw [eval] at failed
    rcases orderly with rfl | rfl | rfl | rfl
    case inr.inr.inr =>
      simp only [Arith.applyInteger] at failed
      split at failed <;> cases failed
      exact ⟨_, _, rfl⟩
    all_goals cases failed
  | integerUnary | integer => cases failed

theorem Operation.division_of_integer {op : Operation} (orderly : op.term.Orderly)
    (kind : op.output.kind = .integer) {s : Store} {e : Error}
    (failed : op.term.eval s = .error e) : ∃ a b, e = .numeric (.integerDivision a b) := by
  obtain ⟨name, target, term⟩ := op
  obtain rfl : _ = Kind.integer := kind
  exact Term.division_of_integer orderly failed

theorem BinaryOperator.kind?_integer {o : BinaryOperator} (whole : o ∈ integral) :
    o.kind? .integer .integer = some .integer := by
  cases o
  case power | elementPower | elementDivide | divideLeft => exact absurd whole (by decide)
  all_goals rfl

/-- The operations of a tree of integers compute integers. -/
theorem Expression.Computes.integer {x : Expression Variable} {program : Program} {v : Variable}
    (h : x.Computes program v) (admitted : x.Over BinaryOperator.integral)
    (integers : ∀ w ∈ x.leaves, w.kind = .integer) :
    v.kind = .integer ∧ ∀ op ∈ program, op.output.kind = .integer := by
  induction h with
  | leaf v => exact ⟨integers v List.mem_cons_self, List.forall_mem_nil _⟩
  | @unary o x program a recipe target _ made _ ih =>
    obtain ⟨rfl, admitted⟩ := admitted
    obtain ⟨kind, earlier⟩ := ih admitted integers
    have result := UnaryOperator.kind?_eq .negate a
    rw [kind, made] at result
    have integer : recipe.kind = .integer := (Option.some.inj result).symm
    exact ⟨integer, List.forall_mem_append.2 ⟨earlier, List.forall_mem_singleton.2 integer⟩⟩
  | @binary o l r program program' a b recipe target _ _ made _ ihl ihr =>
    obtain ⟨whole, left, right⟩ := admitted
    obtain ⟨kindl, first⟩ := ihl left fun w mem => integers w (List.mem_append_left _ mem)
    obtain ⟨kindr, second⟩ := ihr right fun w mem => integers w (List.mem_append_right _ mem)
    have result := o.kind?_eq a b
    rw [kindl, kindr, made, o.kind?_integer whole] at result
    have integer : recipe.kind = .integer := (Option.some.inj result).symm
    exact ⟨integer, List.forall_mem_append.2 ⟨List.forall_mem_append.2 ⟨first, second⟩,
      List.forall_mem_singleton.2 integer⟩⟩

/-! ### Sessions -/

/-- The integer that a content is. -/
def Datum.integer? : Datum → Option Int
  | ⟨.integer, k⟩ => some k.toInt
  | _ => none

/-- What an atom stands for, given the values of the variables. -/
def Expression.Atom.value (value : String → Int) : Atom → Int
  | name x => value x
  | literal n _ => n

namespace Session

open Expression

/-- The integer that the variable of a name holds. -/
def integer? (s : Session) (name : String) : Option Int := (s.datum? name).bind Datum.integer?

/-- A text gives a new name an integer, or fails with a division that is not defined. -/
structure Calculates (s : Session) (source target : String) (result : Option Int) : Prop where
  /-- It succeeds iff there is a result. -/
  succeeds_iff : (∃ program, (s.process source).result = .ok program) ↔ ∃ n, result = some n
  /-- The name is bound to a variable that holds the result. -/
  stores : ∀ n, result = some n → (s.process source).session.integer? target = some n
  /-- Without a result the failure is a numeric one: a division is not defined. -/
  fails : result = none →
    ∃ a b, (s.process source).result = .error (.numeric (.integerDivision a b))

variable {s : Session} {target source : String} {pieces : List (Symbol ⊕ Operand)}
  {e : Expression Atom} {depth : Nat} {value : String → Int}

theorem datum?_of_integer? {name : String} {n : Int} (h : s.integer? name = some n) :
    ∃ k : Int64, s.datum? name = some ⟨.integer, k⟩ ∧ n = k.toInt := by
  obtain ⟨⟨kind, k⟩, holds, eq⟩ := Option.bind_eq_some_iff.1 h
  cases kind <;> cases eq
  exact ⟨k, holds, rfl⟩

/-- The leaves of a tree of integers hold integers. -/
theorem exists_datum (bound : ∀ x, .name x ∈ e.leaves → s.integer? x = some (value x)) (a : Atom)
    (mem : a ∈ e.leaves) : ∃ k : Int64, a.operand.datum? s.scope s.store = some ⟨.integer, k⟩ ∧
      a.value value = k.toInt := by
  cases a with
  | name x => exact datum?_of_integer? (bound x mem)
  | literal n small =>
    exact ⟨Int64.ofNat n, rfl, (Int64.toInt_ofNat_of_lt small).symm⟩

/-- The operations of an assignment of a tree of integers compute integers. -/
theorem integer_of_assignment {s' : Session} {program : Program}
    (a : Assignment s s' target (e.map Atom.operand) program) (wellFormed : s.WellFormed)
    (admitted : e.Over BinaryOperator.integral)
    (bound : ∀ x, .name x ∈ e.leaves → s.integer? x = some (value x))
    (free : s.scope.find? target = none) : ∀ op ∈ program, op.output.kind = .integer := by
  obtain ⟨nodes, computes, perm⟩ := a.lowering.reduces.computes
  have integers : ∀ w ∈ a.lowering.tree.leaves, w.kind = .integer := by
    refine a.lowering.becomes.forall_leaves fun b mem w becomes => ?_
    rw [leaves_map] at mem
    obtain ⟨atom, inTree, rfl⟩ := List.mem_map.1 mem
    obtain ⟨k, holds, -⟩ := exists_datum bound atom inTree
    have same := (a.lowering.datum?_eq wellFormed (.refl _) _ w becomes).symm.trans holds
    exact congrArg Sigma.fst (Option.some.inj same)
  obtain ⟨kind, inNodes⟩ := computes.integer (a.lowering.becomes.over (admitted.map _)) integers
  have output : a.output.kind = .integer := by
    rcases a.old_or_new with old | ⟨-, same, -⟩
    · cases free.symm.trans old
    · exact same.trans kind
  rw [a.program_eq]
  refine List.forall_mem_append.2 ⟨fun op mem => inNodes op (perm.mem_iff.1 mem), ?_⟩
  rw [List.forall_mem_singleton, a.copy_output]
  exact output

/-- The assignment of a tree of integers to a new name, in any layout. -/
theorem calculates_of_spells (wellFormed : s.WellFormed)
    (admitted : e.Over BinaryOperator.integral)
    (bound : ∀ x, .name x ∈ e.leaves → s.integer? x = some (value x))
    (free : s.scope.find? target = none) (unreserved : isReserved target = false)
    (printed : (e.map Atom.operand).Prints 6 false pieces depth) (shallow : depth < maxNesting)
    (text : Spells (.inr (.word target) :: .inl .assign :: pieces) source.toList) :
    s.Calculates source target (e.evaluate (Atom.value value)) := by
  have plain := printed.transpose_not_mem (admitted.map _).plain
  have numbers : ∀ a, .inr a ∈ pieces → a.IsNumber s.scope := by
    intro a mem
    have leaf := mem_leaves_of_prints printed mem
    rw [leaves_map] at leaf
    obtain ⟨atom, inTree, rfl⟩ := List.mem_map.1 leaf
    obtain ⟨k, holds, -⟩ := exists_datum bound atom inTree
    exact Operand.isNumber_iff.2 ⟨_, holds, rfl⟩
  have assigns := assigns_of_spells wellFormed text printed plain numbers
  obtain ⟨program, compiled⟩ := assigns.compiles_iff.2
    ⟨unreserved, shallow, fun w found => by cases free.symm.trans found⟩
  obtain ⟨r, value', evaluated⟩ := exists_evaluate admitted (exists_datum bound)
  have valueOf : s.valueOf (e.map Atom.operand) = r.map (Sigma.mk Kind.integer) :=
    (interpret_map _ _ _ _ e).trans value'
  have succeeds : (∃ program, (s.process source).result = .ok program) ↔ r.isSome = true := by
    rw [assigns.succeeds_iff, valueOf, Option.isSome_map]
    exact and_iff_right ⟨program, compiled⟩
  rw [evaluated]
  refine ⟨?_, fun n result => ?_, fun undefined => ?_⟩
  · rw [succeeds, Option.isSome_iff_exists]
    simp
  · obtain ⟨k, rfl, rfl⟩ := Option.map_eq_some_iff.1 result
    have stores := assigns.stores (succeeds.2 rfl)
    rw [valueOf, Option.map_some, Option.bind_some, stored?, free] at stores
    rw [integer?, stores]
    rfl
  · obtain rfl : r = none := Option.map_eq_none_iff.1 undefined
    cases processed : (s.process source).result with
    | ok program' => cases succeeds.1 ⟨program', processed⟩
    | error cause =>
      obtain ⟨a⟩ := (compiles_assignment wellFormed text printed plain numbers).2 program compiled
      rcases process_eq_error_iff.1 processed with failed | ⟨program', compiled', failed⟩
      · cases failed.symm.trans compiled
      · cases compiled.symm.trans compiled'
        obtain ⟨before, op, after, split, -, evaluation⟩ := Program.perform_eq_some_iff.1 failed
        have mem : op ∈ program := split ▸ List.mem_append_right _ List.mem_cons_self
        have integer := integer_of_assignment a wellFormed admitted bound free op mem
        obtain ⟨x, y, rfl⟩ :=
          Operation.division_of_integer (orderly_of_compile compiled op mem) integer evaluation
        exact ⟨x, y, rfl⟩

/-- Integers of 64 bits are in their range. -/
theorem wrapped_of_integer? {name : String} {n : Int} (h : s.integer? name = some n) :
    MatrixCalc.wrapped n = n := by
  obtain ⟨k, -, rfl⟩ := datum?_of_integer? h
  exact wrapped_toInt k

/-- **What the assignment of a tree of integers does.**  The leaves are names of integer variables
and numbers below `2 ^ 63`, the operators `+`, `-`, `*`, `.*`, `/` and unary minus; the tree is
printed with the brackets that it needs and a blank behind each unary minus, or laid out in any
other way that means the same.  The assignment to a new name succeeds iff the tree has a value among
the integers of 64 bits, which the new variable then holds; otherwise it fails with a numeric error:
a division is not defined.  Without divisions there is a value: the one among all integers, modulo
`2 ^ 64`. -/
theorem process_integers {h : History} (reachable : h.Reachable) {e : Expression Atom}
    (admitted : e.Over BinaryOperator.integral) {value : String → Int}
    (bound : ∀ x, .name x ∈ e.leaves → h.session.integer? x = some (value x))
    (shallow : e.nesting < maxNesting) {target : String}
    (free : h.session.scope.find? target = none) (named : bindable target = true) :
    h.session.Calculates (target ++ " = " ++ e.spaced) target
      (e.evaluate (Atom.value value)) ∧
    (∀ pieces depth source, (e.map Atom.operand).Prints 6 false pieces depth →
      depth < maxNesting →
      Spells (.inr (.word target) :: .inl .assign :: pieces) source.toList →
      h.session.Calculates source target (e.evaluate (Atom.value value))) ∧
    (e.Over BinaryOperator.ring → ∃ n, e.exact (Atom.value value) = some n ∧
      e.evaluate (Atom.value value) = some (MatrixCalc.wrapped n)) := by
  obtain ⟨unreserved, word⟩ : isReserved target = false ∧ isIdentifier target = true := by
    simpa [bindable] using named
  have words : ∀ x, .name x ∈ e.leaves → isIdentifier x = true := by
    intro x mem
    obtain ⟨k, holds, -⟩ := datum?_of_integer? (bound x mem)
    obtain ⟨v, found, -⟩ := Option.map_eq_some_iff.1 holds
    have named' := reachable.wellFormed.named x v found
    simp only [bindable, Bool.and_eq_true] at named'
    exact named'.2
  have layouts : ∀ pieces depth source, (e.map Atom.operand).Prints 6 false pieces depth →
      depth < maxNesting →
      Spells (.inr (.word target) :: .inl .assign :: pieces) source.toList →
      h.session.Calculates source target (e.evaluate (Atom.value value)) :=
    fun _ _ _ printed shallow text =>
      calculates_of_spells reachable.wellFormed admitted bound free unreserved printed shallow text
  have printed := (prints_write 6 false e).map Atom.operand
  refine ⟨layouts _ _ _ printed shallow (spells_spaced word words), layouts, fun ring => ?_⟩
  refine evaluate_of_exact ring fun a mem => ?_
  cases a with
  | name x => exact wrapped_of_integer? (bound x mem)
  | literal n small =>
    have least : -(2 ^ 63) ≤ (n : Int) := by omega
    have greatest : (n : Int) < 2 ^ 63 := by omega
    exact Int.bmod_eq_of_le least greatest

/-- A quotient that is cut towards zero, and a difference that leaves the range. -/
theorem process_integers_of_quotient : ∃ (h : History) (e : Expression Atom),
    h.Reachable ∧ e.Over BinaryOperator.integral ∧ h.session.integer? "n" = some (-5) ∧
    "t" ++ " = " ++ e.spaced = "t = 9223372036854775807-n/2" ∧
    (∃ program, (h.session.process "t = 9223372036854775807-n/2").result = .ok program) ∧
    (h.session.process "t = 9223372036854775807-n/2").session.integer? "t" =
      some (-9223372036854775807) := by
  let s : Session := { store := { integers := #[-5] }, scope := ⟨[("n", ⟨.integer, ⟨0⟩⟩)]⟩ }
  let e : Expression Atom := .binary .minus (.leaf (.literal 9223372036854775807 (by decide)))
    (.binary .divideRight (.leaf (.name "n")) (.leaf (.literal 2 (by decide))))
  have defined : @define {} .integer "n" (-5) = .ok s := by rfl
  have reachable : History.Reachable { session := s } :=
    .single (@History.Step.define {} .integer "n" (-5) s nofun defined)
  have admitted : e.Over BinaryOperator.integral :=
    ⟨by decide, trivial, by decide, trivial, trivial⟩
  have holds : s.integer? "n" = some (-5) := by decide +kernel
  have bound : ∀ x, .name x ∈ e.leaves → s.integer? x = some ((fun _ => -5) x) := by
    intro x mem
    obtain rfl : x = "n" := by simpa [e, leaves] using mem
    exact holds
  have text : "t" ++ " = " ++ e.spaced = "t = 9223372036854775807-n/2" := by decide +kernel
  have result : e.evaluate (Atom.value fun _ => -5) = some (-9223372036854775807) := by
    decide +kernel
  have free : s.scope.find? "t" = none := by decide +kernel
  have calculates :=
    (process_integers reachable admitted bound (by decide) free (by decide +kernel)).1
  rw [text, result] at calculates
  exact ⟨{ session := s }, e, reachable, admitted, holds, text,
    calculates.succeeds_iff.2 ⟨_, rfl⟩, calculates.stores _ rfl⟩

end Session

end MatrixCalc
