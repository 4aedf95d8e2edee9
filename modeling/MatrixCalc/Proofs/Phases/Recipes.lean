import MatrixCalc.Proofs.Invocation.Calls
import MatrixCalc.Proofs.Phases.Performing

/-!
# What recipes and checks answer

The parts of the compilation that do not touch the draft either answer or refuse.  None of them
looks for brackets, so no refusal is about a bracket that is missing or about how deep groups nest;
and the recipes they answer are regular: the operators that have an integer recipe are those of the
four operations that integers have, and a number is read only at an address of single indices.

* `Malformed.OfGroups` : the text lacks a closing bracket, or its groups nest too deeply.
* `Answers` : an answer has a property, and a refusal is not about groups.
* `Recipe.answers_binary`, `Recipe.answers_unary`, `Recipe.answers_ofCall` : **recipes are
  regular.**
-/

namespace MatrixCalc

/-- A closing bracket is missing. -/
def Malformed.Unclosed : Malformed → Prop
  | unterminated _ | unterminatedInvocation => True
  | _ => False

/-- A closing bracket is missing, or groups nest too deeply. -/
def Malformed.OfGroups : Malformed → Prop
  | unterminated _ | unterminatedInvocation | nestedTooDeeply => True
  | _ => False

theorem Malformed.Unclosed.ofGroups {cause : Malformed} (h : cause.Unclosed) : cause.OfGroups := by
  cases cause <;> trivial

/-- The answer is good, and a refusal is not about groups. -/
def Answers {α : Type} (good : α → Prop) : Except Malformed α → Prop
  | .ok a => good a
  | .error cause => ¬ cause.OfGroups

/-- A refusal is not about groups. -/
abbrev Decides {α : Type} : Except Malformed α → Prop := Answers fun _ => True

section Answers

variable {α β : Type} {good : α → Prop} {x : Except Malformed α}

theorem Answers.bind {better : β → Prop} (h : Answers good x) {f : α → Except Malformed β}
    (hf : ∀ a, Answers better (f a)) : Answers better (x >>= f) := by
  cases x with
  | ok a => exact hf a
  | error cause => exact h

theorem Answers.map (h : Answers good x) (f : α → β) : Decides (x.map f) := by
  cases x with
  | ok a => trivial
  | error cause => exact h

theorem decides_mapM {f : α → Except Malformed β} (h : ∀ a, Decides (f a)) (xs : List α) :
    Decides (xs.mapM f) := by
  induction xs with
  | nil => trivial
  | cons x xs ih =>
    rw [List.mapM_cons]
    exact (h x).bind fun _ => ih.bind fun _ => trivial

end Answers

/-! ### Recipes -/

/-- The recipe is regular, or there is none. -/
abbrev GivesRegular : Except Malformed Recipe → Prop := Answers fun r => r.term.Regular

namespace Recipe

theorem answers_unsupported (what : String) (operands : List Variable) :
    GivesRegular (unsupported what operands) := id

/-- The recipes of an operator are regular if integers have its arithmetic, or it makes none on
integers. -/
theorem answers_ofOperator {o : Operator} (h : o.integer = true → o.scalar.Integral)
    (a b : Variable) : GivesRegular (ofOperator o a b) := by
  unfold ofOperator
  split
  · split
    · trivial
    · exact answers_unsupported _ _
  · split
    · trivial
    · exact answers_unsupported _ _
  · split
    · trivial
    · exact answers_unsupported _ _
  · split
    · rename_i integer
      exact ⟨h integer, trivial⟩
    · trivial
  · split
    · trivial
    · exact answers_unsupported _ _

theorem answers_solve (a b : Variable) : GivesRegular (solve a b) := by
  unfold solve
  split
  · trivial
  · exact answers_unsupported _ _

theorem answers_divide (a b : Variable) : GivesRegular (divide a b) := by
  unfold divide
  split
  · trivial
  · exact answers_ofOperator (fun _ => .inr (.inr (.inr rfl))) a b

/-- **The recipes of binary operators are regular.** -/
theorem answers_binary (s : Symbol) (a b : Variable) : GivesRegular (binary s a b) := by
  unfold binary
  split
  case h_4 => exact answers_divide a b
  case h_5 => exact answers_divide b a
  case h_10 => exact id
  all_goals exact answers_ofOperator (by simp [Arith.Integral]) a b

theorem answers_elementwise (name : String) (f : ElementFn) (whole : Option IntegerFn)
    (a : Variable) : GivesRegular (elementwise name f whole a) := by
  unfold elementwise
  split
  · trivial
  · trivial
  · split
    · trivial
    · exact answers_unsupported _ _

theorem answers_ofMatrix (name : String) (f : MatrixFn) (scalar : Option ElementFn)
    (a : Variable) : GivesRegular (ofMatrix name f scalar a) := by
  unfold ofMatrix
  split
  · trivial
  · split
    · trivial
    · exact answers_unsupported _ _
  · exact answers_unsupported _ _

/-- **The recipes of unary operators are regular.** -/
theorem answers_unary (s : Symbol) (a : Variable) : GivesRegular (unary s a) := by
  unfold unary
  split
  · exact answers_elementwise _ _ _ _
  · trivial
  · exact id
  · exact id

theorem answers_ofMeasure (name : String) (f : MatrixMeasure) (scalar : ElementFn)
    (whole : Option IntegerFn) (a : Variable) : GivesRegular (ofMeasure name f scalar whole a) := by
  unfold ofMeasure
  split
  · trivial
  · exact answers_elementwise _ _ _ _

theorem answers_along (constant : Cell .integer → Option Int64) (name : String) (how : Reduction)
    (a axis : Variable) : GivesRegular (along constant name how a axis) := by
  unfold along
  split
  · split
    · trivial
    · trivial
    · exact id
  · exact id
  · exact answers_unsupported _ _

theorem answers_ofFunction1 (f : Builtin) (a : Variable) : GivesRegular (ofFunction1 f a) := by
  unfold ofFunction1
  split
  case h_18 =>
    split
    · trivial
    · trivial
    · exact answers_unsupported _ _
  case h_19 => exact id
  all_goals first
    | exact answers_ofMatrix _ _ _ _
    | exact answers_ofMeasure _ _ _ _ _
    | exact answers_elementwise _ _ _ _

theorem answers_ofFunction2 (constant : Cell .integer → Option Int64) (f : Builtin)
    (a b : Variable) : GivesRegular (ofFunction2 constant f a b) := by
  unfold ofFunction2
  split
  all_goals first
    | trivial
    | exact answers_along _ _ _ _ _
    | exact answers_ofOperator (by simp) _ _
    | exact answers_solve _ _
    | exact answers_unsupported _ _
    | exact id
    | skip
  all_goals
    split
    · trivial
    · exact answers_unsupported _ _

/-- **The recipes of calls are regular.** -/
theorem answers_ofCall (constant : Cell .integer → Option Int64) (f : Builtin)
    (args : List Variable) : GivesRegular (ofCall constant f args) := by
  unfold ofCall
  split
  · exact id
  · split
    · exact answers_ofFunction1 _ _
    · exact answers_ofFunction2 _ _ _ _
    · exact id

theorem regular_ofAddress (m : Cell .matrix) (address : Address) :
    (ofAddress m address).term.Regular := by
  unfold ofAddress
  by_cases single : address.isSingle = true
  · rw [if_pos single]
    exact ⟨trivial, single⟩
  · rw [if_neg single]
    trivial

end Recipe

/-! ### Assignments -/

theorem Operation.answers_copy (source target : Variable) :
    Answers (fun op => op.term.Regular) (copy source target) := by
  unfold copy
  split
  all_goals first
    | trivial
    | exact id

theorem Operation.answers_insert (source : Variable) (target : Cell .matrix)
    (address : Address) : Answers (fun op => op.term.Regular) (insert source target address) := by
  unfold insert
  split
  · trivial
  · split
    · trivial
    · exact id

theorem Index.decides_ofVariable (v : Variable) : Decides (ofVariable v) := by
  unfold ofVariable
  split
  · trivial
  · trivial
  · exact id

theorem Address.decides_ofIndices (indices : List Index) : Decides (ofIndices indices) := by
  unfold ofIndices
  split
  · trivial
  · trivial
  · exact id

/-! ### Ranges, literals and targets -/

namespace Range

theorem decides_bound (v : Variable) : Decides (bound v) := by
  unfold bound
  split
  · trivial
  · exact id

theorem decides_parse (items : List (Option Variable)) : Decides (parse items) := by
  fun_induction parse items with
  | case1 | case2 => trivial
  | case4 | case6 => exact id
  | case3 _ ih => exact ih.bind fun _ => trivial
  | case5 => exact (decides_bound _).bind fun _ => trivial
  | case7 _ _ _ _ ih =>
    exact (decides_bound _).bind fun _ => (decides_bound _).bind fun _ =>
      (decides_bound _).bind fun _ => ih.bind fun _ => trivial
  | case8 => exact (decides_bound _).bind fun _ => (decides_bound _).bind fun _ => id
  | case9 _ _ _ _ _ ih =>
    exact (decides_bound _).bind fun _ => (decides_bound _).bind fun _ => ih.bind fun _ => trivial
  | case10 _ _ _ _ _ _ _ ih => exact ih.bind fun _ => trivial

theorem decides_piece (s : Store) (item : Item) : Decides (piece s item) := by
  unfold piece
  split
  · trivial
  · trivial
  · exact id

theorem decides_parts (s : Store) (run : List (Cell .integer)) (vs : List Variable) :
    Decides (parts s run vs) := by
  fun_induction parts s run vs with
  | case1 => trivial
  | case2 _ _ _ ih => exact ih
  | case3 _ _ _ ih => exact ih.bind fun _ => trivial
  | case4 => exact id

end Range

theorem Group.decides_checkClosed (s : Store) (blocks : List Variable) :
    Decides (checkClosed s blocks) := by
  unfold checkClosed
  split
  · exact id
  · trivial

theorem Literal.decides_checkStatic (s : Store) (constant : Cell .integer → Option Int64)
    (rows : Literal) : Decides (rows.checkStatic s constant) := by
  have from' : ∀ r width, Decides (checkStaticFrom s constant r width rows) := by
    induction rows with
    | nil => exact fun _ _ => trivial
    | cons row rows ih =>
      intro r width
      simp only [checkStaticFrom]
      split
      · exact id
      · split
        · split
          · exact ih _ _
          · exact id
        · exact ih _ _
        · exact ih _ _
  exact from' 0 none

namespace Statement

theorem decides_splitAssignment (tokens : List Token) : Decides (splitAssignment tokens) := by
  unfold splitAssignment
  split
  · exact id
  · trivial
  · exact id

theorem decides_targetIndices (left : List Token) : Decides (targetIndices left) := by
  unfold targetIndices
  split
  · split
    · split
      · trivial
      · exact id
    · exact id
  · exact id

end Statement

end MatrixCalc
