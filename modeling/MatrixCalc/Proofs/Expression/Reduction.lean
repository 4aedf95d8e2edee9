import MatrixCalc.Proofs.Conservation
import MatrixCalc.Proofs.Expression.Basic
import MatrixCalc.Proofs.Reachable
import MatrixCalc.Proofs.Renaming

/-!
# Reducing expressions

Compiling an expression emits the operation of one operator after the other, not in the order of
the tree.  Each time a part of the tree whose operands are variables is replaced by the variable
that the new operation writes (`Expression.Step`).  Whatever the order is, what is left of the tree
keeps its kind and its value, and the operations emitted in the end are those of the tree.

* `Expression.Reduces.kind?_eq` : the kind is kept.
* `Expression.Reduces.computes` : the operations of a tree that is reduced to a variable.
* `Expression.Reduces.perform` : **what performing these operations does**.
-/

namespace MatrixCalc

/-! ### Operators on variables -/

/-- Recipes of operators do not read sequences. -/
theorem Recipe.kind_of_unary {s : Symbol} {a : Variable} {r : Recipe} (h : unary s a = .ok r) :
    a.kind ≠ .sequence := by
  rcases a with ⟨_ | _ | _ | _, cell⟩
  case sequence => cases s <;> cases h
  all_goals nofun

theorem Recipe.kinds_of_binary {s : Symbol} {a b : Variable} {r : Recipe}
    (h : binary s a b = .ok r) : a.kind ≠ .sequence ∧ b.kind ≠ .sequence := by
  rcases a with ⟨_ | _ | _ | _, x⟩ <;> rcases b with ⟨_ | _ | _ | _, y⟩
  case matrix.sequence | double.sequence | integer.sequence | sequence.matrix | sequence.double |
      sequence.integer | sequence.sequence => cases s <;> cases h
  all_goals exact ⟨nofun, nofun⟩

/-- A recipe computes the same in two stores in which what it reads means the same. -/
theorem Recipe.datum?_rename {s s' : Store} {ρ : Renaming} {r : Recipe} {t : List Variable}
    (uses : r.Uses t) (h : s.Matches ρ s' t) : (r.rename ρ).datum? s' = r.datum? s := by
  have value : (r.term.rename ρ).eval s' = r.term.eval s :=
    r.term.eval_rename uses.1 (h.mono fun v mem => uses.2.mem_iff.2 mem)
  exact congrArg (fun x => x.toOption.map (Sigma.mk r.kind)) value

theorem UnaryOperator.kind?_eq (o : UnaryOperator) (a : Variable) :
    o.kind? a.kind = (Recipe.unary o.symbol a).toOption.map Recipe.kind := by
  let ρ : Renaming := fun _ _ => ⟨a.cell.id⟩
  have renamed : Recipe.unary o.symbol a = _ := Recipe.unary_rename ρ o.symbol ⟨a.kind, ⟨0⟩⟩
  rw [renamed, kind?]
  cases Recipe.unary o.symbol ⟨a.kind, ⟨0⟩⟩ <;> rfl

theorem BinaryOperator.kind?_eq (o : BinaryOperator) (a b : Variable) :
    o.kind? a.kind b.kind = (Recipe.binary o.symbol a b).toOption.map Recipe.kind := by
  let ρ : Renaming := fun _ c => if c.id = 0 then ⟨a.cell.id⟩ else ⟨b.cell.id⟩
  have renamed : Recipe.binary o.symbol a b = _ :=
    Recipe.binary_rename ρ o.symbol ⟨a.kind, ⟨0⟩⟩ ⟨b.kind, ⟨1⟩⟩
  rw [renamed, kind?]
  cases Recipe.binary o.symbol ⟨a.kind, ⟨0⟩⟩ ⟨b.kind, ⟨1⟩⟩ <;> rfl

/-- What an operator does with values is what its operation does with variables that hold them. -/
theorem UnaryOperator.apply_datum (o : UnaryOperator) (s : Store) (a : Variable) :
    o.apply (s.datum a) = (Recipe.unary o.symbol a).toOption.bind (Recipe.datum? s) := by
  let ρ : Renaming := fun _ _ => ⟨a.cell.id⟩
  let s₀ := (({} : Store).allocate (s.read a.cell)).1
  let x : Variable := ⟨a.kind, (({} : Store).allocate (s.read a.cell)).2⟩
  have renamed : Recipe.unary o.symbol a = _ := Recipe.unary_rename ρ o.symbol x
  change (Recipe.unary o.symbol x).toOption.bind (Recipe.datum? s₀) = _
  rw [renamed]
  cases made : Recipe.unary o.symbol x with
  | error e => rfl
  | ok r =>
    have scalar := Recipe.kind_of_unary made
    refine (Recipe.datum?_rename (s := s₀) (Recipe.uses_unary made) fun v mem => ?_).symm
    obtain rfl := List.mem_singleton.1 mem
    refine (Store.meaning_eq_iff scalar).2 ?_
    exact (({} : Store).read_allocate_self (s.read a.cell)).symm

/-- Takes the first cells of their kinds in a store to the cells of two variables. -/
def Renaming.pair (a b : Variable) : Renaming := fun kind c =>
  if kind = a.kind ∧ c.id = 0 then ⟨a.cell.id⟩ else ⟨b.cell.id⟩

theorem Renaming.pair_first (a b : Variable) (value : a.kind.Content) :
    pair a b a.kind (({} : Store).allocate value).2 = a.cell := by
  rcases a with ⟨_ | _ | _ | _, cell⟩ <;> rfl

theorem Renaming.pair_second (a b : Variable) (value : a.kind.Content) (value' : b.kind.Content) :
    pair a b b.kind ((({} : Store).allocate value).1.allocate value').2 = b.cell := by
  rcases a with ⟨_ | _ | _ | _, cell⟩ <;> rcases b with ⟨_ | _ | _ | _, cell'⟩ <;> rfl

theorem BinaryOperator.apply_datum (o : BinaryOperator) (s : Store) (a b : Variable) :
    o.apply (s.datum a) (s.datum b) =
      (Recipe.binary o.symbol a b).toOption.bind (Recipe.datum? s) := by
  let s₁ := (({} : Store).allocate (s.read a.cell)).1
  let x : Variable := ⟨a.kind, (({} : Store).allocate (s.read a.cell)).2⟩
  let s₀ := (s₁.allocate (s.read b.cell)).1
  let y : Variable := ⟨b.kind, (s₁.allocate (s.read b.cell)).2⟩
  have first := Renaming.pair_first a b (s.read a.cell)
  have second := Renaming.pair_second a b (s.read a.cell) (s.read b.cell)
  have renamed : Recipe.binary o.symbol a b =
      (Recipe.binary o.symbol x y).map (Recipe.rename (.pair a b)) := by
    rw [← Recipe.binary_rename, Variable.rename, Variable.rename, first, second]
  change (Recipe.binary o.symbol x y).toOption.bind (Recipe.datum? s₀) = _
  rw [renamed]
  cases made : Recipe.binary o.symbol x y with
  | error e => rfl
  | ok r =>
    obtain ⟨kind, kind'⟩ := Recipe.kinds_of_binary made
    refine (Recipe.datum?_rename (s := s₀) (t := [x, y]) (Recipe.uses_binary made)
      fun v mem => ?_).symm
    rcases List.mem_pair.1 mem with rfl | rfl
    · have kept : s₀.read x.cell = s₁.read x.cell :=
        s₁.read_allocate_of_has _ (({} : Store).has_allocate _)
      rw [Store.meaning_eq_iff kind, kept, ({} : Store).read_allocate_self, first]
    · rw [Store.meaning_eq_iff kind', s₁.read_allocate_self, second]

/-! ### Steps -/

/-- The operation that a draft adds for a recipe. -/
def Draft.placed (d : Draft) (r : Recipe) : Operation :=
  r.into (d.store.allocate r.kind.blank).2

/-- What a variable holds that is not written. -/
theorem Store.datum_write (s : Store) {kind : Kind} {cell : Cell kind} {v : Variable}
    (h : v ≠ ⟨kind, cell⟩) (value : kind.Content) : (s.write cell value).datum v = s.datum v :=
  congrArg (Sigma.mk v.kind) (s.read_write_of_ne h value)

/-- The output of a new operation is none of the variables before. -/
theorem Draft.ne_placed {d : Draft} {r : Recipe} {v : Variable} (has : d.store.Has v.cell) :
    v ≠ (d.placed r).output := by
  rintro rfl
  exact d.store.not_has_allocate r.kind.blank has

namespace Expression

/-- One operator whose operands are variables is replaced by the output of its operation. -/
inductive Step (d : Draft) (r : Recipe) : Expression Variable → Expression Variable → Prop
  | unary {o : UnaryOperator} {a : Variable} (made : Recipe.unary o.symbol a = .ok r) :
      Step d r (unary o (leaf a)) (leaf (d.placed r).output)
  | binary {o : BinaryOperator} {a b : Variable} (made : Recipe.binary o.symbol a b = .ok r) :
      Step d r (binary o (leaf a) (leaf b)) (leaf (d.placed r).output)
  | operand {o : UnaryOperator} {x x' : Expression Variable} (step : Step d r x x') :
      Step d r (unary o x) (unary o x')
  | left {o : BinaryOperator} {x l l' : Expression Variable} (step : Step d r l l') :
      Step d r (binary o l x) (binary o l' x)
  | right {o : BinaryOperator} {x l l' : Expression Variable} (step : Step d r l l') :
      Step d r (binary o x l) (binary o x l')

/-- The draft emits the operations `program` while the tree is reduced. -/
inductive Reduces : Draft → Expression Variable → Program → Draft → Expression Variable → Prop
  | refl (d : Draft) (e : Expression Variable) : Reduces d e [] d e
  | head {d d' : Draft} {r : Recipe} {e e₁ e' : Expression Variable} {program : Program}
      (step : Step d r e e₁) (rest : Reduces (d.emitting r) e₁ program d' e') :
      Reduces d e (d.placed r :: program) d' e'

variable {d d' d'' : Draft} {e e' e'' l r x : Expression Variable} {program program' : Program}

namespace Reduces

theorem trans (h : Reduces d e program d' e') (h' : Reduces d' e' program' d'' e'') :
    Reduces d e (program ++ program') d'' e'' := by
  induction h with
  | refl => exact h'
  | head step _ ih => exact .head step (ih h')

theorem operand {o : UnaryOperator} (h : Reduces d x program d' e') :
    Reduces d (.unary o x) program d' (.unary o e') := by
  induction h with
  | refl => exact .refl _ _
  | head step _ ih => exact .head (.operand step) ih

theorem left {o : BinaryOperator} (h : Reduces d l program d' e') :
    Reduces d (.binary o l r) program d' (.binary o e' r) := by
  induction h with
  | refl => exact .refl _ _
  | head step _ ih => exact .head (.left step) ih

theorem right {o : BinaryOperator} (h : Reduces d r program d' e') :
    Reduces d (.binary o l r) program d' (.binary o l e') := by
  induction h with
  | refl => exact .refl _ _
  | head step _ ih => exact .head (.right step) ih

/-- The operations are appended to those of the draft. -/
theorem program_eq (h : Reduces d e program d' e') : d'.program = d.program ++ program := by
  induction h with
  | refl => rw [List.append_nil]
  | head step _ ih =>
    rw [ih]
    exact List.append_assoc _ _ _

end Reduces

theorem Reduces.extends (h : Reduces d e program d' e') : d.store.Extends d'.store := by
  induction h with
  | refl => exact .refl _
  | head _ _ ih => exact (Store.extends_allocate _ _).trans ih

/-! ### Kinds -/

theorem Step.kind?_eq {recipe : Recipe} (h : Step d recipe e e') : e'.kind? = e.kind? := by
  induction h with
  | unary made =>
    simp only [kind?, Option.bind_some, UnaryOperator.kind?_eq, made]
    rfl
  | binary made =>
    simp only [kind?, Option.bind_some, BinaryOperator.kind?_eq, made]
    rfl
  | operand _ ih | left _ ih | right _ ih => simp only [kind?, ih]

/-- What is left of a tree is of the kind of the tree. -/
theorem Reduces.kind?_eq (h : Reduces d e program d' e') : e'.kind? = e.kind? := by
  induction h with
  | refl => rfl
  | head step _ ih => rw [ih, step.kind?_eq]

/-! ### Operations -/

theorem Step.computes {recipe : Recipe} (h : Step d recipe e e') {v : Variable}
    (rest : e'.Computes program v) :
    ∃ program', e.Computes program' v ∧ program'.Perm (d.placed recipe :: program) := by
  induction h generalizing program v with
  | unary made =>
    cases rest
    exact ⟨_, .unary _ (.leaf _) made (Recipe.uses_unary made).2.symm, .refl _⟩
  | binary made =>
    cases rest
    exact ⟨_, .binary _ (.leaf _) (.leaf _) made (Recipe.uses_binary made).2.symm, .refl _⟩
  | operand _ ih =>
    cases rest with
    | unary target operand made reads =>
      obtain ⟨program', computes, perm⟩ := ih operand
      exact ⟨_, .unary target computes made reads, perm.append_right _⟩
  | left _ ih =>
    cases rest with
    | binary target left right made reads =>
      obtain ⟨program', computes, perm⟩ := ih left
      exact ⟨_, .binary target computes right made reads,
        (perm.append_right _).append_right _⟩
  | right _ ih =>
    cases rest with
    | binary target left right made reads =>
      obtain ⟨program', computes, perm⟩ := ih right
      refine ⟨_, .binary target left computes made reads, ?_⟩
      exact ((perm.append_left _).trans List.perm_middle).append_right _

/-- **The operations of a tree that is reduced to a variable** are those of its operators. -/
theorem Reduces.computes {v : Variable} (h : Reduces d e program d' (leaf v)) :
    ∃ program', e.Computes program' v ∧ program.Perm program' := by
  generalize last : leaf v = e' at h
  induction h with
  | refl =>
    subst last
    exact ⟨[], .leaf v, .refl _⟩
  | head step _ ih =>
    obtain ⟨_, rest, perm⟩ := ih last
    obtain ⟨program', computes, perm'⟩ := step.computes rest
    exact ⟨program', computes, (perm.cons _).trans perm'.symm⟩

/-! ### Values -/

/-- The value depends only on what the leaves hold. -/
theorem value?_congr {s s' : Store} (h : ∀ v ∈ e.leaves, s'.datum v = s.datum v) :
    e.value? s' = e.value? s := by
  induction e with
  | leaf v => exact congrArg some (h v (by simp [leaves]))
  | unary o x ih => simp only [value?, ih h]
  | binary o l r ihl ihr =>
    simp only [value?, ihl fun v mem => h v (List.mem_append_left _ mem),
      ihr fun v mem => h v (List.mem_append_right _ mem)]

/-- The leaves of a tree exist. -/
def Allocated (e : Expression Variable) (s : Store) : Prop := ∀ v ∈ e.leaves, s.Has v.cell

theorem Step.allocated {recipe : Recipe} (h : Step d recipe e e') (old : e.Allocated d.store) :
    e'.Allocated (d.emitting recipe).store := by
  have larger : d.store.Extends (d.emitting recipe).store := Store.extends_allocate _ _
  induction h with
  | unary | binary =>
    intro v mem
    obtain rfl := List.mem_singleton.1 mem
    exact d.store.has_allocate _
  | operand _ ih => exact ih old
  | left _ ih =>
    intro v mem
    rcases List.mem_append.1 mem with mem | mem
    · exact ih (fun w inLeft => old w (List.mem_append_left _ inLeft)) v mem
    · exact larger.has (old v (List.mem_append_right _ mem))
  | right _ ih =>
    intro v mem
    rcases List.mem_append.1 mem with mem | mem
    · exact larger.has (old v (List.mem_append_left _ mem))
    · exact ih (fun w inRight => old w (List.mem_append_right _ inRight)) v mem

/-- An operation that fails fails the whole tree. -/
theorem Step.value?_of_error {recipe : Recipe} (h : Step d recipe e e') {s : Store} {cause : Error}
    (failed : recipe.term.eval s = .error cause) : e.value? s = none := by
  have none : recipe.datum? s = none := by
    rw [Recipe.datum?, failed]
    rfl
  induction h with
  | unary made =>
    rw [value?, value?, Option.bind_some, UnaryOperator.apply_datum, made]
    exact none
  | binary made =>
    rw [value?, value?, value?, Option.bind_some, Option.bind_some, BinaryOperator.apply_datum,
      made]
    exact none
  | operand _ ih | left _ ih => rw [value?, ih, Option.bind_none]
  | right _ ih => simp only [value?, ih, Option.bind_none, Option.bind_fun_none]

/-- An operation that succeeds leaves the value of the whole tree. -/
theorem Step.value?_of_ok {recipe : Recipe} (h : Step d recipe e e') (old : e.Allocated d.store)
    {s : Store} (has : s.Has (d.placed recipe).target) {value : recipe.kind.Content}
    (ok : recipe.term.eval s = .ok value) :
    e'.value? (s.write (d.placed recipe).target value) = e.value? s := by
  have some : recipe.datum? s = some ⟨recipe.kind, value⟩ := by
    rw [Recipe.datum?, ok]
    rfl
  have written : (s.write (d.placed recipe).target value).datum (d.placed recipe).output =
      ⟨recipe.kind, value⟩ := congrArg (Sigma.mk recipe.kind) (s.read_write_self has value)
  have kept : ∀ {x : Expression Variable}, x.Allocated d.store →
      x.value? (s.write (d.placed recipe).target value) = x.value? s := fun old =>
    value?_congr fun v mem => s.datum_write (Draft.ne_placed (old v mem)) value
  -- in the operand that the step is in the value stays, in the other one nothing is written
  induction h with
  | unary made =>
    rw [value?, value?, value?, Option.bind_some, UnaryOperator.apply_datum, made, written]
    exact some.symm
  | binary made =>
    rw [value?, value?, value?, value?, Option.bind_some, Option.bind_some,
      BinaryOperator.apply_datum, made, written]
    exact some.symm
  | operand _ ih => rw [value?, value?, ih old]
  | left _ ih =>
    rw [value?, value?, ih fun v mem => old v (List.mem_append_left _ mem),
      kept fun v mem => old v (List.mem_append_right _ mem)]
  | right _ ih =>
    rw [value?, value?, ih fun v mem => old v (List.mem_append_right _ mem),
      kept fun v mem => old v (List.mem_append_left _ mem)]

/-- **What performing the operations does**, at any time at which their cells exist: they succeed
and what is left of the tree has the value that the tree had, or one fails and it has none. -/
theorem Reduces.perform (h : Reduces d e program d' e') (old : e.Allocated d.store) {s : Store}
    (has : ∀ v : Variable, d'.store.Has v.cell → s.Has v.cell) :
    (∃ s', program.perform s = (s', none) ∧ e'.value? s' = e.value? s ∧
      ∀ v : Variable, d.store.Has v.cell → s'.datum v = s.datum v) ∨
    (∃ s' cause, program.perform s = (s', some cause) ∧ e.value? s = none) := by
  induction h generalizing s with
  | refl => exact .inl ⟨s, rfl, rfl, fun _ _ => rfl⟩
  | @head d d' recipe e e₁ e' program step rest ih =>
    have larger : d.store.Extends (d.emitting recipe).store := Store.extends_allocate _ _
    have target : s.Has (d.placed recipe).target :=
      has (d.placed recipe).output (rest.extends.has (d.store.has_allocate _))
    rw [Program.perform_cons]
    -- the first operation is that of the first step, and the other steps start where it has written
    cases run : (d.placed recipe).perform s with
    | error cause =>
      exact .inr ⟨s, cause, rfl, step.value?_of_error (Operation.perform_eq_error_iff.1 run)⟩
    | ok s₁ =>
      obtain ⟨value, ok, rfl⟩ := Operation.perform_eq_ok_iff.1 run
      have first := step.value?_of_ok old target ok
      rcases ih (step.allocated old) (s := s.write _ value) fun v mem =>
          (Store.has_write _ _).2 (has v mem) with ⟨s', run', same, kept⟩ | ⟨s', cause, run', none⟩
      · refine .inl ⟨s', run', same.trans first, fun v mem => ?_⟩
        rw [kept v (larger.has mem)]
        exact s.datum_write (Draft.ne_placed mem) value
      · exact .inr ⟨s', cause, run', first.symm.trans none⟩

end Expression

end MatrixCalc
