import MatrixCalc.Proofs.Expression.Layouts
import MatrixCalc.Proofs.Expression.Occurrences
import MatrixCalc.Proofs.Expression.Reduction

/-!
# Operands and their values

The operands of a written tree are names and numbers.  A name means the variable that it is bound
to; a number becomes a new variable that holds it.  Before and after this the tree has the same kind
and the same value.

* `Expression.interpret` : the kind or the value of a tree from those of its leaves.
* `Operand.datum?`, `Operand.Becomes` : the value of an operand, and the variable for it.
* `Expression.ofTokens_operands` : **the items of a written tree**.
* `Expression.exists_kindOf` : every tree of numbers has a kind.
-/

namespace MatrixCalc

namespace Expression

/-! ### Kinds and values -/

section

variable {α β γ : Type}

/-- What a tree means, from the leaves up, if every operator takes its operands. -/
def interpret (unary' : UnaryOperator → γ → Option γ) (binary' : BinaryOperator → γ → γ → Option γ)
    (f : α → Option γ) : Expression α → Option γ
  | leaf a => f a
  | unary o x => (x.interpret unary' binary' f).bind (unary' o)
  | binary o l r => (l.interpret unary' binary' f).bind fun a =>
    (r.interpret unary' binary' f).bind fun b => binary' o a b

/-- The kind of a tree whose leaves are of the given kinds. -/
def kindOf (kind : α → Option Kind) (e : Expression α) : Option Kind :=
  e.interpret UnaryOperator.kind? BinaryOperator.kind? kind

/-- The value of a tree whose leaves have the given values. -/
def valueOf (datum : α → Option Datum) (e : Expression α) : Option Datum :=
  e.interpret UnaryOperator.apply BinaryOperator.apply datum

theorem valueOf_unary (datum : α → Option Datum) (o : UnaryOperator) (x : Expression α) :
    (unary o x).valueOf datum = (x.valueOf datum).bind o.apply := rfl

theorem valueOf_binary (datum : α → Option Datum) (o : BinaryOperator) (l r : Expression α) :
    (binary o l r).valueOf datum = (l.valueOf datum).bind fun x =>
      (r.valueOf datum).bind fun y => o.apply x y := rfl

theorem kind?_eq (e : Expression Variable) : e.kind? = e.kindOf fun v => some v.kind := by
  induction e with
  | leaf v => rfl
  | unary o x ih => rw [kind?, ih, kindOf, kindOf, interpret]
  | binary o l r ihl ihr => rw [kind?, ihl, ihr, kindOf, kindOf, kindOf, interpret]

theorem value?_eq (s : Store) (e : Expression Variable) :
    e.value? s = e.valueOf fun v => some (s.datum v) := by
  induction e with
  | leaf v => rfl
  | unary o x ih => rw [value?, ih, valueOf, valueOf, interpret]
  | binary o l r ihl ihr => rw [value?, ihl, ihr, valueOf, valueOf, valueOf, interpret]

theorem interpret_map (unary' : UnaryOperator → γ → Option γ)
    (binary' : BinaryOperator → γ → γ → Option γ) (f : α → β) (g : β → Option γ)
    (e : Expression α) :
    (e.map f).interpret unary' binary' g = e.interpret unary' binary' fun a => g (f a) := by
  induction e with
  | leaf => rfl
  | unary o x ih => rw [map, interpret, interpret, ih]
  | binary o l r ihl ihr => rw [map, interpret, interpret, ihl, ihr]

/-- What a tree means depends only on what its leaves mean. -/
theorem Alike.interpret_eq {R : α → β → Prop} {e : Expression α} {x : Expression β}
    (h : Alike R e x) {f : α → Option γ} {g : β → Option γ} (same : ∀ a b, R a b → f a = g b)
    (unary' : UnaryOperator → γ → Option γ) (binary' : BinaryOperator → γ → γ → Option γ) :
    e.interpret unary' binary' f = x.interpret unary' binary' g := by
  induction h with
  | leaf related => exact same _ _ related
  | unary _ ih => rw [interpret, interpret, ih]
  | binary _ _ ihl ihr => rw [interpret, interpret, ihl, ihr]

end

end Expression

/-! ### Numbers -/

theorem Store.Extends.datum {s s' : Store} (h : s.Extends s') {v : Variable} (has : s.Has v.cell) :
    s'.datum v = s.datum v :=
  congrArg (Sigma.mk v.kind) (h.read has)

/-- A new variable holds what it is made for. -/
theorem Store.new_allocate (s : Store) {kind : Kind} (value : kind.Content) :
    ¬ s.Has (s.allocate value).2 ∧ (s.allocate value).1.Has (s.allocate value).2 ∧
      (s.allocate value).1.datum ⟨kind, (s.allocate value).2⟩ = ⟨kind, value⟩ :=
  ⟨s.not_has_allocate value, s.has_allocate value,
    congrArg (Sigma.mk kind) (s.read_allocate_self value)⟩

/-- The kinds of single numbers. -/
def Kind.isNumber : Kind → Bool
  | .integer | .double => true
  | .matrix | .sequence => false

/-- The value of a written number. -/
def Datum.ofNumber : Int64 ⊕ Float → Datum
  | .inl n => ⟨.integer, n⟩
  | .inr x => ⟨.double, x⟩

theorem Datum.isNumber_ofNumber (x : Int64 ⊕ Float) : (ofNumber x).1.isNumber = true := by
  cases x <;> rfl

theorem BinaryOperator.kind?_of_isNumber (o : BinaryOperator) {k k' : Kind}
    (h : k.isNumber = true) (h' : k'.isNumber = true) :
    ∃ kind, o.kind? k k' = some kind ∧ kind.isNumber = true := by
  cases o <;> cases k <;> cases h <;> cases k' <;> cases h' <;> exact ⟨_, rfl, rfl⟩

theorem UnaryOperator.kind?_negate_of_isNumber {k : Kind} (h : k.isNumber = true) :
    ∃ kind, negate.kind? k = some kind ∧ kind.isNumber = true := by
  cases k <;> cases h <;> exact ⟨_, rfl, rfl⟩

namespace Expression

section

variable {α : Type}

/-- Nothing is transposed. -/
def Plain : Expression α → Prop
  | leaf _ => True
  | unary o x => o = .negate ∧ x.Plain
  | binary _ l r => l.Plain ∧ r.Plain

theorem Prints.plain {n depth : Nat} {signs : Bool} {e : Expression α} {pieces : List (Symbol ⊕ α)}
    (h : Prints n signs e pieces depth) (none : .inl .transpose ∉ pieces) : e.Plain := by
  induction h with
  | leaf => trivial
  | transpose => simp at none
  | sign _ ih | negate _ _ ih => exact ⟨rfl, ih fun mem => none (List.mem_cons_of_mem _ mem)⟩
  | binary _ _ _ ihl ihr =>
    exact ⟨ihl fun mem => none (List.mem_append_left _ mem),
      ihr fun mem => none (List.mem_append_right _ (List.mem_cons_of_mem _ mem))⟩
  | bracket _ ih => exact ih fun mem => none (by simpa [enclose] using mem)

/-- Nothing is printed as transposed where nothing is. -/
theorem Prints.transpose_not_mem {n depth : Nat} {signs : Bool} {pieces : List (Symbol ⊕ α)}
    (h : Prints n signs e pieces depth) (plain : e.Plain) : .inl .transpose ∉ pieces := by
  induction h with
  | leaf => simp
  | transpose => cases plain.1
  | sign _ ih | negate _ _ ih => simpa using ih plain.2
  | @binary _ _ _ _ o _ _ _ _ _ _ _ ihl ihr =>
    have other : Symbol.transpose ≠ o.symbol := by cases o <;> decide
    simp [other, ihl plain.1, ihr plain.2]
  | bracket _ ih => simp [enclose, ih plain]

theorem Alike.plain {β : Type} {R : α → β → Prop} {e : Expression α} {x : Expression β}
    (h : Alike R e x) (plain : e.Plain) : x.Plain := by
  induction h with
  | leaf => trivial
  | unary _ ih => exact ⟨plain.1, ih plain.2⟩
  | binary _ _ ihl ihr => exact ⟨ihl plain.1, ihr plain.2⟩

/-- What is printed are the leaves. -/
theorem mem_of_mem_leaves {n depth : Nat} {signs : Bool} {e : Expression α}
    {pieces : List (Symbol ⊕ α)} (h : Prints n signs e pieces depth) {a : α} (mem : a ∈ e.leaves) :
    .inr a ∈ pieces := by
  induction h with
  | leaf b =>
    obtain rfl := List.mem_singleton.1 mem
    exact List.mem_singleton_self _
  | transpose _ _ ih => exact List.mem_append_left _ (ih mem)
  | sign _ ih | negate _ _ ih => exact List.mem_cons_of_mem _ (ih mem)
  | binary _ _ _ ihl ihr =>
    rcases List.mem_append.1 mem with mem | mem
    · exact List.mem_append_left _ (ihl mem)
    · exact List.mem_append_right _ (List.mem_cons_of_mem _ (ihr mem))
  | bracket _ ih => exact List.mem_cons_of_mem _ (List.mem_append_left _ (ih mem))

/-- **Every tree of numbers has a kind**: no operator but transposition refuses them. -/
theorem exists_kindOf {e : Expression α} (plain : e.Plain) {kind : α → Option Kind}
    (numbers : ∀ a ∈ e.leaves, ∃ k, kind a = some k ∧ k.isNumber = true) :
    ∃ k, e.kindOf kind = some k ∧ k.isNumber = true := by
  induction e with
  | leaf a => exact numbers a (List.mem_singleton_self a)
  | unary o x ih =>
    obtain ⟨rfl, plain⟩ := plain
    obtain ⟨k, eq, number⟩ := ih plain numbers
    obtain ⟨k', eq', number'⟩ := UnaryOperator.kind?_negate_of_isNumber number
    refine ⟨k', ?_, number'⟩
    rw [kindOf] at eq
    rw [kindOf, interpret, eq, Option.bind_some, eq']
  | binary o l r ihl ihr =>
    obtain ⟨k, eq, number⟩ := ihl plain.1 fun a mem => numbers a (List.mem_append_left _ mem)
    obtain ⟨k', eq', number'⟩ := ihr plain.2 fun a mem => numbers a (List.mem_append_right _ mem)
    obtain ⟨k'', eq'', number''⟩ := o.kind?_of_isNumber number number'
    refine ⟨k'', ?_, number''⟩
    rw [kindOf] at eq eq'
    rw [kindOf, interpret, eq, eq', Option.bind_some, Option.bind_some, eq'']

end

/-! ### Operands -/

namespace Operand

/-- The value of an operand: what the variable of its name holds, or the number itself. -/
def datum? (scope : Bindings Variable) (s : Store) : Operand → Option Datum
  | .word name => (scope.find? name).map s.datum
  | .number sign x => some (.ofNumber (x.signed sign))

/-- The operand is a number, or its name is bound to one. -/
def IsNumber (scope : Bindings Variable) : Operand → Prop
  | .word name => ∃ v, scope.find? name = some v ∧ v.kind.isNumber = true
  | .number _ _ => True

/-- The variable of an operand: that of its name, or a new one that holds the number. -/
def Becomes (scope : Bindings Variable) (before after : Store) : Operand → Variable → Prop
  | .word name, w => scope.find? name = some w
  | .number sign x, w => ¬ before.Has w.cell ∧ after.Has w.cell ∧
    after.datum w = .ofNumber (x.signed sign)

variable {scope : Bindings Variable} {before before' after after' : Store} {a : Operand}
  {w : Variable}

theorem Becomes.mono (h : a.Becomes scope before after w) (earlier : before'.Extends before)
    (later : after.Extends after') : a.Becomes scope before' after' w := by
  cases a with
  | word => exact h
  | number =>
    obtain ⟨new, has, holds⟩ := h
    exact ⟨fun old => new (earlier.has old), later.has has, (later.datum has).trans holds⟩

theorem Becomes.has (h : a.Becomes scope before after w) (larger : before.Extends after)
    (bound : ∀ name v, scope.find? name = some v → before.Has v.cell) : after.Has w.cell := by
  cases a with
  | word name => exact larger.has (bound name w h)
  | number => exact h.2.1

/-- The variable holds the value of the operand. -/
theorem Becomes.datum?_eq (h : a.Becomes scope before after w) (larger : before.Extends after)
    (bound : ∀ name v, scope.find? name = some v → before.Has v.cell) :
    a.datum? scope before = some (after.datum w) := by
  cases a with
  | word name =>
    have found : scope.find? name = some w := h
    rw [datum?, found, Option.map_some, larger.datum (bound name w found)]
  | number => rw [datum?, h.2.2]

theorem IsNumber.kind (h : a.IsNumber scope) (becomes : a.Becomes scope before after w) :
    w.kind.isNumber = true := by
  cases a with
  | word name =>
    obtain ⟨v, found, number⟩ := h
    cases found.symm.trans becomes
    exact number
  | number sign x =>
    have kind : w.kind = (Datum.ofNumber (x.signed sign)).1 := congrArg Sigma.fst becomes.2.2
    rw [kind]
    exact Datum.isNumber_ofNumber _

theorem isNumber_iff {s : Store} : a.IsNumber scope ↔
    ∃ x, a.datum? scope s = some x ∧ x.1.isNumber = true := by
  cases a with
  | word name =>
    constructor
    · rintro ⟨v, found, number⟩
      exact ⟨s.datum v, by rw [datum?, found, Option.map_some], number⟩
    · rintro ⟨x, holds, number⟩
      obtain ⟨v, found, rfl⟩ := Option.map_eq_some_iff.1 holds
      exact ⟨v, found, number⟩
  | number sign x => exact ⟨fun _ => ⟨_, rfl, Datum.isNumber_ofNumber _⟩, fun _ => trivial⟩

/-- The operands have the same kind and value. -/
def Same (s : Session) (a b : Operand) : Prop := a.datum? s.scope s.store = b.datum? s.scope s.store

theorem Same.isNumber {s : Session} {b : Operand} (h : a.Same s b) (number : a.IsNumber s.scope) :
    b.IsNumber s.scope := by
  obtain ⟨x, holds, isNumber⟩ := isNumber_iff.1 number
  exact isNumber_iff.2 ⟨x, h.symm.trans holds, isNumber⟩

end Operand

/-! ### Items -/

variable {scope : Bindings Variable}

/-- The item of an operand is a variable; for a number it is new. -/
theorem ofToken_operand {a : Operand} (number : a.IsNumber scope) (d : Draft) : ∃ w d',
    Item.ofToken scope a.token d = .ok (.value w) d' ∧ d'.program = d.program ∧
      d.store.Extends d'.store ∧ a.Becomes scope d.store d'.store w := by
  rcases a with name | ⟨sign, x⟩
  · obtain ⟨v, found, -⟩ := number
    exact ⟨v, d, Item.ofToken_word_eq_ok_iff.2 ⟨rfl, .inl ⟨v, found, rfl⟩⟩, rfl, .refl _, found⟩
  · simp only [Operand.token, Operand.Becomes]
    rcases x.signed sign with n | y
    · exact ⟨_, _, rfl, rfl, d.store.extends_allocate _, @Store.new_allocate d.store .integer n⟩
    · exact ⟨_, _, rfl, rfl, d.store.extends_allocate _, @Store.new_allocate d.store .double y⟩

/-- **The items of a written tree** are the pieces with variables for the operands. -/
theorem ofTokens_operands {pieces : List (Symbol ⊕ Operand)}
    (numbers : ∀ a, .inr a ∈ pieces → a.IsNumber scope) (d : Draft) : ∃ cells d',
      Item.ofTokens scope (tokensBy Operand.token pieces) d = .ok (itemsOf cells) d' ∧
      d'.program = d.program ∧ d.store.Extends d'.store ∧
      Respells (Operand.Becomes scope d.store d'.store) false pieces cells := by
  induction pieces generalizing d with
  | nil => exact ⟨[], d, rfl, rfl, .refl _, .nil⟩
  | cons piece pieces ih =>
    have unfolded : Item.ofTokens scope (tokensBy Operand.token (piece :: pieces)) =
        (Item.ofToken scope (Sum.elim Token.symbol Operand.token piece) >>= fun item =>
          Item.ofTokens scope (tokensBy Operand.token pieces) >>= fun items =>
            pure (item :: items)) := rfl
    have others := ih fun a mem => numbers a (List.mem_cons_of_mem _ mem)
    rcases piece with s | a
    · obtain ⟨cells, d', items, program, larger, spells⟩ := others d
      refine ⟨.inl s :: cells, d', ?_, program, larger, .symbol s spells⟩
      rw [unfolded]
      exact bind_eq_ok_iff.2 ⟨_, _, rfl, bind_eq_ok_iff.2 ⟨_, _, items, rfl⟩⟩
    · obtain ⟨w, d₁, item, program, larger, becomes⟩ := ofToken_operand (numbers a (by simp)) d
      obtain ⟨cells, d', items, program', larger', spells⟩ := others d₁
      refine ⟨.inr w :: cells, d', ?_, program'.trans program, larger.trans larger',
        .leaf (becomes.mono (.refl _) larger')
          (spells.mono fun b v becomes => becomes.mono larger (.refl _))⟩
      rw [unfolded]
      exact bind_eq_ok_iff.2 ⟨_, _, item, bind_eq_ok_iff.2 ⟨_, _, items, rfl⟩⟩

end Expression

end MatrixCalc
