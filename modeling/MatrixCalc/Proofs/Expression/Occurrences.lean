import MatrixCalc.Proofs.Expression.Basic

/-!
# Where the parts of a tree stand

A part of a tree stands somewhere in the printed tree.  What stands directly in front of it says
what is done with it: a part behind a unary minus is inside the operand of a negation.

* `Expression.Occurs` : a part of a printed tree, between what is printed before and after it.
* `Expression.Occurs.negated` : **what is inside of a negation**.
* `Expression.Prints.respell` : other leaves, and brackets around leaves, do not change the tree.
-/

namespace MatrixCalc

namespace Expression

variable {α β : Type}

/-! ### Parts -/

/-- The tree is a part of another. -/
inductive Part (y : Expression α) : Expression α → Prop
  | itself : Part y y
  | operand {o : UnaryOperator} {x : Expression α} (inside : Part y x) : Part y (unary o x)
  | left {o : BinaryOperator} {l r : Expression α} (inside : Part y l) : Part y (binary o l r)
  | right {o : BinaryOperator} {l r : Expression α} (inside : Part y r) : Part y (binary o l r)

/-- In a printed tree the part `y`, printed as `own`, stands between two lists of pieces. -/
inductive Occurs (y : Expression α) (own : List (Symbol ⊕ α)) :
    Nat → Bool → Expression α → List (Symbol ⊕ α) → List (Symbol ⊕ α) → Prop
  | itself {n depth : Nat} {signs : Bool} (printed : Prints n signs y own depth) :
      Occurs y own n signs y [] []
  | transpose {n : Nat} {signs : Bool} {x : Expression α} {before after : List (Symbol ⊕ α)}
      (room : 1 ≤ n) (inside : Occurs y own 1 false x before after) :
      Occurs y own n signs (unary .transpose x) before (after ++ [.inl .transpose])
  | sign {n : Nat} {x : Expression α} {before after : List (Symbol ⊕ α)}
      (inside : Occurs y own n true x before after) :
      Occurs y own n true (unary .negate x) (.inl .neg :: before) after
  | negate {n : Nat} {x : Expression α} {before after : List (Symbol ⊕ α)} (room : 5 ≤ n)
      (inside : Occurs y own 5 true x before after) :
      Occurs y own n false (unary .negate x) (.inl .neg :: before) after
  | left {n depth : Nat} {signs : Bool} {o : BinaryOperator} {l r : Expression α}
      {before after pieces : List (Symbol ⊕ α)} (room : o.level ≤ n)
      (inside : Occurs y own o.level false l before after)
      (right : Prints (o.level - 1) true r pieces depth) :
      Occurs y own n signs (binary o l r) before (after ++ .inl o.symbol :: pieces)
  | right {n depth : Nat} {signs : Bool} {o : BinaryOperator} {l r : Expression α}
      {before after pieces : List (Symbol ⊕ α)} (room : o.level ≤ n)
      (left : Prints o.level false l pieces depth)
      (inside : Occurs y own (o.level - 1) true r before after) :
      Occurs y own n signs (binary o l r) (pieces ++ .inl o.symbol :: before) after
  | bracket {n : Nat} {signs : Bool} {e : Expression α} {before after : List (Symbol ⊕ α)}
      (inside : Occurs y own 6 false e before after) :
      Occurs y own n signs e (.inl .parenLeft :: before) (after ++ [.inl .parenRight])

variable {y e : Expression α} {n depth : Nat} {signs : Bool}
  {own before after pieces : List (Symbol ⊕ α)}

theorem Occurs.part (h : Occurs y own n signs e before after) : Part y e := by
  induction h with
  | itself => exact .itself
  | transpose _ _ ih | sign _ ih | negate _ _ ih => exact .operand ih
  | left _ _ _ ih => exact .left ih
  | right _ _ _ ih => exact .right ih
  | bracket _ ih => exact ih

/-- **What stands behind a unary minus is inside of a negation.** -/
theorem Occurs.negated (h : Occurs y own n signs e before after)
    (sign : before.getLast? = some (.inl .neg)) : ∃ x, Part (unary .negate x) e ∧ Part y x := by
  induction h with
  | itself => cases sign
  | transpose _ _ ih =>
    obtain ⟨x, negation, inside⟩ := ih sign
    exact ⟨x, .operand negation, inside⟩
  | @sign _ x before _ occurs ih | @negate _ x before _ _ occurs ih =>
    cases before with
    | nil => exact ⟨x, .itself, occurs.part⟩
    | cons p before =>
      rw [List.getLast?_cons_cons] at sign
      obtain ⟨x, negation, inside⟩ := ih sign
      exact ⟨x, .operand negation, inside⟩
  | left _ _ _ ih =>
    obtain ⟨x, negation, inside⟩ := ih sign
    exact ⟨x, .left negation, inside⟩
  | @right _ _ _ o _ _ before _ pieces _ _ _ ih =>
    cases before with
    | nil =>
      rw [List.getLast?_append_cons, List.getLast?_singleton] at sign
      cases o <;> cases sign
    | cons p before =>
      rw [List.getLast?_append_cons, List.getLast?_cons_cons] at sign
      obtain ⟨x, negation, inside⟩ := ih sign
      exact ⟨x, .right negation, inside⟩
  | @bracket _ _ _ before _ _ ih =>
    cases before with
    | nil => cases sign
    | cons p before =>
      rw [List.getLast?_cons_cons] at sign
      exact ih sign

/-! ### Other leaves -/

/-- The trees have the same operators, and their leaves are related. -/
inductive Alike (R : α → β → Prop) : Expression α → Expression β → Prop
  | leaf {a : α} {b : β} (related : R a b) : Alike R (leaf a) (leaf b)
  | unary {o : UnaryOperator} {x : Expression α} {x' : Expression β} (operand : Alike R x x') :
      Alike R (unary o x) (unary o x')
  | binary {o : BinaryOperator} {l r : Expression α} {l' r' : Expression β} (left : Alike R l l')
      (right : Alike R r r') : Alike R (binary o l r) (binary o l' r')

/-- Parts of the one tree are parts of the other. -/
theorem Alike.exists_part {R : α → β → Prop} {e y : Expression α} {x : Expression β}
    (h : Alike R e x) (part : Part y e) : ∃ y', Part y' x ∧ Alike R y y' := by
  induction part generalizing x with
  | itself => exact ⟨x, .itself, h⟩
  | operand _ ih =>
    cases h with
    | unary operand =>
      obtain ⟨y', part, alike⟩ := ih operand
      exact ⟨y', .operand part, alike⟩
  | left _ ih =>
    cases h with
    | binary left _ =>
      obtain ⟨y', part, alike⟩ := ih left
      exact ⟨y', .left part, alike⟩
  | right _ ih =>
    cases h with
    | binary _ right =>
      obtain ⟨y', part, alike⟩ := ih right
      exact ⟨y', .right part, alike⟩

/-- The same pieces with related leaves.  Brackets may be put around single leaves, if
`bracketed`. -/
inductive Respells (R : α → β → Prop) (bracketed : Bool) :
    List (Symbol ⊕ α) → List (Symbol ⊕ β) → Prop
  | nil : Respells R bracketed [] []
  | symbol {pieces : List (Symbol ⊕ α)} {pieces' : List (Symbol ⊕ β)} (s : Symbol)
      (rest : Respells R bracketed pieces pieces') :
      Respells R bracketed (.inl s :: pieces) (.inl s :: pieces')
  | leaf {pieces : List (Symbol ⊕ α)} {pieces' : List (Symbol ⊕ β)} {a : α} {b : β}
      (related : R a b) (rest : Respells R bracketed pieces pieces') :
      Respells R bracketed (.inr a :: pieces) (.inr b :: pieces')
  | bracket {pieces : List (Symbol ⊕ α)} {pieces' : List (Symbol ⊕ β)} {a : α} {b : β}
      (allowed : bracketed = true) (related : R a b) (rest : Respells R bracketed pieces pieces') :
      Respells R bracketed (.inr a :: pieces) (enclose [.inr b] ++ pieces')

variable {R : α → β → Prop} {bracketed : Bool} {x : Expression β}

theorem Alike.forall_leaves {P : β → Prop} (h : Alike R e x)
    (good : ∀ a ∈ e.leaves, ∀ b, R a b → P b) : ∀ b ∈ x.leaves, P b := by
  induction h with
  | leaf related =>
    intro b mem
    obtain rfl := List.mem_singleton.1 mem
    exact good _ (List.mem_singleton_self _) _ related
  | unary _ ih => exact ih good
  | binary _ _ ihl ihr =>
    intro b mem
    rcases List.mem_append.1 mem with mem | mem
    · exact ihl (fun a inLeft => good a (List.mem_append_left _ inLeft)) b mem
    · exact ihr (fun a inRight => good a (List.mem_append_right _ inRight)) b mem

theorem Respells.mono {S : α → β → Prop} {pieces' : List (Symbol ⊕ β)}
    (h : Respells R bracketed pieces pieces') (weaker : ∀ a b, R a b → S a b) :
    Respells S bracketed pieces pieces' := by
  induction h with
  | nil => exact .nil
  | symbol s _ ih => exact .symbol s ih
  | leaf related _ ih => exact .leaf (weaker _ _ related) ih
  | bracket allowed related _ ih => exact .bracket allowed (weaker _ _ related) ih

/-- Only brackets are new. -/
theorem Respells.symbol_mem {pieces' : List (Symbol ⊕ β)}
    (h : Respells R bracketed pieces pieces') {s : Symbol} (mem : .inl s ∈ pieces') :
    .inl s ∈ pieces ∨ s = .parenLeft ∨ s = .parenRight := by
  induction h with
  | nil => cases mem
  | symbol s' _ ih =>
    rcases List.mem_cons.1 mem with same | mem
    · cases same
      exact .inl List.mem_cons_self
    · exact (ih mem).imp_left (List.mem_cons_of_mem _)
  | leaf _ _ ih =>
    rcases List.mem_cons.1 mem with same | mem
    · cases same
    · exact (ih mem).imp_left (List.mem_cons_of_mem _)
  | bracket _ _ _ ih =>
    rcases List.mem_append.1 mem with mem | mem
    · exact .inr (by simpa [enclose] using mem)
    · exact (ih mem).imp_left (List.mem_cons_of_mem _)

/-- Every leaf comes from a related one. -/
theorem Respells.leaf_mem {pieces' : List (Symbol ⊕ β)}
    (h : Respells R bracketed pieces pieces') {b : β} (mem : .inr b ∈ pieces') :
    ∃ a, .inr a ∈ pieces ∧ R a b := by
  have more : ∀ {p : Symbol ⊕ α} {pieces : List (Symbol ⊕ α)},
      (∃ a, .inr a ∈ pieces ∧ R a b) → ∃ a, .inr a ∈ p :: pieces ∧ R a b := by
    rintro p pieces ⟨a, mem, related⟩
    exact ⟨a, List.mem_cons_of_mem _ mem, related⟩
  induction h with
  | nil => cases mem
  | symbol s _ ih =>
    rcases List.mem_cons.1 mem with same | mem
    · cases same
    · exact more (ih mem)
  | leaf related _ ih =>
    rcases List.mem_cons.1 mem with same | mem
    · cases same
      exact ⟨_, List.mem_cons_self, related⟩
    · exact more (ih mem)
  | bracket _ related _ ih =>
    rcases List.mem_append.1 mem with mem | mem
    · obtain rfl : b = _ := by simpa [enclose] using mem
      exact ⟨_, List.mem_cons_self, related⟩
    · exact more (ih mem)

/-- The pieces of two lists are respelled one list after the other. -/
theorem Respells.append_left {first second : List (Symbol ⊕ α)} {pieces' : List (Symbol ⊕ β)}
    (h : Respells R bracketed (first ++ second) pieces') : ∃ first' second',
      pieces' = first' ++ second' ∧ Respells R bracketed first first' ∧
        Respells R bracketed second second' := by
  induction first generalizing pieces' with
  | nil => exact ⟨[], pieces', rfl, .nil, h⟩
  | cons p first ih =>
    cases h with
    | symbol s rest =>
      obtain ⟨first', second', rfl, front, behind⟩ := ih rest
      exact ⟨_, second', rfl, .symbol s front, behind⟩
    | leaf related rest =>
      obtain ⟨first', second', rfl, front, behind⟩ := ih rest
      exact ⟨_, second', rfl, .leaf related front, behind⟩
    | bracket allowed related rest =>
      obtain ⟨first', second', rfl, front, behind⟩ := ih rest
      exact ⟨_, second', rfl, .bracket allowed related front, behind⟩

theorem Respells.symbol_left {s : Symbol} {pieces : List (Symbol ⊕ α)}
    {pieces' : List (Symbol ⊕ β)} (h : Respells R bracketed (.inl s :: pieces) pieces') :
    ∃ rest, pieces' = .inl s :: rest ∧ Respells R bracketed pieces rest := by
  cases h with
  | symbol _ rest => exact ⟨_, rfl, rest⟩

/-- **Other leaves, and brackets around leaves, do not change the tree.** -/
theorem Prints.respell (h : Prints n signs e pieces depth) {pieces' : List (Symbol ⊕ β)}
    (spell : Respells R bracketed pieces pieces') : ∃ x depth', Prints n signs x pieces' depth' ∧
      Alike R e x ∧ (bracketed = false → depth' = depth) := by
  induction h generalizing pieces' with
  | leaf a =>
    cases spell with
    | leaf related rest =>
      cases rest
      exact ⟨_, 0, .leaf _, .leaf related, fun _ => rfl⟩
    | bracket allowed related rest =>
      cases rest
      exact ⟨_, 1, .bracket (.leaf _), .leaf related, by simp [allowed]⟩
  | transpose room _ ih =>
    obtain ⟨front, _, rfl, operand, last⟩ := spell.append_left
    obtain ⟨_, rfl, nothing⟩ := last.symbol_left
    cases nothing
    obtain ⟨x, depth', printed, alike, same⟩ := ih operand
    exact ⟨_, depth', .transpose room printed, .unary alike, same⟩
  | sign _ ih =>
    obtain ⟨_, rfl, operand⟩ := spell.symbol_left
    obtain ⟨x, depth', printed, alike, same⟩ := ih operand
    exact ⟨_, depth', .sign printed, .unary alike, same⟩
  | negate room _ ih =>
    obtain ⟨_, rfl, operand⟩ := spell.symbol_left
    obtain ⟨x, depth', printed, alike, same⟩ := ih operand
    exact ⟨_, depth', .negate room printed, .unary alike, same⟩
  | binary room _ _ ihl ihr =>
    obtain ⟨front, _, rfl, left, joined⟩ := spell.append_left
    obtain ⟨_, rfl, right⟩ := joined.symbol_left
    obtain ⟨l, depth₁, printed, alike, same⟩ := ihl left
    obtain ⟨r, depth₂, printed', alike', same'⟩ := ihr right
    exact ⟨_, _, .binary room printed printed', .binary alike alike', fun no => by
      rw [same no, same' no]⟩
  | bracket _ ih =>
    obtain ⟨_, rfl, opened⟩ := spell.symbol_left
    obtain ⟨inside, _, rfl, operand, last⟩ := opened.append_left
    obtain ⟨_, rfl, nothing⟩ := last.symbol_left
    cases nothing
    obtain ⟨x, depth', printed, alike, same⟩ := ih operand
    exact ⟨x, depth' + 1, .bracket printed, alike, fun no => by rw [same no]⟩

end Expression

end MatrixCalc
