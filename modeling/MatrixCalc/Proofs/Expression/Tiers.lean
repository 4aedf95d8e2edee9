import MatrixCalc.Proofs.Expression.Reduction

/-!
# Expressions in the tiers

A tree whose brackets are gone is a list of items, in which the tiers replace the operators of one
precedence after the other.  `Expression.Flat k` says that the operators of the first `k` tiers are
gone; each tier takes a list that is flat for `k` to one that is flat for `k + 1`, and what it does
to the tree is a reduction.  If it fails, an operator of the tree does not take its operands.

* `Expression.resolves_all` : **the tiers reduce a flat tree to a variable**.
-/

namespace MatrixCalc

open Build Tier
open EStateM (Result)

namespace Expression

/-! ### Flat trees -/

/-- The items of a tree that is printed without brackets. -/
def items : Expression Variable → List Item
  | leaf v => [.value v]
  | unary .transpose x => x.items ++ [.symbol .transpose]
  | unary .negate x => .symbol .neg :: x.items
  | binary o l r => l.items ++ .symbol o.symbol :: r.items

/-- The tree needs no brackets in a place that takes operators up to tier `n`, and all of its
operators are in tiers above `k`. -/
def Flat (k n : Nat) (signs : Bool) : Expression Variable → Prop
  | leaf _ => True
  | unary .transpose x => k < 1 ∧ 1 ≤ n ∧ Flat k 1 false x
  | unary .negate x => k < 5 ∧ if signs then Flat k n true x else 5 ≤ n ∧ Flat k 5 true x
  | binary o l r =>
    k < o.level ∧ o.level ≤ n ∧ Flat k o.level false l ∧ Flat k (o.level - 1) true r

/-- A tree behind a number of minus signs. -/
def negated (e : Expression Variable) : Nat → Expression Variable
  | 0 => e
  | times + 1 => unary .negate (negated e times)

theorem negated_negate (e : Expression Variable) (times : Nat) :
    negated (unary .negate e) times = negated e (times + 1) := by
  induction times with
  | zero => rfl
  | succ times ih => exact congrArg (unary .negate) ih

variable {d d' : Draft} {e x l r : Expression Variable} {k n : Nat} {signs : Bool}

/-- Nothing is left of a tree whose place takes only operators that are gone. -/
theorem leaf_of_flat (h : Flat k n false e) (le : n ≤ k) : ∃ v, e = leaf v := by
  match e with
  | leaf v => exact ⟨v, rfl⟩
  | unary .transpose x =>
    obtain ⟨low, high, -⟩ := h
    omega
  | unary .negate x =>
    obtain ⟨low, high, -⟩ := h
    omega
  | binary o l r =>
    obtain ⟨low, high, -⟩ := h
    omega

/-- Behind an operator there may also be minus signs left. -/
theorem negated_of_flat (h : Flat k n true e) (pos : 1 ≤ k)
    (gone : ∀ o : BinaryOperator, k < o.level → n < o.level) :
    ∃ times v, e = negated (leaf v) times := by
  induction e with
  | leaf v => exact ⟨0, v, rfl⟩
  | unary o x ih =>
    cases o with
    | transpose =>
      obtain ⟨low, -⟩ := h
      omega
    | negate =>
      obtain ⟨times, v, rfl⟩ := ih h.2
      exact ⟨times + 1, v, rfl⟩
  | binary o l r =>
    obtain ⟨low, high, -⟩ := h
    have := gone o low
    omega

/-! ### Resolving -/

variable {β : Type} {run : Result Error Draft β} {P Q : Draft → Expression Variable → Prop}

/-- A run that resolves a tree: it fails, and then some operator does not take its operands, or it
reduces the tree, and then `P` holds of the draft and of what is left of the tree. -/
def Resolves (run : Result Error Draft β) (d : Draft) (e : Expression Variable)
    (P : Draft → Expression Variable → Prop) : Prop :=
  (e.kind? = none ∧ ∃ cause d', run = .error cause d') ∨
    ∃ program d' e', Reduces d e program d' e' ∧ P d' e'

namespace Resolves

theorem here (h : P d e) : Resolves run d e P := .inr ⟨[], d, e, .refl d e, h⟩

theorem trans (h : Resolves run d e P) (next : ∀ d' e', P d' e' → Resolves run d' e' Q) :
    Resolves run d e Q := by
  rcases h with failed | ⟨program, d', e', reduces, holds⟩
  · exact .inl failed
  · rcases next d' e' holds with ⟨none, failed⟩ | ⟨program', d'', e'', reduces', holds'⟩
    · exact .inl ⟨reduces.kind?_eq.symm.trans none, failed⟩
    · exact .inr ⟨_, d'', e'', reduces.trans reduces', holds'⟩

theorem mono (h : Resolves run d e P) (sub : ∀ d' e', P d' e' → Q d' e') : Resolves run d e Q :=
  h.trans fun d' e' holds => here (sub d' e' holds)

/-- The operand of a tree first. -/
theorem operand {o : UnaryOperator} (h : Resolves run d x P)
    (next : ∀ d' x', P d' x' → Resolves run d' (unary o x') Q) : Resolves run d (unary o x) Q := by
  have lifted : Resolves run d (unary o x) fun d' e' => ∃ x', e' = unary o x' ∧ P d' x' := by
    rcases h with ⟨none, failed⟩ | ⟨program, d', x', reduces, holds⟩
    · exact .inl ⟨by rw [kind?, none, Option.bind_none], failed⟩
    · exact .inr ⟨program, d', _, reduces.operand, x', rfl, holds⟩
  refine lifted.trans ?_
  rintro d' _ ⟨x', rfl, holds⟩
  exact next d' x' holds

/-- The left operand of a tree first. -/
theorem left {o : BinaryOperator} (h : Resolves run d l P)
    (next : ∀ d' l', P d' l' → Resolves run d' (binary o l' r) Q) :
    Resolves run d (binary o l r) Q := by
  have lifted : Resolves run d (binary o l r) fun d' e' => ∃ l', e' = binary o l' r ∧ P d' l' := by
    rcases h with ⟨none, failed⟩ | ⟨program, d', l', reduces, holds⟩
    · exact .inl ⟨by rw [kind?, none, Option.bind_none], failed⟩
    · exact .inr ⟨program, d', _, reduces.left, l', rfl, holds⟩
  refine lifted.trans ?_
  rintro d' _ ⟨l', rfl, holds⟩
  exact next d' l' holds

/-- The right operand of a tree first. -/
theorem right {o : BinaryOperator} (h : Resolves run d r P)
    (next : ∀ d' r', P d' r' → Resolves run d' (binary o l r') Q) :
    Resolves run d (binary o l r) Q := by
  have lifted : Resolves run d (binary o l r) fun d' e' => ∃ r', e' = binary o l r' ∧ P d' r' := by
    rcases h with ⟨none, failed⟩ | ⟨program, d', r', reduces, holds⟩
    · exact .inl ⟨by simp only [kind?, none, Option.bind_none, Option.bind_fun_none], failed⟩
    · exact .inr ⟨program, d', _, reduces.right, r', rfl, holds⟩
  refine lifted.trans ?_
  rintro d' _ ⟨r', rfl, holds⟩
  exact next d' r' holds

/-- The first of two computations resolves the tree, or a part of it. -/
theorem bind {α : Type} {m : Build α} {f : α → Build β} {R : α → Expression Variable → Prop}
    (h : Resolves (m d) d e fun d' e' => ∃ a, R a e' ∧ m d = .ok a d') (start : run = (m >>= f) d) :
    Resolves run d e fun d' e' => ∃ a, R a e' ∧ run = f a d' := by
  rcases h with ⟨none, cause, d', failed⟩ | ⟨program, d', e', reduces, a, holds, ok⟩
  · exact .inl ⟨none, cause, d', by rw [start, bind_eq, failed]⟩
  · exact .inr ⟨program, d', e', reduces, a, holds, by rw [start, bind_eq, ok]⟩

/-- The operand behind minus signs first. -/
theorem behindSigns (times : Nat) (h : Resolves run d x P)
    (next : ∀ d' x', P d' x' → Resolves run d' (negated x' times) Q) :
    Resolves run d (negated x times) Q := by
  induction times generalizing Q with
  | zero => exact h.trans next
  | succ times ih =>
    have inner : Resolves run d (negated x times)
        fun d' e' => ∃ x', e' = negated x' times ∧ P d' x' :=
      ih fun d' x' holds => here ⟨x', rfl, holds⟩
    refine inner.operand ?_
    rintro d' _ ⟨x', rfl, holds⟩
    exact next d' x' holds

end Resolves

/-! ### One operator -/

variable {f : Variable → Build β}

theorem emitRecipe_bind_eq (r : Except Malformed Recipe) (f : Variable → Build β) (d : Draft) :
    (emitRecipe r >>= f) d = match r with
      | .ok recipe => f (d.placed recipe).output (d.emitting recipe)
      | .error cause => .error (.malformed cause) d := by
  cases r <;> rfl

theorem resolves_unary {o : UnaryOperator} {a : Variable}
    (start : run = (emitRecipe (Recipe.unary o.symbol a) >>= f) d) :
    Resolves run d (unary o (leaf a)) fun d' e' => ∃ v, e' = leaf v ∧ run = f v d' := by
  rw [emitRecipe_bind_eq] at start
  cases made : Recipe.unary o.symbol a with
  | ok recipe =>
    rw [made] at start
    exact .inr ⟨_, _, _, .head (.unary made) (.refl _ _), _, rfl, start⟩
  | error cause =>
    rw [made] at start
    refine .inl ⟨?_, _, _, start⟩
    simp only [kind?, Option.bind_some, UnaryOperator.kind?_eq, made]
    rfl

theorem resolves_binary {o : BinaryOperator} {a b : Variable}
    (start : run = (emitRecipe (Recipe.binary o.symbol a b) >>= f) d) :
    Resolves run d (binary o (leaf a) (leaf b)) fun d' e' => ∃ v, e' = leaf v ∧ run = f v d' := by
  rw [emitRecipe_bind_eq] at start
  cases made : Recipe.binary o.symbol a b with
  | ok recipe =>
    rw [made] at start
    exact .inr ⟨_, _, _, .head (.binary made) (.refl _ _), _, rfl, start⟩
  | error cause =>
    rw [made] at start
    refine .inl ⟨?_, _, _, start⟩
    simp only [kind?, Option.bind_some, BinaryOperator.kind?_eq, made]
    rfl

theorem resolves_negated {times : Nat} {a : Variable} (start : run = (negate times a >>= f) d) :
    Resolves run d (negated (leaf a) times) fun d' e' => ∃ v, e' = leaf v ∧ run = f v d' := by
  induction times generalizing a d with
  | zero => exact .here ⟨a, rfl, start⟩
  | succ times ih =>
    rw [← negated_negate]
    refine Resolves.behindSigns times (resolves_unary (f := fun v => negate times v >>= f) ?_) ?_
    · rw [start, negate, bind_assoc]
      rfl
    · rintro d' _ ⟨v, rfl, next⟩
      exact ih next

/-! ### Walking along a list -/

/-- A walk over a tree that stands as `before` in a list: it pushes what is left of the tree onto
the items that it has passed, if these are `ready` for the tree. -/
def Walks (g : List Item → List Item → Build (List Item)) (ready : List Item → Prop)
    (before : List Item) (k n : Nat) (signs : Bool) (e : Expression Variable) : Prop :=
  ∀ ⦃done rest : List Item⦄ ⦃d : Draft⦄ ⦃run : Result Error Draft (List Item)⦄, ready done →
    run = g done (before ++ rest) d → Resolves run d e fun d' e' =>
      Flat k n signs e' ∧ run = g (e'.items.reverse ++ done) rest d'

/-- Any items are ready for a tree without brackets. -/
abbrev Always : List Item → Prop := fun _ => True

/-- A tier passes an item. -/
def Passes (g : List Item → List Item → Build (List Item)) (item : Item) : Prop :=
  ∀ done rest, g done (item :: rest) = g (item :: done) rest

variable {g : List Item → List Item → Build (List Item)} {ready : List Item → Prop}
  {before before' : List Item}

theorem walks_leaf {v : Variable} (pass : Passes g (.value v)) :
    Walks g ready [.value v] k n signs (leaf v) := by
  intro done rest d run _ start
  refine .here ⟨trivial, ?_⟩
  rw [start]
  exact congrFun (pass done rest) d

/-- A minus sign that is passed. -/
theorem walks_negate (pass : Passes g (.symbol .neg))
    (free : ∀ done, ready (.symbol .neg :: done)) (low : k < 5)
    (h : if signs then Walks g ready before k n true x
      else 5 ≤ n ∧ Walks g ready before k 5 true x) :
    Walks g ready (.symbol .neg :: before) k n signs (unary .negate x) := by
  intro done rest d run _ start
  have passed : run = g (.symbol .neg :: done) (before ++ rest) d :=
    start.trans (congrFun (pass done (before ++ rest)) d)
  have pushed : ∀ x' : Expression Variable, (unary .negate x').items.reverse ++ done =
      x'.items.reverse ++ .symbol .neg :: done := by simp [items]
  cases signs with
  | true =>
    refine (h (free done) passed).operand fun d' x' ⟨flat, next⟩ => .here ⟨⟨low, flat⟩, ?_⟩
    rw [pushed]
    exact next
  | false =>
    refine (h.2 (free done) passed).operand fun d' x' ⟨flat, next⟩ =>
      .here ⟨⟨low, h.1, flat⟩, ?_⟩
    rw [pushed]
    exact next

/-- A binary operator that is passed. -/
theorem walks_binary {o : BinaryOperator} (pass : Passes g (.symbol o.symbol))
    (free : ∀ done, ready (.symbol o.symbol :: done)) (low : k < o.level) (room : o.level ≤ n)
    (hl : Walks g ready before k o.level false l)
    (hr : Walks g ready before' k (o.level - 1) true r) :
    Walks g ready (before ++ .symbol o.symbol :: before') k n signs (binary o l r) := by
  intro done rest d run clear start
  rw [List.append_assoc] at start
  refine (hl clear start).left fun d' l' ⟨flatLeft, next⟩ => ?_
  have passed := next.trans (congrFun (pass (l'.items.reverse ++ done) (before' ++ rest)) d')
  refine (hr (free _) passed).right fun d'' r' ⟨flatRight, last⟩ =>
    .here ⟨⟨low, room, flatLeft, flatRight⟩, ?_⟩
  rw [last]
  simp [items]

/-- A walk over a whole list. -/
theorem Walks.resolves (h : Walks g ready before k n signs e) (clear : ready [])
    (finish : ∀ done, g done [] = pure done.reverse) :
    Resolves (g [] before d) d e fun d' e' =>
      ∃ items, (Flat k n signs e' ∧ items = e'.items) ∧ g [] before d = .ok items d' := by
  have start : g [] before d = g [] (before ++ []) d := by rw [List.append_nil]
  refine (h clear start).mono fun d' e' ⟨flat, last⟩ => ⟨_, ⟨flat, rfl⟩, ?_⟩
  rw [last, finish, List.append_nil, List.reverse_reverse]
  rfl

/-! ### Transpositions -/

theorem passes_transpositions {s : Symbol} (h : s ≠ .transpose) :
    Passes transpositions (.symbol s) := by
  intro done rest
  cases s <;> first | rfl | exact absurd rfl h

theorem walks_transpositions (flat : Flat 0 n signs e) :
    Walks transpositions Always e.items 1 n signs e := by
  induction e generalizing n signs with
  | leaf v => exact walks_leaf fun _ _ => rfl
  | unary o x ih =>
    cases o with
    | transpose =>
      obtain ⟨-, room, flat⟩ := flat
      intro done rest d run _ start
      rw [items, List.append_assoc] at start
      -- the operand of a transposition is a variable when it is resolved
      refine (ih flat trivial start).operand fun d' x' ⟨flat, next⟩ => ?_
      obtain ⟨a, rfl⟩ := leaf_of_flat flat (Nat.le_refl 1)
      refine (resolves_unary next).mono ?_
      rintro d' _ ⟨v, rfl, last⟩
      exact ⟨trivial, last⟩
    | negate =>
      refine walks_negate (passes_transpositions (by decide)) (fun _ => trivial) (by decide) ?_
      cases signs with
      | true => exact ih flat.2
      | false => exact ⟨flat.2.1, ih flat.2.2⟩
  | binary o l r ihl ihr =>
    obtain ⟨-, room, flatLeft, flatRight⟩ := flat
    have low : 1 < o.level := by cases o <;> decide
    exact walks_binary (passes_transpositions (by cases o <;> decide)) (fun _ => trivial) low room
      (ihl flatLeft) (ihr flatRight)

/-! ### Binary operators -/

section Binaries

variable {tier : List Symbol}

theorem passes_binaries_value (tier : List Symbol) (v : Variable) :
    Passes (fun done => binaries tier done none) (.value v) := by
  intro done rest
  cases done <;> rfl

theorem passes_binaries {s : Symbol} (h : s ∉ tier) :
    Passes (fun done => binaries tier done none) (.symbol s) := by
  intro done rest
  cases done <;> exact if_neg h

/-- What waits for its right operand takes the minus signs in front of it. -/
theorem binaries_negated (done : List Item) (a b : Variable) (s : Symbol) (before times : Nat)
    (rest : List Item) :
    binaries tier done (some ⟨.value a, s, before⟩) ((negated (leaf b) times).items ++ rest) =
      (negate (before + times) b >>= fun b => emitRecipe (Recipe.binary s a b) >>= fun v =>
        binaries tier (.value v :: done) none rest) := by
  induction times generalizing before with
  | zero =>
    have takes : binaries tier done (some ⟨.value a, s, before⟩) (.value b :: rest) =
        ((⟨.value a, s, before⟩ : Pending).resolve (.value b) >>= fun v =>
          binaries tier (.value v :: done) none rest) := by
      cases before <;> rfl
    refine takes.trans ?_
    cases before <;> simp only [Pending.resolve, Item.operand, pure_bind, bind_assoc,
      negate]
  | succ times ih =>
    have shift : before + (times + 1) = before + 1 + times := by omega
    rw [shift, ← ih]
    cases before <;> rfl

/-- A tier of binary operators. -/
theorem walks_binaries (pos : 1 ≤ k) (between : k ≠ 4)
    (members : ∀ o : BinaryOperator, o.symbol ∈ tier ↔ o.level = k + 1) (neg : .neg ∉ tier)
    (flat : Flat k n signs e) :
    Walks (fun done => binaries tier done none) Always e.items (k + 1) n signs e := by
  induction e generalizing n signs with
  | leaf v => exact walks_leaf (passes_binaries_value tier v)
  | unary o x ih =>
    cases o with
    | transpose =>
      obtain ⟨low, -⟩ := flat
      omega
    | negate =>
      obtain ⟨low, flat⟩ := flat
      refine walks_negate (passes_binaries neg) (fun _ => trivial) (by omega) ?_
      cases signs with
      | true => exact ih flat
      | false => exact ⟨flat.1, ih flat.2⟩
  | binary o l r ihl ihr =>
    obtain ⟨low, room, flatLeft, flatRight⟩ := flat
    by_cases here : o.level = k + 1
    · -- the operands of an operator of this tier are variables when it is resolved
      intro done rest d run _ start
      rw [items, List.append_assoc] at start
      refine (ihl flatLeft trivial start).left fun d' l' ⟨flat, next⟩ => ?_
      obtain ⟨a, rfl⟩ := leaf_of_flat flat (by omega)
      obtain ⟨times, b, rfl⟩ := negated_of_flat flatRight pos fun o' _ => by omega
      have taken : run = (negate times b >>= fun b => emitRecipe (Recipe.binary o.symbol a b) >>=
          fun v => binaries tier (.value v :: done) none rest) d' := by
        have waits := @binaries_negated tier done a b o.symbol 0 times rest
        rw [Nat.zero_add] at waits
        rw [next, ← waits]
        exact congrFun (if_pos ((members o).2 here)) d'
      refine (resolves_negated taken).right ?_
      rintro d' _ ⟨b, rfl, emitted⟩
      refine (resolves_binary emitted).mono ?_
      rintro d' _ ⟨v, rfl, last⟩
      exact ⟨trivial, last⟩
    · exact walks_binary (passes_binaries fun mem => here ((members o).1 mem)) (fun _ => trivial)
        (by omega) room (ihl flatLeft) (ihr flatRight)

end Binaries

/-! ### Minus signs -/

theorem negations_negated (done : List Item) (a : Variable) (before times : Nat)
    (rest : List Item) : negations done before ((negated (leaf a) times).items ++ rest) =
      (negate (before + times) a >>= fun v => negations (.value v :: done) 0 rest) := by
  induction times generalizing before with
  | zero => cases before <;> rfl
  | succ times ih =>
    have shift : before + (times + 1) = before + 1 + times := by omega
    rw [shift, ← ih]
    cases before <;> rfl

theorem walks_negated (times : Nat) (v : Variable) :
    Walks (fun done => negations done 0) Always (negated (leaf v) times).items k n signs
      (negated (leaf v) times) := by
  intro done rest d run _ start
  have taken := start.trans (congrFun (negations_negated done v 0 times rest) d)
  rw [Nat.zero_add] at taken
  refine (resolves_negated taken).mono ?_
  rintro d' _ ⟨v, rfl, last⟩
  exact ⟨trivial, last⟩

/-- The minus signs that no binary operator has taken. -/
theorem walks_negations (small : signs = true → n ≤ 5) (flat : Flat 4 n signs e) :
    Walks (fun done => negations done 0) Always e.items 5 n signs e := by
  have gone : ∀ m, m ≤ 5 → ∀ o : BinaryOperator, 4 < o.level → m < o.level := by
    intro m le o
    cases o <;> simp only [BinaryOperator.level] <;> omega
  induction e generalizing n signs with
  | leaf v => exact walks_negated 0 v
  | unary o x ih =>
    cases o with
    | transpose =>
      obtain ⟨low, -⟩ := flat
      omega
    | negate =>
      -- what stands behind a minus sign is a variable behind minus signs
      obtain ⟨-, flat⟩ := flat
      have behind : ∃ times v, x = negated (leaf v) times := by
        cases signs with
        | true => exact negated_of_flat flat (by decide) (gone n (small rfl))
        | false => exact negated_of_flat flat.2 (by decide) (gone 5 (Nat.le_refl 5))
      obtain ⟨times, v, rfl⟩ := behind
      exact walks_negated (times + 1) v
  | binary o l r ihl ihr =>
    obtain ⟨low, room, flatLeft, flatRight⟩ := flat
    have sum : o.level = 6 := by
      cases o <;> first | rfl | exact absurd low (by decide)
    have pass : Passes (fun done => negations done 0) (.symbol o.symbol) := by
      cases o <;> exact fun _ _ => rfl
    exact walks_binary pass (fun _ => trivial) (by omega) room (ihl nofun flatLeft)
      (ihr (fun _ => by omega) flatRight)

/-! ### All tiers -/

/-- A computation on lists takes trees that are flat for `k` to trees that are flat for `k'`. -/
def Stage (m : List Item → Build (List Item)) (k k' : Nat) : Prop :=
  ∀ ⦃d e⦄, Flat k 6 false e → Resolves (m e.items d) d e fun d' e' =>
    ∃ items, (Flat k' 6 false e' ∧ items = e'.items) ∧ m e.items d = .ok items d'

theorem Stage.then {m m' : List Item → Build (List Item)} {k k' k'' : Nat} (h : Stage m k k')
    (h' : Stage m' k' k'') : Stage (fun items => m items >>= m') k k'' := by
  intro d e flat
  refine ((h flat).bind rfl).trans ?_
  rintro d' e' ⟨_, ⟨flat', rfl⟩, next⟩
  dsimp only at next ⊢
  rw [next]
  exact h' flat'

/-- A tier of binary operators. -/
theorem stage_binaries {tier : List Symbol} {k : Nat} (pos : 1 ≤ k) (between : k ≠ 4)
    (members : ∀ o : BinaryOperator, o.symbol ∈ tier ↔ o.level = k + 1) (neg : .neg ∉ tier) :
    Stage (binaries tier [] none) k (k + 1) := fun _ _ flat =>
  (walks_binaries pos between members neg flat).resolves trivial fun done => by cases done <;> rfl

theorem stage_all : Stage Tier.all 0 6 := by
  have first : Stage (transpositions []) 0 1 := fun _ _ flat =>
    (walks_transpositions flat).resolves trivial fun _ => rfl
  have signs : Stage (negations [] 0) 4 5 := fun _ _ flat =>
    (walks_negations (by decide) flat).resolves trivial fun _ => rfl
  have powers : Stage (binaries [.power, .elementPower] [] none) 1 2 :=
    stage_binaries (by decide) (by decide) (fun o => by cases o <;> decide) (by decide)
  have elements : Stage (binaries [.elementTimes, .elementDivide] [] none) 2 3 :=
    stage_binaries (by decide) (by decide) (fun o => by cases o <;> decide) (by decide)
  have products : Stage (binaries [.times, .divideRight, .divideLeft] [] none) 3 4 :=
    stage_binaries (by decide) (by decide) (fun o => by cases o <;> decide) (by decide)
  have sums : Stage (binaries [.plus, .minus] [] none) 5 6 :=
    stage_binaries (by decide) (by decide) (fun o => by cases o <;> decide) (by decide)
  exact first.then (powers.then (elements.then (products.then (signs.then sums))))

/-- **The tiers reduce a flat tree to a variable.** -/
theorem resolves_all (flat : Flat 0 6 false e) : Resolves (Tier.all e.items d) d e fun d' e' =>
    ∃ items, (∃ v, e' = leaf v ∧ items = [.value v]) ∧ Tier.all e.items d = .ok items d' := by
  refine (stage_all flat).mono ?_
  rintro d' e' ⟨_, ⟨flat, rfl⟩, ok⟩
  obtain ⟨v, rfl⟩ := leaf_of_flat flat (Nat.le_refl 6)
  exact ⟨_, ⟨v, rfl, rfl⟩, ok⟩

end Expression

end MatrixCalc
