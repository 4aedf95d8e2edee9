import MatrixCalc.Proofs.Expression.Tiers

/-!
# Expressions in brackets

A printed tree is balanced, so the group that starts at a bracket of it is a whole subtree.  Groups
are resolved from the inside out: each becomes a variable, and what is left is a flat tree.

* `Expression.resolves_block` : **a printed tree whose brackets do not nest too deeply is reduced
  to a variable**, or an operator of it does not take its operands.
* `Expression.depth_lt_of_block` : **no other printed tree is**.
-/

namespace MatrixCalc

open Build MatrixCalc.Group
open EStateM (Result)

namespace Expression

variable {d : Draft} {e x : Expression Variable} {n depth : Nat} {signs : Bool} {allowance : Nat}
  {pieces : List (Symbol ⊕ Variable)}

/-- The items of a printed tree. -/
def itemsOf (pieces : List (Symbol ⊕ Variable)) : List Item :=
  pieces.map (Sum.elim Item.symbol Item.value)

theorem itemsOf_enclose (pieces : List (Symbol ⊕ Variable)) : itemsOf (enclose pieces) =
    .symbol .parenLeft :: itemsOf pieces ++ [.symbol .parenRight] := by
  simp [itemsOf, enclose]

/-! ### Brackets -/

/-- Items in front of the inside of a group. -/
def inFront (items : List Item) : List Item × Item × List Item → List Item × Item × List Item :=
  fun cut => (items ++ cut.1, cut.2)

theorem map_inFront (items more : List Item) (cut : Option (List Item × Item × List Item)) :
    (cut.map (inFront more)).map (inFront items) = cut.map (inFront (items ++ more)) := by
  cases cut <;> simp [inFront]

theorem untilClose_value (opened : Nat) (v : Variable) (rest : List Item) :
    untilClose opened (.value v :: rest) = (untilClose opened rest).map (inFront [.value v]) := by
  cases opened <;> rfl

theorem untilClose_symbol {s : Symbol} (h : s.role = .neutral) (opened : Nat) (rest : List Item) :
    untilClose opened (.symbol s :: rest) = (untilClose opened rest).map (inFront [.symbol s]) := by
  cases s <;> first | cases h; done | (cases opened <;> rfl)

/-- A printed tree is balanced. -/
theorem untilClose_prints (h : Prints n signs e pieces depth) (opened : Nat) (rest : List Item) :
    untilClose opened (itemsOf pieces ++ rest) =
      (untilClose opened rest).map (inFront (itemsOf pieces)) := by
  induction h generalizing opened rest with
  | leaf a => exact untilClose_value opened a rest
  | transpose room operand ih =>
    rw [itemsOf, List.map_append, List.append_assoc]
    exact (ih _ _).trans ((congrArg _ (untilClose_symbol rfl _ _)).trans (map_inFront _ _ _))
  | sign operand ih | negate room operand ih =>
    exact (untilClose_symbol rfl _ _).trans ((congrArg _ (ih _ _)).trans (map_inFront _ _ _))
  | @binary _ _ _ _ o _ _ pieces pieces' room left right ihl ihr =>
    have neutral : o.symbol.role = .neutral := by cases o <;> rfl
    rw [itemsOf, List.map_append, List.append_assoc]
    refine (ihl _ _).trans ?_
    refine (congrArg _ ((untilClose_symbol neutral _ _).trans (congrArg _ (ihr _ _)))).trans ?_
    rw [map_inFront, map_inFront, List.append_assoc]
    rfl
  | @bracket _ _ _ _ pieces inside ih =>
    -- the depth goes up at the opening bracket and down again at the closing one
    have opens : ∀ behind : List Item, untilClose opened (.symbol .parenLeft :: behind) =
        (untilClose (opened + 1) behind).map (inFront [.symbol .parenLeft]) := by
      intro behind
      cases opened <;> rfl
    have closes : untilClose (opened + 1) (Item.symbol .parenRight :: rest) =
        (untilClose opened rest).map (inFront [.symbol .parenRight]) := rfl
    rw [itemsOf_enclose, List.cons_append, List.cons_append, List.append_assoc, opens]
    refine (congrArg _ ((ih _ _).trans (congrArg _ closes))).trans ?_
    rw [map_inFront, map_inFront]
    rfl

/-! ### Resolving groups -/

/-- A bracket behind these items only groups. -/
def Ready : List Item → Prop
  | [] | .symbol _ :: _ => True
  | .function _ :: _ | .value _ :: _ => False

theorem passes_resolveAll {block : Resolver} {item : Item} (h : bracketRole item = .neutral) :
    Passes (resolveAll block) item := by
  intro done rest
  rw [resolveAll]
  cases item with
  | value v => rfl
  | function f => rfl
  | symbol s => cases s <;> first | rfl | cases h

/-- A group that only groups. -/
theorem resolveAll_group {block : Resolver} {done rest : List Item}
    (h : Prints 6 false e pieces depth) (ready : Ready done) :
    resolveAll block done (itemsOf (enclose pieces) ++ rest) =
      (single block (itemsOf pieces) >>= fun o => match o with
        | some v => resolveAll block (.value v :: done) rest
        | none => resolveAll block done rest) := by
  have cut : untilClose 0 (itemsOf pieces ++ .symbol .parenRight :: rest) =
      some (itemsOf pieces, .symbol .parenRight, rest) := by
    rw [untilClose_prints h]
    simp [untilClose, bracketRole, symbol?, Symbol.role, inFront]
  have grouped : resolveAll block done (itemsOf (enclose pieces) ++ rest) =
      (resolve block .parenLeft done (itemsOf pieces) >>= fun done =>
        resolveAll block done rest) := by
    rw [itemsOf_enclose, List.cons_append, List.cons_append, List.append_assoc, resolveAll]
    simp only [symbol?, bracketRole, Symbol.role]
    split
    · rename_i none
      cases none.symm.trans cut
    · rename_i found
      cases found.symm.trans cut
      rfl
  rw [grouped]
  -- nothing in front of the bracket is a function or a matrix
  have resolved : resolve block .parenLeft done (itemsOf pieces) =
      (single block (itemsOf pieces) >>= fun o => match o with
        | some v => pure (.value v :: done)
        | none => pure done) := by
    cases done with
    | nil => rfl
    | cons item done =>
      cases item with
      | symbol s => rfl
      | function f => exact absurd ready id
      | value v => exact absurd ready id
  rw [resolved, bind_assoc]
  congr 1
  funext o
  cases o <;> exact pure_bind _ _

/-- The trees in brackets are resolved when the list is walked along. -/
theorem walks_resolveAll {block : Resolver} {allowance : Nat}
    (inner : ∀ ⦃e pieces depth d⦄, Prints 6 false e pieces depth → depth < allowance →
      Resolves (block (itemsOf pieces) d) d e fun d' e' =>
        ∃ vs, (∃ v, e' = leaf v ∧ vs = [v]) ∧ block (itemsOf pieces) d = .ok vs d')
    (h : Prints n signs e pieces depth) (room : depth ≤ allowance) :
    Walks (resolveAll block) Ready (itemsOf pieces) 0 n signs e := by
  induction h with
  | leaf a => exact walks_leaf (passes_resolveAll rfl)
  | @transpose _ _ _ _ pieces limit operand ih =>
    intro done rest d run clear start
    rw [itemsOf, List.map_append, List.append_assoc] at start
    refine (ih room clear start).operand fun d' x' ⟨flat, next⟩ =>
      .here ⟨⟨by decide, limit, flat⟩, ?_⟩
    have passed : run =
        resolveAll block (.symbol .transpose :: (x'.items.reverse ++ done)) rest d' :=
      next.trans (congrFun (passes_resolveAll rfl _ _) d')
    rw [passed, items, List.reverse_append]
    rfl
  | sign operand ih =>
    exact walks_negate (passes_resolveAll rfl) (fun _ => trivial) (by decide) (ih room)
  | negate limit operand ih =>
    exact walks_negate (passes_resolveAll rfl) (fun _ => trivial) (by decide) ⟨limit, ih room⟩
  | @binary _ _ _ _ o _ _ pieces pieces' limit left right ihl ihr =>
    have neutral : o.symbol.role = .neutral := by cases o <;> rfl
    have low : 0 < o.level := by cases o <;> decide
    rw [itemsOf, List.map_append]
    exact walks_binary (passes_resolveAll neutral) (fun _ => trivial) low limit
      (ihl (by omega)) (ihr (by omega))
  | @bracket _ _ _ e pieces inside ih =>
    intro done rest d run clear start
    -- only here the allowance of nested groups is used
    rw [resolveAll_group inside clear, single, bind_assoc] at start
    refine ((inner inside room).bind start).mono ?_
    rintro d' _ ⟨_, ⟨v, rfl, rfl⟩, next⟩
    exact ⟨trivial, next⟩

/-! ### Whole trees -/

theorem checkRest_items (e : Expression Variable) (rest : List Item) :
    checkRest (e.items ++ rest) = checkRest rest := by
  induction e generalizing rest with
  | leaf v => rfl
  | unary o x ih =>
    cases o with
    | transpose =>
      rw [items, List.append_assoc]
      exact ih _
    | negate => exact ih rest
  | binary o l r ihl ihr =>
    rw [items, List.append_assoc]
    refine (ihl _).trans (Eq.trans ?_ (ihr rest))
    cases o <;> rfl

/-- **A printed tree is reduced to a variable**, if its brackets do not nest too deeply. -/
theorem resolves_block (h : Prints 6 false e pieces depth) (room : depth < allowance) :
    Resolves (block allowance (itemsOf pieces) d) d e fun d' e' =>
      ∃ vs, (∃ v, e' = leaf v ∧ vs = [v]) ∧ block allowance (itemsOf pieces) d = .ok vs d' := by
  induction allowance generalizing e pieces depth d with
  | zero => omega
  | succ allowance ih =>
    have walks := walks_resolveAll (fun e pieces depth d inside room => ih inside room) h
      (by omega)
    have groups := walks.resolves (d := d) trivial fun done => by rw [resolveAll]
    refine (groups.bind rfl).trans ?_
    rintro d' e' ⟨_, ⟨flat, rfl⟩, next⟩
    have checked : checkRest e'.items = pure () := by
      have := checkRest_items e' []
      rwa [List.append_nil] at this
    rw [checked, pure_bind] at next
    refine ((resolves_all flat).bind next).mono ?_
    rintro d' _ ⟨_, ⟨v, rfl, rfl⟩, last⟩
    exact ⟨[v], ⟨v, rfl, rfl⟩, last⟩

/-! ### Too many brackets -/

/-- A list that starts with a printed tree is resolved only if every group of the tree is, and then
the rest of the list is resolved too. -/
theorem depth_le_of_resolveAll {block : Resolver}
    (inner : ∀ ⦃e pieces depth d vs d'⦄, Prints 6 false e pieces depth →
      block (itemsOf pieces) d = .ok vs d' → depth < allowance)
    (h : Prints n signs e pieces depth) {done rest items : List Item} {d' : Draft}
    (ready : Ready done) (ok : resolveAll block done (itemsOf pieces ++ rest) d = .ok items d') :
    depth ≤ allowance ∧ ∃ done₁ d₁, resolveAll block done₁ rest d₁ = .ok items d' := by
  induction h generalizing done rest d with
  | leaf a =>
    have passed := @passes_resolveAll block (.value a) rfl done rest
    exact ⟨Nat.zero_le _, _, _, (congrFun passed d).symm.trans ok⟩
  | transpose _ _ ih =>
    rw [itemsOf, List.map_append, List.append_assoc] at ok
    obtain ⟨low, done₁, d₁, ok⟩ := ih ready ok
    have passed := @passes_resolveAll block (.symbol .transpose) rfl done₁ rest
    exact ⟨low, _, _, (congrFun passed d₁).symm.trans ok⟩
  | @sign _ _ _ pieces _ ih | @negate _ _ _ pieces _ _ ih =>
    have passed := @passes_resolveAll block (.symbol .neg) rfl done (itemsOf pieces ++ rest)
    have clear : Ready (.symbol .neg :: done) := trivial
    exact ih clear ((congrFun passed d).symm.trans ok)
  | @binary _ _ _ _ o _ _ _ pieces _ _ _ ihl ihr =>
    rw [itemsOf, List.map_append, List.append_assoc] at ok
    obtain ⟨low, done₁, d₁, ok⟩ := ihl ready ok
    have neutral : bracketRole (Item.symbol o.symbol) = .neutral := by cases o <;> rfl
    have passed := @passes_resolveAll block _ neutral done₁ (itemsOf pieces ++ rest)
    have clear : Ready (.symbol o.symbol :: done₁) := trivial
    obtain ⟨low', more⟩ := ihr clear ((congrFun passed d₁).symm.trans ok)
    exact ⟨max_le low low', more⟩
  | bracket inside _ =>
    rw [resolveAll_group inside ready, single, bind_assoc] at ok
    obtain ⟨vs, d₁, resolved, ok⟩ := bind_eq_ok_iff.1 ok
    obtain ⟨o, d₂, -, ok⟩ := bind_eq_ok_iff.1 ok
    refine ⟨inner inside resolved, ?_⟩
    cases o with
    | none => exact ⟨_, _, ok⟩
    | some v => exact ⟨_, _, ok⟩

/-- **Only a printed tree whose brackets do not nest too deeply** is resolved. -/
theorem depth_lt_of_block (h : Prints 6 false e pieces depth) {vs : List Variable} {d' : Draft}
    (ok : block allowance (itemsOf pieces) d = .ok vs d') : depth < allowance := by
  induction allowance generalizing e pieces depth d vs d' with
  | zero => exact (fail_ne_ok ok).elim
  | succ allowance ih =>
    rw [block] at ok
    obtain ⟨items, d₁, resolved, -⟩ := bind_eq_ok_iff.1 ok
    rw [← List.append_nil (itemsOf pieces)] at resolved
    have start : Ready [] := trivial
    obtain ⟨low, -⟩ :=
      depth_le_of_resolveAll (fun e pieces depth d vs d' inside ok => ih inside ok) h start resolved
    exact Nat.lt_succ_of_le low

end Expression

end MatrixCalc
