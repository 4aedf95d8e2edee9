import MatrixCalc.Proofs.Chain.Desk

/-!
# Operators in place

The loops that resolve operators in a chain.  The result of an operation takes the place of its left
operand, or of a minus sign, and the nodes behind it are taken out.  Minus signs in front of a right
operand are resolved from their end, by a recursion that moves away from the cursor and comes back.

* `InPlace.transposeStep`, `InPlace.binaryStep`, `InPlace.negateStep` : the steps of the loops.
* `InPlace.mirrors_negateAt` : **the recursion along minus signs ends**, and leaves the cursor where
  it was.
* `InPlace.stepsLike_transpose`, `InPlace.stepsLike_binary`, `InPlace.stepsLike_negate` : the steps
  do to a chain what the turns of the loops do to its list.
-/

namespace MatrixCalc

open Tier

namespace InPlace

/-! ### Steps -/

/-- Puts the result of an operation in the place of a node, and takes out the node behind it. -/
def absorb (chain : Chain) (id : Nat) (v : Variable) (gone : Nat) : InPlace Chain :=
  modifyGet fun desk => (desk.replace id v).remove chain gone

/-- Negates the operand behind the minus sign at a node, behind further minus signs.  There is no
outcome if the turns do not suffice. -/
def negateAt : Nat → Chain → Nat → InPlace Chain
  | 0, _, _ => failure
  | turns + 1, chain, id => do
    let desk ← get
    match desk.pool.after id with
    | none => Build.fail .nothingToNegate
    | some operand =>
      let chain ← if isSymbol .neg (desk.item operand) then negateAt turns chain operand
        else pure chain
      let a ← ((← get).item operand).operand (operandOf .neg)
      let v ← Build.emitRecipe (Recipe.unary .neg a)
      absorb chain id v operand

/-- Settles the operand at a node, which may stand behind minus signs. -/
def settleAt (chain : Chain) (id : Nat) : InPlace Chain := do
  let desk ← get
  if isSymbol .neg (desk.item id) then negateAt chain.size chain id else return chain

/-- A step of the loop that resolves transpositions. -/
def transposeStep (chain : Chain) (id : Nat) : InPlace (Chain × Option Nat) := do
  let desk ← get
  if isSymbol .transpose (desk.item id) then
    match desk.pool.before id with
    | none => Build.fail .nothingToTranspose
    | some left =>
      let a ← (desk.item left).operand "transpose"
      let v ← Build.emitRecipe (Recipe.unary .transpose a)
      let chain ← absorb chain left v id
      return (chain, (← get).pool.after left)
  else return (chain, desk.pool.after id)

/-- A step of the loop that resolves the binary operators of a tier. -/
def binaryStep (tier : List Symbol) (chain : Chain) (id : Nat) : InPlace (Chain × Option Nat) := do
  let desk ← get
  match symbol? (desk.item id) with
  | none => return (chain, desk.pool.after id)
  | some s =>
    if s ∈ tier then
      match desk.pool.before id, desk.pool.after id with
      | none, _ => Build.fail (.missingLeftOperand s)
      | _, none => Build.fail (.missingRightOperand s)
      | some left, some right =>
        let chain ← settleAt chain right
        let desk ← get
        let a ← (desk.item left).operand (operandOf s)
        let b ← (desk.item right).operand (operandOf s)
        let v ← Build.emitRecipe (Recipe.binary s a b)
        let chain ← absorb chain left v id
        let chain ← modifyGet fun desk => desk.remove chain right
        return (chain, (← get).pool.after left)
    else return (chain, desk.pool.after id)

/-- A step of the loop that resolves unary minus signs. -/
def negateStep (chain : Chain) (id : Nat) : InPlace (Chain × Option Nat) := do
  let chain ← settleAt chain id
  return (chain, (← get).pool.after id)

variable {base desk : Desk} {used xs : List Nat} {chain : Chain} {front items : List Item}
  {id : Nat} {item next : Item}

/-- The result of an operation on the node and the one behind it. -/
theorem focus_absorb {gone : Nat}
    (h : Desk.Focus base used chain xs front id item (next :: items) desk)
    (after : desk.pool.after id = some gone) (v : Variable) :
    Desk.Focus base used ((desk.replace id v).remove chain gone).1 xs front id (.value v) items
      ((desk.replace id v).remove chain gone).2 ∧
    ((desk.replace id v).remove chain gone).2.pool.after id = desk.pool.after gone := by
  obtain ⟨focus, link⟩ := (h.replace v).remove ((desk.after_replace id v id).trans after)
  exact ⟨focus, link.trans (desk.after_replace id v gone)⟩

/-- The operand behind a minus sign is negated. -/
theorem mirrors_negated {operand : Nat}
    (h : Desk.Focus base used chain (xs ++ [id]) (front ++ [item]) operand next items desk) :
    Mirrors desk
      (do
        let a ← ((← get).item operand).operand (operandOf .neg)
        let v ← Build.emitRecipe (Recipe.unary .neg a)
        absorb chain id v operand)
      (do
        let a ← next.operand (operandOf .neg)
        return (← Build.emitRecipe (Recipe.unary .neg a), items))
      fun chain' r desk' => Desk.Focus base used chain' xs front id (.value r.1) r.2 desk' := by
  obtain ⟨-, after, back⟩ := h.back
  refine mirrors_get_bind ?_
  rw [h.holds]
  refine mirrors_lift_bind _ fun a => mirrors_lift_bind _ fun v => ?_
  exact fun d => .ok (focus_absorb back after v).1

/-- **A chain of minus signs is resolved in place.** -/
theorem mirrors_negateAt {turns : Nat} (enough : items.length < turns)
    (h : Desk.Focus base used chain xs front id item items desk) :
    Mirrors desk (negateAt turns chain id) (negateFirst items) fun chain' r desk' =>
      Desk.Focus base used chain' xs front id (.value r.1) r.2 desk' := by
  induction turns generalizing chain xs front id item items desk with
  | zero => exact absurd enough (Nat.not_lt_zero _)
  | succ turns ih =>
    refine mirrors_get_bind ?_
    cases items with
    | nil =>
      rw [h.after_eq_none]
      exact mirrors_fail _
    | cons next items =>
      obtain ⟨operand, after, focus⟩ := h.move
      rw [after, negateFirst]
      dsimp only
      rw [focus.holds]
      by_cases is : isSymbol .neg next = true
      · rw [if_pos is, if_pos is]
        refine (ih (Nat.lt_of_succ_lt_succ enough) focus).bind fun chain' r desk' focus' => ?_
        exact mirrors_negated focus'
      · rw [if_neg is, if_neg is]
        exact mirrors_negated focus

/-- Behind the result of an operation the loop goes on. -/
theorem mirrors_goOn {done : List Item}
    (h : Desk.Focus base used chain xs done.reverse id item items desk) :
    Mirrors desk (do return (chain, (← get).pool.after id)) (pure (item :: done, items))
      fun r r' desk' => Desk.At base used r.1 r.2 r'.1 r'.2 desk' :=
  mirrors_get_bind (mirrors_pass h)

/-- **Transpositions are resolved in place.** -/
theorem stepsLike_transpose : StepsLike transposeStep transposeTurn := by
  intro base used chain id done item items desk at'
  obtain ⟨xs, focus⟩ := at'.focus
  refine mirrors_get_bind ?_
  rw [focus.holds]
  unfold transposeTurn
  by_cases is : isSymbol .transpose item = true
  · rw [if_pos is, if_pos is]
    cases done with
    | nil =>
      rw [focus.before_eq_none]
      exact mirrors_fail _
    | cons left done =>
      rw [List.reverse_cons] at focus
      obtain ⟨xs, left', rfl⟩ := focus.exists_before
      obtain ⟨before, after, back⟩ := focus.back
      rw [before]
      dsimp only
      rw [back.holds]
      refine mirrors_lift_bind _ fun a => mirrors_lift_bind _ fun v => mirrors_edit_bind _ ?_
      exact mirrors_goOn (focus_absorb back after v).1
  · rw [if_neg is, if_neg is]
    exact mirrors_pass focus

/-- **Unary minus signs are resolved in place.** -/
theorem stepsLike_negate : StepsLike negateStep negateTurn := by
  intro base used chain id done item items desk at'
  obtain ⟨xs, focus⟩ := at'.focus
  unfold negateStep negateTurn settleAt
  rw [bind_assoc]
  refine mirrors_get_bind ?_
  rw [focus.holds]
  by_cases is : isSymbol .neg item = true
  · rw [if_pos is, if_pos is]
    refine (mirrors_negateAt focus.length_lt focus).bind fun chain' r desk' focus' => ?_
    exact mirrors_goOn focus'
  · rw [if_neg is, if_neg is, pure_bind]
    exact mirrors_goOn focus

/-- The right operand of an operator is settled. -/
theorem mirrors_rightOperand (s : Symbol)
    (h : Desk.Focus base used chain xs front id item (next :: items) desk) {right : Nat}
    (after : desk.pool.after id = some right) :
    Mirrors desk (settleAt chain right) (rightOperand s (next :: items)) fun chain' r desk' =>
      Desk.Focus base used chain' xs front id item (r.1 :: r.2) desk' ∧
        desk'.pool.after id = some right ∧ desk'.item right = r.1 := by
  obtain ⟨_, link, focus⟩ := h.move
  obtain rfl := Option.some.inj (link.symm.trans after)
  unfold settleAt rightOperand
  refine mirrors_get_bind ?_
  dsimp only
  rw [focus.holds]
  by_cases is : isSymbol .neg next = true
  · rw [if_pos is, if_pos is]
    refine (mirrors_negateAt focus.length_lt focus).then_pure fun chain' r desk' focus' => ?_
    obtain ⟨-, after', back⟩ := focus'.back
    exact ⟨back, after', focus'.holds⟩
  · rw [if_neg is, if_neg is]
    exact mirrors_pure ⟨h, after, focus.holds⟩

/-- **The binary operators of a tier are resolved in place.** -/
theorem stepsLike_binary (tier : List Symbol) : StepsLike (binaryStep tier) (binaryTurn tier) := by
  intro base used chain id done item items desk at'
  obtain ⟨xs, focus⟩ := at'.focus
  refine mirrors_get_bind ?_
  rw [focus.holds]
  unfold binaryTurn
  cases symbol? item with
  | none => exact mirrors_pass focus
  | some s =>
    dsimp only
    by_cases mem : s ∈ tier
    · rw [if_pos mem, if_pos mem]
      cases done with
      | nil =>
        rw [focus.before_eq_none]
        exact mirrors_fail _
      | cons left done =>
        rw [List.reverse_cons] at focus
        obtain ⟨xs, left', rfl⟩ := focus.exists_before
        rw [focus.back.1]
        dsimp only
        cases items with
        | nil =>
          rw [focus.after_eq_none]
          exact mirrors_fail _
        | cons next items =>
          obtain ⟨right, after, -⟩ := focus.move
          rw [after]
          dsimp only
          refine (mirrors_rightOperand s focus after).bind fun chain' r desk' settled => ?_
          obtain ⟨focus', after', operand⟩ := settled
          obtain ⟨-, link, back⟩ := focus'.back
          refine mirrors_get_bind ?_
          rw [back.holds, operand]
          refine mirrors_lift_bind _ fun a => mirrors_lift_bind _ fun b =>
            mirrors_lift_bind _ fun v => mirrors_edit_bind _ ?_
          -- first the operator goes, then its right operand
          obtain ⟨focus₁, link₁⟩ := focus_absorb back link v
          refine mirrors_edit_bind _ ?_
          exact mirrors_goOn (focus₁.remove (link₁.trans after')).1
    · rw [if_neg mem, if_neg mem]
      exact mirrors_pass focus

end InPlace

end MatrixCalc
