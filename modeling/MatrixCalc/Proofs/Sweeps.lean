import MatrixCalc.Proofs.Compilation
import MatrixCalc.Proofs.Ranges
import MatrixCalc.Proofs.Phases.Performing

/-!
# Sweeps of a list

A list is resolved in sweeps: first its groups, then, behind a check for what no operator takes,
the operators tier by tier.  Each sweep is a loop along the list.  A turn of it may take more than
the item at the cursor, such as the minus signs between an operator and its right operand, but it
puts in nothing but variables, so that no sweep brings back what another one has taken out.

* `Turn`, `Walks` : a loop along a list, and what a turn of it does.
* `Walks.gives` : **a loop takes out what it takes, and puts in variables only.**
* `Tier.walks_transpositions`, `Tier.walks_binaries`, `Tier.walks_negations`,
  `Group.walks_resolveAll` : the loops of the sweeps.
* `Sweep.block_succ` : the value of a list is what its sweeps leave, read as ranges.
* `Sweep.gives_runAll` : **what a sweep takes is gone after it**, whatever sweeps follow.
* `Sweep.gives_all`, `Range.handles_ne_unexpected` : variables and colons are left, and none of them
  is unexpected where ranges are read.
-/

namespace MatrixCalc

/-! ### Turns -/

/-- What a loop along a list does at an item.  It is given what it has passed, last item first, the
item and what follows; the answer is what is passed then, and what follows. -/
abbrev Turn := List Item → Item → List Item → Build (List Item × List Item)

namespace Tier

/-- One turn of the loop that resolves transpositions. -/
def transposeTurn : Turn := fun done item items =>
  if isSymbol .transpose item then
    match done with
    | [] => Build.fail .nothingToTranspose
    | left :: done => do
      let a ← left.operand "transpose"
      let v ← Build.emitRecipe (Recipe.unary .transpose a)
      return (.value v :: done, items)
  else return (item :: done, items)

/-- Negates the operand that follows a minus sign, which may be negated itself; the answer is the
result and what follows the operand. -/
def negateFirst : List Item → Build (Variable × List Item)
  | [] => Build.fail .nothingToNegate
  | item :: items =>
    if isSymbol .neg item then do
      let (v, rest) ← negateFirst items
      return (← Build.emitRecipe (Recipe.unary .neg v), rest)
    else do
      let a ← item.operand (operandOf .neg)
      return (← Build.emitRecipe (Recipe.unary .neg a), items)

/-- The right operand of an operator, negated if there are minus signs in front of it, and what
follows. -/
def rightOperand (s : Symbol) : List Item → Build (Item × List Item)
  | [] => Build.fail (.missingRightOperand s)
  | item :: items =>
    if isSymbol .neg item then do
      let (v, rest) ← negateFirst items
      return (.value v, rest)
    else return (item, items)

/-- One turn of the loop that resolves the binary operators of a tier. -/
def binaryTurn (tier : List Symbol) : Turn := fun done item items =>
  match symbol? item with
  | some s =>
    if s ∈ tier then
      match done with
      | [] => Build.fail (.missingLeftOperand s)
      | left :: done => do
        let (right, rest) ← rightOperand s items
        let a ← left.operand (operandOf s)
        let b ← right.operand (operandOf s)
        let v ← Build.emitRecipe (Recipe.binary s a b)
        return (.value v :: done, rest)
    else return (item :: done, items)
  | none => return (item :: done, items)

/-- One turn of the loop that resolves the unary minus signs. -/
def negateTurn : Turn := fun done item items =>
  if isSymbol .neg item then do
    let (v, rest) ← negateFirst items
    return (.value v :: done, rest)
  else return (item :: done, items)

end Tier

/-- One turn of the loop that resolves groups. -/
def Group.groupTurn (block : Resolver) : Turn := fun done item items =>
  match symbol? item, bracketRole item with
  | some opening, .opening =>
    match untilClose 0 items with
    | none => Build.fail (.unterminated opening)
    | some (inside, _, rest) => do return (← resolve block opening done inside, rest)
  | some closing, .closing => Build.fail (.unmatchedClosing closing)
  | _, _ => return (item :: done, items)

/-! ### What a computation gives -/

namespace Build

variable {α β : Type} {p : α → Prop} {q : β → Prop}

/-- If the computation succeeds, its answer has the property. -/
def Gives (p : α → Prop) (m : Build α) : Prop := ∀ d a d', m d = .ok a d' → p a

theorem gives_any (m : Build α) : m.Gives fun _ => True := fun _ _ _ _ => trivial

theorem gives_pure {a : α} (h : p a) : (pure a : Build α).Gives p := by
  intro d b d' run
  obtain ⟨rfl, -⟩ := pure_eq_ok_iff.1 run
  exact h

theorem gives_fail (cause : Malformed) : (fail cause : Build α).Gives p :=
  fun _ _ _ run => absurd run fail_ne_ok

theorem Gives.bind {x : Build α} {f : α → Build β} (hx : x.Gives p)
    (hf : ∀ a, p a → (f a).Gives q) : (x >>= f).Gives q := by
  intro d b d' run
  obtain ⟨a, d₁, first, second⟩ := bind_eq_ok_iff.1 run
  exact hf a (hx d a d₁ first) d₁ b d' second

theorem Gives.mono {p' : α → Prop} {x : Build α} (h : x.Gives p) (sub : ∀ a, p a → p' a) :
    x.Gives p' := fun d a d' run => sub a (h d a d' run)

end Build

open Build

/-! ### Loops -/

/-- What a turn of a loop leaves that takes some items out of a list. -/
structure Turned (takes : Item → Prop) (done : List Item) (item : Item) (items : List Item)
    (r : List Item × List Item) : Prop where
  /-- The item has been passed. -/
  shorter : r.2.length ≤ items.length
  /-- What has been passed in this turn is nothing that the loop takes. -/
  passed : ∀ x ∈ r.1, x ∈ done ∨ ¬ takes x
  /-- Everything was there before, or is a variable. -/
  old : ∀ x ∈ r.1 ++ r.2, x ∈ done ++ item :: items ∨ ∃ v, x = .value v

/-- The loop goes along a list in turns, and takes some items out of it. -/
structure Walks (takes : Item → Prop) (loop : List Item → List Item → Build (List Item))
    (turn : Turn) : Prop where
  /-- It ends behind the last item. -/
  nil : ∀ done, loop done [] = pure done.reverse
  /-- At an item it takes a turn and goes on behind it. -/
  cons : ∀ done item items, loop done (item :: items) =
    turn done item items >>= fun r => loop r.1 r.2
  /-- What a turn leaves. -/
  turned : ∀ done item items, (turn done item items).Gives (Turned takes done item items)

/-- An item that is not taken is passed. -/
theorem turned_pass {takes : Item → Prop} {item : Item} (h : ¬ takes item)
    (done items : List Item) : Turned takes done item items (item :: done, items) where
  shorter := Nat.le_refl _
  passed := by
    intro x mem
    rcases List.mem_cons.1 mem with rfl | mem
    · exact .inr h
    · exact .inl mem
  old := by
    intro x mem
    exact .inl (by simpa [or_left_comm] using mem)

/-- A variable takes the place of items behind and in front of the cursor. -/
theorem turned_value {takes : Item → Prop} {done before items rest : List Item}
    (item : Item) (v : Variable) (h : ¬ takes (.value v)) (front : ∀ x ∈ before, x ∈ done)
    (back : rest.Sublist items) : Turned takes done item items (.value v :: before, rest) where
  shorter := back.length_le
  passed := by
    intro x mem
    rcases List.mem_cons.1 mem with rfl | mem
    · exact .inr h
    · exact .inl (front x mem)
  old := by
    intro x mem
    rcases List.mem_cons.1 mem with rfl | mem
    · exact .inr ⟨v, rfl⟩
    · refine .inl ?_
      rcases List.mem_append.1 mem with mem | mem
      · exact List.mem_append_left _ (front x mem)
      · exact List.mem_append_right _ (List.mem_cons_of_mem _ (back.mem mem))

namespace Walks

variable {takes : Item → Prop} {loop : List Item → List Item → Build (List Item)} {turn : Turn}

/-- **A loop takes out what it takes, and puts in variables only.** -/
theorem gives (h : Walks takes loop turn) {done items : List Item} (clean : ∀ x ∈ done, ¬ takes x) :
    (loop done items).Gives fun rest => (∀ x ∈ rest, ¬ takes x) ∧
      ∀ x ∈ rest, x ∈ done ++ items ∨ ∃ v, x = .value v := by
  generalize bound : items.length = n
  induction n using Nat.strong_induction_on generalizing done items with
  | h n ih =>
    cases items with
    | nil =>
      rw [h.nil]
      refine gives_pure ⟨fun x mem => clean x (List.mem_reverse.1 mem), fun x mem => .inl ?_⟩
      simpa using mem
    | cons item items =>
      rw [h.cons]
      refine (h.turned done item items).bind fun r turned => ?_
      have clean' : ∀ x ∈ r.1, ¬ takes x := fun x mem =>
        (turned.passed x mem).elim (clean x) id
      have fewer : r.2.length < n := by
        have := turned.shorter
        simp only [List.length_cons] at bound
        omega
      refine (ih _ fewer clean' rfl).mono fun rest after => ⟨after.1, fun x mem => ?_⟩
      rcases after.2 x mem with old | new
      · exact turned.old x old
      · exact .inr new

end Walks

/-! ### The loops of the tiers -/

theorem Item.not_isSymbol_value (s : Symbol) (v : Variable) : ¬ isSymbol s (Item.value v) = true :=
  Bool.false_ne_true

namespace Tier

theorem walks_transpositions :
    Walks (fun item => isSymbol .transpose item = true) transpositions transposeTurn where
  nil done := by simp only [transpositions]
  cons done item items := by
    simp only [transpositions, transposeTurn]
    by_cases is : isSymbol .transpose item = true
    · rw [if_pos is, if_pos is]
      cases done with
      | nil => rfl
      | cons left done => simp only [bind_assoc, pure_bind]
    · rw [if_neg is, if_neg is]
      rfl
  turned done item items := by
    unfold transposeTurn
    by_cases is : isSymbol .transpose item = true
    · rw [if_pos is]
      cases done with
      | nil => exact gives_fail _
      | cons left done =>
        exact (gives_any _).bind fun _ _ => (gives_any _).bind fun v _ => gives_pure
          (turned_value item v (Item.not_isSymbol_value _ _)
            (fun _ => List.mem_cons_of_mem left) (.refl _))
    · rw [if_neg is]
      exact gives_pure (turned_pass is _ _)

/-- A chain of minus signs is resolved from its end. -/
theorem negations_signs (done : List Item) (signs : Nat) (items : List Item) :
    negations done (signs + 1) items = negateFirst items >>= fun r =>
      negate signs r.1 >>= fun v => negations (.value v :: done) 0 r.2 := by
  induction items generalizing signs with
  | nil => rfl
  | cons item items ih =>
    simp only [negations, negateFirst]
    by_cases is : isSymbol .neg item = true
    · simp only [if_pos is, ih, bind_assoc, pure_bind, negate, Item.operand]
    · simp only [if_neg is, if_neg (Nat.succ_ne_zero signs), bind_assoc, pure_bind, negate]

/-- Behind an operator, a chain of minus signs is resolved before the operator. -/
theorem binaries_signs (tier : List Symbol) (done : List Item) (left : Item) (s : Symbol)
    (signs : Nat) (items : List Item) :
    binaries tier done (some ⟨left, s, signs + 1⟩) items = negateFirst items >>= fun r =>
      negate signs r.1 >>= fun b => left.operand (operandOf s) >>= fun a =>
        emitRecipe (Recipe.binary s a b) >>= fun v =>
          binaries tier (.value v :: done) none r.2 := by
  induction items generalizing signs with
  | nil => rfl
  | cons item items ih =>
    simp only [binaries, negateFirst]
    by_cases is : isSymbol .neg item = true
    · simp only [if_pos is, ih, bind_assoc, pure_bind, negate, Item.operand]
    · simp only [if_neg is, Pending.resolve, bind_assoc, pure_bind, negate]

theorem gives_negateFirst (items : List Item) :
    (negateFirst items).Gives fun r => r.2.Sublist items := by
  induction items with
  | nil => exact gives_fail _
  | cons item items ih =>
    rw [negateFirst]
    split
    · exact ih.bind fun r sub => (gives_any _).bind fun _ _ => gives_pure (sub.cons item)
    · exact (gives_any _).bind fun _ _ => (gives_any _).bind fun _ _ =>
        gives_pure (List.sublist_cons_self item items)

theorem gives_rightOperand (s : Symbol) (items : List Item) :
    (rightOperand s items).Gives fun r => r.2.Sublist items := by
  cases items with
  | nil => exact gives_fail _
  | cons item items =>
    rw [rightOperand]
    split
    · exact (gives_negateFirst items).bind fun r sub => gives_pure (sub.cons item)
    · exact gives_pure (List.sublist_cons_self item items)

theorem walks_negations : Walks (fun item => isSymbol .neg item = true)
    (fun done items => negations done 0 items) negateTurn where
  nil done := rfl
  cons done item items := by
    simp only [negations, negateTurn]
    by_cases is : isSymbol .neg item = true
    · simp only [if_pos is, negations_signs, negate, bind_assoc, pure_bind]
    · simp only [if_neg is, if_true, pure_bind]
  turned done item items := by
    unfold negateTurn
    by_cases is : isSymbol .neg item = true
    · rw [if_pos is]
      exact (gives_negateFirst items).bind fun r sub => gives_pure
        (turned_value item r.1 (Item.not_isSymbol_value _ _) (fun _ mem => mem) sub)
    · rw [if_neg is]
      exact gives_pure (turned_pass is _ _)

/-- An operator that waits for its right operand. -/
theorem binaries_waiting (tier : List Symbol) (done : List Item) (left : Item) (s : Symbol)
    (items : List Item) :
    binaries tier done (some ⟨left, s, 0⟩) items = rightOperand s items >>= fun r =>
      left.operand (operandOf s) >>= fun a => r.1.operand (operandOf s) >>= fun b =>
        emitRecipe (Recipe.binary s a b) >>= fun v =>
          binaries tier (.value v :: done) none r.2 := by
  cases items with
  | nil => rfl
  | cons item items =>
    simp only [binaries, rightOperand]
    by_cases is : isSymbol .neg item = true
    · simp only [if_pos is, binaries_signs, negate, bind_assoc, pure_bind, Item.operand]
    · simp only [if_neg is, Pending.resolve, bind_assoc, pure_bind]

theorem walks_binaries (tier : List Symbol) : Walks (fun item => ∃ s ∈ tier, symbol? item = some s)
    (fun done items => binaries tier done none items) (binaryTurn tier) where
  nil done := by simp only [binaries]
  cons done item items := by
    unfold binaryTurn
    cases symbol : symbol? item with
    | none => simp only [binaries, symbol, pure_bind]
    | some s =>
      by_cases mem : s ∈ tier
      · cases done with
        | nil =>
          simp only [binaries, symbol, if_pos mem]
          rfl
        | cons left done =>
          simp only [binaries, symbol, if_pos mem, binaries_waiting, bind_assoc, pure_bind]
      · cases done <;> simp only [binaries, symbol, if_neg mem, pure_bind]
  turned done item items := by
    unfold binaryTurn
    cases symbol : symbol? item with
    | none =>
      refine gives_pure (turned_pass ?_ _ _)
      rintro ⟨s, -, is⟩
      cases symbol.symm.trans is
    | some s =>
      by_cases mem : s ∈ tier
      · simp only [if_pos mem]
        cases done with
        | nil => exact gives_fail _
        | cons left done =>
          refine (gives_rightOperand s items).bind fun r sub => (gives_any _).bind fun _ _ =>
            (gives_any _).bind fun _ _ => (gives_any _).bind fun v _ => gives_pure
              (turned_value item v ?_ (fun _ => List.mem_cons_of_mem left) sub)
          rintro ⟨_, -, ⟨⟩⟩
      · simp only [if_neg mem]
        refine gives_pure (turned_pass ?_ _ _)
        rintro ⟨_, mem', is⟩
        cases symbol.symm.trans is
        exact mem mem'

end Tier

namespace Group

variable {block : Resolver}

theorem groupTurn_neutral {item : Item} (role : bracketRole item = .neutral)
    (done items : List Item) :
    groupTurn block done item items = pure (item :: done, items) := by
  unfold groupTurn
  rw [role]
  cases symbol? item <;> rfl

/-- What a resolved group leaves in front of the cursor. -/
theorem gives_resolve (opening : Symbol) (done inside : List Item) :
    (resolve block opening done inside).Gives fun done' =>
      ∀ x ∈ done', x ∈ done ∨ ∃ v, x = .value v := by
  have value : ∀ (v : Variable) (before : List Item), (∀ x ∈ before, x ∈ done) →
      ∀ x ∈ Item.value v :: before, x ∈ done ∨ ∃ v, x = .value v := by
    intro v before sub x mem
    rcases List.mem_cons.1 mem with rfl | mem
    · exact .inr ⟨v, rfl⟩
    · exact .inl (sub x mem)
  unfold resolve
  split
  · exact (gives_any _).bind fun v _ => gives_pure (value v _ fun _ mem => mem)
  · exact (gives_any _).bind fun v _ => gives_pure (value v _ fun _ => List.mem_cons_of_mem _)
  · exact (gives_any _).bind fun _ _ => (gives_any _).bind fun v _ =>
      gives_pure (value v _ fun _ => List.mem_cons_of_mem _)
  · refine (gives_any _).bind fun v _ => ?_
    cases v with
    | some v => exact gives_pure (value v _ fun _ mem => mem)
    | none => exact gives_pure fun x mem => .inl mem

theorem walks_resolveAll :
    Walks (fun item => bracketRole item ≠ .neutral) (resolveAll block) (groupTurn block) where
  nil done := by rw [resolveAll]
  cons done item items := by
    cases role : bracketRole item with
    | neutral =>
      rw [resolveAll_neutral role, groupTurn_neutral role, pure_bind]
    | closing =>
      obtain ⟨s, symbol⟩ := exists_symbol (t := item) (by rw [role]; decide)
      rw [resolveAll_unmatched symbol role]
      simp only [groupTurn, symbol, role]
      rfl
    | opening =>
      obtain ⟨s, symbol⟩ := exists_symbol (t := item) (by rw [role]; decide)
      have opens : s.role = .opening := by
        rwa [bracketRole, symbol] at role
      rw [resolveAll_opening symbol opens]
      simp only [groupTurn, symbol, role]
      cases untilClose 0 items with
      | none => rfl
      | some cut => simp only [bind_assoc, pure_bind]
  turned done item items := by
    cases role : bracketRole item with
    | neutral =>
      rw [groupTurn_neutral role]
      exact gives_pure (turned_pass (not_not.2 role) _ _)
    | closing =>
      obtain ⟨s, symbol⟩ := exists_symbol (t := item) (by rw [role]; decide)
      simp only [groupTurn, symbol, role]
      exact gives_fail _
    | opening =>
      obtain ⟨s, symbol⟩ := exists_symbol (t := item) (by rw [role]; decide)
      simp only [groupTurn, symbol, role]
      cases cut : untilClose 0 items with
      | none => exact gives_fail _
      | some group =>
        obtain ⟨inside, close, rest⟩ := group
        have split := append_of_untilClose cut
        have back : rest.Sublist items := by
          rw [← split]
          exact (List.sublist_cons_self close rest).trans (List.sublist_append_right _ _)
        refine (gives_resolve s done inside).bind fun done' front => gives_pure ⟨?_, ?_, ?_⟩
        · exact back.length_le
        · intro x mem
          rcases front x mem with old | ⟨v, rfl⟩
          · exact .inl old
          · exact .inr (not_not.2 rfl)
        · intro x mem
          rcases List.mem_append.1 mem with mem | mem
          · exact (front x mem).imp_left (List.mem_append_left _)
          · exact .inl (List.mem_append_right _ (List.mem_cons_of_mem _ (back.mem mem)))

/-- The items that no operator takes. -/
def Leftover : Item → Prop
  | .symbol s => s = .comma ∨ s = .semicolon ∨ s = .assign
  | .function _ => True
  | .value _ => False

theorem gives_checkRest (items : List Item) :
    (checkRest items).Gives fun _ => ∀ x ∈ items, ¬ Leftover x := by
  fun_induction checkRest items with
  | case1 => exact gives_pure (List.forall_mem_nil _)
  | case2 | case3 => exact gives_fail _
  | case4 s items other ih => exact ih.mono fun _ rest => List.forall_mem_cons.2 ⟨other, rest⟩
  | case5 v items ih => exact ih.mono fun _ rest => List.forall_mem_cons.2 ⟨id, rest⟩

end Group

/-! ### Ranges -/

namespace Range

/-- Cutting variables and colons into ranges never complains about an item. -/
theorem parse_ne_unexpected (what : String) (l : List (Option Variable)) :
    parse l ≠ .error (.unexpected what) := by
  have known : ∀ v, bound v ≠ .error (.unexpected what) := by
    intro v
    unfold Range.bound
    split <;> rintro ⟨⟩
  have answer : ∀ rs : List Range, (pure rs : Except Malformed _) ≠ .error (.unexpected what) := by
    rintro rs ⟨⟩
  fun_induction parse l with
  | case1 | case2 => exact answer _
  | case4 | case6 => rintro ⟨⟩
  | case3 _ ih => exact bind_ne_error ih fun _ => answer _
  | case5 => exact bind_ne_error (known _) fun _ => answer _
  | case7 _ _ _ _ ih =>
    exact bind_ne_error (known _) fun _ => bind_ne_error (known _) fun _ =>
      bind_ne_error (known _) fun _ => bind_ne_error ih fun _ => answer _
  | case8 =>
    refine bind_ne_error (known _) fun _ => bind_ne_error (known _) fun _ => ?_
    rintro ⟨⟩
  | case9 _ _ _ _ _ ih =>
    exact bind_ne_error (known _) fun _ => bind_ne_error (known _) fun _ =>
      bind_ne_error ih fun _ => answer _
  | case10 _ _ _ _ _ _ _ ih => exact bind_ne_error ih fun _ => answer _

/-- A list of variables and colons has no item that is unexpected. -/
theorem handles_ne_unexpected (l : List (Option Variable)) (d d' : Draft) (what : String) :
    handles (l.map toItem) d ≠ .error (.malformed (.unexpected what)) d' := by
  have start : handles (l.map toItem) d =
      (Build.ofExcept (parse l) >>= fun rs => rs.mapM toVariable) d := by
    rw [handles, bind_eq]
    change (Build.ofExcept ((l.map toItem).mapM (piece d.store)) >>= _) d = _
    rw [mapM_piece]
    rfl
  rw [start]
  cases read : parse l with
  | ok rs =>
    obtain ⟨ws, d₁, ok, -⟩ := exists_toVariables rs d
    intro failed
    cases ok.symm.trans failed
  | error cause =>
    intro failed
    cases failed
    exact parse_ne_unexpected what l read

end Range

/-! ### Sweeps -/

/-- A sweep in the resolution of a list. -/
structure Sweep where
  /-- The items that the sweep takes out of the list. -/
  takes : Item → Prop
  /-- What the sweep makes of a list. -/
  run : List Item → Build (List Item)

namespace Sweep

/-- Groups are resolved. -/
def groups (block : Group.Resolver) : Sweep :=
  ⟨fun item => bracketRole item ≠ .neutral, Group.resolveAll block []⟩

/-- What no operator takes is refused. -/
def check : Sweep := ⟨Group.Leftover, fun items => do
  Group.checkRest items
  return items⟩

/-- Transpositions are resolved. -/
def transpositions : Sweep :=
  ⟨fun item => isSymbol .transpose item = true, Tier.transpositions []⟩

/-- The binary operators of a tier are resolved. -/
def binaries (tier : List Symbol) : Sweep :=
  ⟨fun item => ∃ s ∈ tier, symbol? item = some s, Tier.binaries tier [] none⟩

/-- Unary minus signs are resolved. -/
def negations : Sweep := ⟨fun item => isSymbol .neg item = true, Tier.negations [] 0⟩

/-- All sweeps, in their order. -/
def all (block : Group.Resolver) : List Sweep :=
  [groups block, check, transpositions, binaries [.power, .elementPower],
    binaries [.elementTimes, .elementDivide], binaries [.times, .divideRight, .divideLeft],
    negations, binaries [.plus, .minus]]

/-- Runs sweeps one after the other. -/
def runAll : List Sweep → List Item → Build (List Item)
  | [], items => pure items
  | sweep :: sweeps, items => do runAll sweeps (← sweep.run items)

/-- The sweep takes out what it takes, and puts in variables only, which no sweep takes. -/
structure Exhausts (sweep : Sweep) : Prop where
  /-- What the sweep leaves. -/
  gives : ∀ items, (sweep.run items).Gives fun rest => (∀ x ∈ rest, ¬ sweep.takes x) ∧
    ∀ x ∈ rest, x ∈ items ∨ ∃ v, x = .value v
  /-- No variable is taken. -/
  spares : ∀ v, ¬ sweep.takes (.value v)

theorem exhausts_of_walks {takes : Item → Prop}
    {loop : List Item → List Item → Build (List Item)} {turn : Turn}
    (h : Walks takes loop turn) (spares : ∀ v, ¬ takes (.value v)) :
    Exhausts ⟨takes, loop []⟩ := ⟨fun _ => h.gives (List.forall_mem_nil _), spares⟩

theorem exhausts_all (block : Group.Resolver) : ∀ sweep ∈ all block, sweep.Exhausts := by
  have tier : ∀ tier, (binaries tier).Exhausts := by
    refine fun tier => exhausts_of_walks (Tier.walks_binaries tier) fun v => ?_
    rintro ⟨_, -, ⟨⟩⟩
  have sign : ∀ s : Symbol, ∀ v, ¬ isSymbol s (Item.value v) = true := Item.not_isSymbol_value
  have rest : check.Exhausts := by
    refine ⟨fun items => (Group.gives_checkRest items).bind fun _ clean => ?_, fun _ => id⟩
    exact gives_pure ⟨clean, fun x mem => .inl mem⟩
  unfold all
  simp only [List.forall_mem_cons]
  exact ⟨exhausts_of_walks Group.walks_resolveAll fun v taken => taken rfl, rest,
    exhausts_of_walks Tier.walks_transpositions (sign _), tier _, tier _, tier _,
    exhausts_of_walks Tier.walks_negations (sign _), tier _, List.forall_mem_nil _⟩

/-- **What a sweep takes is gone after it**, whatever sweeps follow. -/
theorem gives_runAll {sweeps : List Sweep} (h : ∀ sweep ∈ sweeps, sweep.Exhausts)
    (items : List Item) : (runAll sweeps items).Gives fun rest =>
      (∀ sweep ∈ sweeps, ∀ x ∈ rest, ¬ sweep.takes x) ∧
        ∀ x ∈ rest, x ∈ items ∨ ∃ v, x = .value v := by
  induction sweeps generalizing items with
  | nil => exact gives_pure ⟨List.forall_mem_nil _, fun x mem => .inl mem⟩
  | cons sweep sweeps ih =>
    obtain ⟨first, others⟩ := List.forall_mem_cons.1 h
    refine (first.gives items).bind fun items' left => (ih others items').mono ?_
    obtain ⟨clean, old⟩ := left
    rintro rest ⟨later, old'⟩
    refine ⟨List.forall_mem_cons.2 ⟨fun x mem => ?_, later⟩, fun x mem => ?_⟩
    · -- what has come in since is a variable
      rcases old' x mem with before | ⟨v, rfl⟩
      · exact clean x before
      · exact first.spares v
    · rcases old' x mem with before | new
      · exact old x before
      · exact .inr new

/-- What no sweep takes is a variable or a colon. -/
theorem exists_toItem {block : Group.Resolver} {item : Item}
    (h : ∀ sweep ∈ all block, ¬ sweep.takes item) : ∃ p, Range.toItem p = item := by
  cases item with
  | value v => exact ⟨some v, rfl⟩
  | function f => exact absurd trivial (h check (by simp [all]))
  | symbol s =>
    suffices s = .colon from ⟨none, congrArg Item.symbol this.symm⟩
    simp only [all, List.forall_mem_cons] at h
    obtain ⟨bracket, leftover, transposed, power, element, product, sign, sum, -⟩ := h
    cases s with
    | colon => rfl
    | parenLeft | parenRight | bracketLeft | bracketRight =>
      exact absurd (by simp [groups, bracketRole, symbol?, Symbol.role]) bracket
    | comma | semicolon | assign => exact absurd (by simp [check, Group.Leftover]) leftover
    | transpose => exact absurd rfl transposed
    | power | elementPower => exact absurd ⟨_, by decide, rfl⟩ power
    | elementTimes | elementDivide => exact absurd ⟨_, by decide, rfl⟩ element
    | times | divideRight | divideLeft => exact absurd ⟨_, by decide, rfl⟩ product
    | neg => exact absurd rfl sign
    | plus | minus => exact absurd ⟨_, by decide, rfl⟩ sum

/-- All sweeps together leave variables and colons. -/
theorem gives_all (block : Group.Resolver) (items : List Item) :
    (runAll (all block) items).Gives fun rest => ∃ l : List (Option Variable),
      rest = l.map Range.toItem := by
  refine (gives_runAll (exhausts_all block) items).mono ?_
  rintro rest ⟨clean, -⟩
  have range : rest ∈ Set.range (List.map Range.toItem) := by
    rw [Set.range_list_map]
    exact fun x mem => exists_toItem fun sweep member => clean sweep member x mem
  obtain ⟨l, eq⟩ := range
  exact ⟨l, eq.symm⟩

/-- The value of a list is what its sweeps leave, read as variables and ranges. -/
theorem block_succ (allowance : Nat) (items : List Item) :
    Group.block (allowance + 1) items =
      runAll (all (Group.block allowance)) items >>= Range.handles := by
  simp only [Group.block, all, runAll, groups, check, transpositions, binaries, negations, Tier.all,
    bind_assoc, pure_bind]

end Sweep

end MatrixCalc
