import MatrixCalc.Proofs.Expression.Assigned

/-!
# Minus signs in front of powers

A power binds tighter than a unary minus: in `- 2 ^ n` the power is negated.  Only a minus sign
that stands directly in front of a number is no operator but part of the number, so in `-2 ^ n` the
power of the negative number is taken.

* `Expression.Computes.exists_part` : the operations of the parts of a tree.
* `Expression.Assignment.power` : **which operation a power has, and what negates it**.
* `Session.compile_signs` : **what the text of a tree means, however it is laid out**.
-/

namespace MatrixCalc

open Build MatrixCalc.Group

/-! ### Operations of parts -/

/-- The operation applies an operator to two variables. -/
def Operation.Applies (op : Operation) (o : BinaryOperator) (a b : Variable) : Prop :=
  ∃ recipe, ∃ target : Cell recipe.kind,
    Recipe.binary o.symbol a b = .ok recipe ∧ op = recipe.into target

/-- The operation negates a variable. -/
def Operation.Negates (op : Operation) (a : Variable) : Prop :=
  ∃ recipe, ∃ target : Cell recipe.kind, Recipe.unary .neg a = .ok recipe ∧ op = recipe.into target

theorem Operation.Negates.name_mem {op : Operation} {a : Variable} (h : op.Negates a) :
    op.name ∈ ["neg-m", "neg-i", "neg-s"] := by
  obtain ⟨recipe, target, made, rfl⟩ := h
  rcases a with ⟨_ | _ | _ | _, cell⟩ <;> cases made <;> simp [Recipe.into]

/-- What the one variable holds goes into what the other one holds. -/
def Program.Feeds (program : Program) : Variable → Variable → Prop :=
  Relation.ReflTransGen fun a b => ∃ op ∈ program, a ∈ op.term.operands ∧ op.output = b

theorem Program.Feeds.mono {program program' : Program} {a b : Variable}
    (h : Program.Feeds program a b) (sub : ∀ op ∈ program, op ∈ program') :
    Program.Feeds program' a b := by
  refine Relation.ReflTransGen.mono ?_ a b h
  rintro a b ⟨op, mem, reads, writes⟩
  exact ⟨op, sub op mem, reads, writes⟩

namespace Expression

/-- **The operations of the parts of a tree** are among those of the tree, and what they leave goes
into what the tree leaves. -/
theorem Computes.exists_part {x y : Expression Variable} {program : Program} {v : Variable}
    (h : x.Computes program v) (part : Part y x) : ∃ program' w, y.Computes program' w ∧
      (∀ op ∈ program', op ∈ program) ∧ program.Feeds w v := by
  induction part generalizing program v with
  | itself => exact ⟨program, v, h, fun _ mem => mem, .refl⟩
  | operand _ ih =>
    cases h with
    | unary target operand made reads =>
      obtain ⟨program', w, computes, sub, feeds⟩ := ih operand
      refine ⟨program', w, computes, fun op mem => List.mem_append_left _ (sub op mem), ?_⟩
      refine (feeds.mono fun op mem => List.mem_append_left _ mem).tail ?_
      exact ⟨_, List.mem_append_right _ (List.mem_singleton_self _), reads.mem_iff.2 (by simp), rfl⟩
  | left _ ih =>
    cases h with
    | binary target left right made reads =>
      obtain ⟨program', w, computes, sub, feeds⟩ := ih left
      refine ⟨program', w, computes, fun op mem => by simp [sub op mem], ?_⟩
      refine (feeds.mono fun op mem => by simp [mem]).tail ?_
      exact ⟨_, List.mem_append_right _ (List.mem_singleton_self _), reads.mem_iff.2 (by simp), rfl⟩
  | right _ ih =>
    cases h with
    | binary target left right made reads =>
      obtain ⟨program', w, computes, sub, feeds⟩ := ih right
      refine ⟨program', w, computes, fun op mem => by simp [sub op mem], ?_⟩
      refine (feeds.mono fun op mem => by simp [mem]).tail ?_
      exact ⟨_, List.mem_append_right _ (List.mem_singleton_self _), reads.mem_iff.2 (by simp), rfl⟩

/-- The operation of an operator with a leaf on its left. -/
theorem Computes.applies {o : BinaryOperator} {a : Variable} {r : Expression Variable}
    {program : Program} {v : Variable} (h : (Expression.binary o (.leaf a) r).Computes program v) :
    ∃ op ∈ program, ∃ b, op.Applies o a b ∧ op.output = v := by
  cases h with
  | binary target left right made reads =>
    cases left
    exact ⟨_, List.mem_append_right _ (List.mem_singleton_self _), _, ⟨_, target, made, rfl⟩, rfl⟩

/-- The operation of a negation, and what it negates. -/
theorem Computes.negates {x : Expression Variable} {program : Program} {v : Variable}
    (h : (Expression.unary .negate x).Computes program v) :
    ∃ op ∈ program, ∃ program' b, op.Negates b ∧ x.Computes program' b ∧
      ∀ op ∈ program', op ∈ program := by
  cases h with
  | unary target operand made reads =>
    exact ⟨_, List.mem_append_right _ (List.mem_singleton_self _), _, _, ⟨_, target, made, rfl⟩,
      operand, fun op mem => List.mem_append_left _ mem⟩

/-! ### Compiled powers -/

/-- The variable that a program reads for an operand: that of the name, or a new one that holds the
number and that no operation of the program writes. -/
def Operand.HeldBy (s s' : Session) (program : Program) : Operand → Variable → Prop
  | .word name, w => s.scope.find? name = some w
  | .number sign x, w => s'.store.datum w = .ofNumber (x.signed sign) ∧ ¬ s.store.Has w.cell ∧
    w ∉ program.outputs

variable {s s' : Session} {target : String} {e : Expression Operand} {program : Program}

/-- The operations of an assignment write neither numbers nor what was there before, apart from the
last one. -/
theorem Assignment.heldBy (a : Assignment s s' target e program) (wellFormed : s.WellFormed)
    {b : Operand} {w : Variable} (becomes : b.Becomes s.scope s.store a.lowering.start.store w) :
    b.HeldBy s s' program w := by
  cases b with
  | word => exact becomes
  | number sign x =>
    obtain ⟨new, has, holds⟩ := becomes
    have reduces := a.lowering.reduces
    refine ⟨((reduces.extends.trans a.later).datum has).trans holds, new, fun mem => ?_⟩
    rw [a.program_eq, Program.outputs_append] at mem
    rcases List.mem_append.1 mem with mem | mem
    · exact (reduces.outputs.2 w mem).1 has
    · obtain rfl : w = a.copy.output := List.mem_singleton.1 mem
      rw [a.copy_output] at new has
      rcases a.old_or_new with old | ⟨-, -, fresh⟩
      · exact new (wellFormed.bound target _ old)
      · exact fresh (reduces.extends.has has)

/-- The trees have as many operators. -/
theorem Alike.operators_eq {α β : Type} {R : α → β → Prop} {x : Expression α} {y : Expression β}
    (h : Alike R x y) : x.operators = y.operators := by
  induction h with
  | leaf => rfl
  | unary _ ih => rw [operators, operators, ih]
  | binary _ _ ihl ihr => rw [operators, operators, ihl, ihr]

theorem Assignment.length_eq (a : Assignment s s' target e program) :
    program.length = e.operators + 1 := by
  obtain ⟨nodes, computes, perm⟩ := a.lowering.reduces.computes
  rw [a.program_eq, List.length_append, perm.length_eq, computes.length_eq,
    ← a.lowering.becomes.operators_eq]
  rfl

/-- **Which operation a power has, and what negates it.** -/
theorem Assignment.power (a : Assignment s s' target e program) (wellFormed : s.WellFormed)
    {o : BinaryOperator} {b : Operand} {r : Expression Operand} {n : Nat} {signs : Bool}
    {own before after : List (Symbol ⊕ Operand)}
    (h : Occurs (.binary o (.leaf b) r) own n signs e before after) :
    ∃ op ∈ program, ∃ c w, b.HeldBy s s' program c ∧ op.Applies o c w ∧
      (before.getLast? = some (.inl .neg) → ∃ op' ∈ program, ∃ w', op'.Negates w' ∧
        program.Feeds op.output w') := by
  obtain ⟨nodes, computes, perm⟩ := a.lowering.reduces.computes
  have sub : ∀ op ∈ nodes, op ∈ program := by
    intro op mem
    rw [a.program_eq]
    exact List.mem_append_left _ (perm.mem_iff.2 mem)
  by_cases sign : before.getLast? = some (.inl .neg)
  · obtain ⟨x, negation, inside⟩ := h.negated sign
    obtain ⟨_, part, alike⟩ := a.lowering.becomes.exists_part negation
    cases alike with
    | unary operand =>
      obtain ⟨_, part', alike'⟩ := operand.exists_part inside
      cases alike' with
      | binary left _ =>
        cases left with
        | leaf becomes =>
          obtain ⟨_, _, computes₁, sub₁, -⟩ := computes.exists_part part
          obtain ⟨op', mem', program₂, w', negates, computes₂, sub₂⟩ := computes₁.negates
          obtain ⟨_, _, computes₃, sub₃, feeds⟩ := computes₂.exists_part part'
          obtain ⟨op, mem, w, applies, rfl⟩ := computes₃.applies
          refine ⟨op, sub _ (sub₁ _ (sub₂ _ (sub₃ _ mem))), _, w, a.heldBy wellFormed becomes,
            applies, fun _ => ⟨op', sub _ (sub₁ _ mem'), w', negates, feeds.mono fun op mem => ?_⟩⟩
          exact sub _ (sub₁ _ (sub₂ _ mem))
  · obtain ⟨_, part, alike⟩ := a.lowering.becomes.exists_part h.part
    cases alike with
    | binary left _ =>
      cases left with
      | leaf becomes =>
        obtain ⟨_, _, computes₁, sub₁, -⟩ := computes.exists_part part
        obtain ⟨op, mem, w, applies, -⟩ := computes₁.applies
        exact ⟨op, sub _ (sub₁ _ mem), _, w, a.heldBy wellFormed becomes, applies,
          fun found => absurd found sign⟩

end Expression

/-! ### Sessions -/

namespace Session

open Expression

variable {s : Session} {target source : String} {pieces raw : List (Symbol ⊕ Operand)}
  {e : Expression Operand} {depth : Nat} {program : Program}

/-- What a name is bound to holds. -/
def datum? (s : Session) (name : String) : Option Datum := (s.scope.find? name).map s.store.datum

/-- What a name holds after a number has been assigned to it. -/
def stored? (s : Session) (name : String) (x : Datum) : Option Datum :=
  match s.scope.find? name with
  | some w => x.into? w.kind
  | none => some x

theorem exists_compile_of_process (ok : ∃ program, (s.process source).result = .ok program) :
    ∃ program, (s.compile source).result = .ok program := by
  obtain ⟨program, ok⟩ := ok
  exact ⟨program, (process_eq_ok_iff.1 ok).1⟩

/-- What a text does that assigns a tree to a name. -/
structure Assigns (s : Session) (source target : String) (e : Expression Operand) (depth : Nat) :
    Prop where
  /-- It compiles, unless its brackets nest too deeply or the target does not take the value. -/
  compiles_iff : (∃ program, (s.compile source).result = .ok program) ↔
    isReserved target = false ∧ depth < maxNesting ∧ s.Takes target (s.kindOf e)
  /-- There is one operation for each operator of the tree, and a copy. -/
  operations : ∀ program, (s.compile source).result = .ok program →
    program.length = e.operators + 1
  /-- The operation of an operator reads its left operand as it is.  A minus sign in front of the
  operator and its operands negates what its operation goes into. -/
  power : ∀ program, (s.compile source).result = .ok program →
    ∀ (o : BinaryOperator) (a : Operand) (r : Expression Operand)
      (own before after : List (Symbol ⊕ Operand)),
      Occurs (.binary o (.leaf a) r) own 6 false e before after →
      ∃ op ∈ program, ∃ c w, a.HeldBy s (s.compile source).session program c ∧
        op.Applies o c w ∧ (before.getLast? = some (.inl .neg) →
          ∃ op' ∈ program, ∃ w', op'.Negates w' ∧ program.Feeds op.output w')
  /-- Once compiled, it can be performed iff the tree has a value. -/
  succeeds_iff : (∃ program, (s.process source).result = .ok program) ↔
    (∃ program, (s.compile source).result = .ok program) ∧ (s.valueOf e).isSome = true
  /-- The value is stored. -/
  stores : (∃ program, (s.process source).result = .ok program) →
    (s.process source).session.datum? target = (s.valueOf e).bind (s.stored? target)

/-- A text that assigns a tree of numbers to a name does what the tree says. -/
theorem assigns_of_spells (wellFormed : s.WellFormed)
    (text : Spells (.inr (.word target) :: .inl .assign :: pieces) source.toList)
    (h : e.Prints 6 false pieces depth) (plain : .inl .transpose ∉ pieces)
    (numbers : ∀ a, .inr a ∈ pieces → a.IsNumber s.scope) : s.Assigns source target e depth := by
  obtain ⟨compiles, assignment⟩ := compiles_assignment wellFormed text h plain numbers
  have performed : ∀ program, (s.compile source).result = .ok program →
      ((∃ program, (s.process source).result = .ok program) ↔ (s.valueOf e).isSome = true) ∧
      ((∃ program, (s.process source).result = .ok program) →
        (s.process source).session.datum? target = (s.valueOf e).bind (s.stored? target)) := by
    intro program ok
    obtain ⟨a⟩ := assignment program ok
    have succeeds : (∃ program, (s.process source).result = .ok program) ↔
        (program.perform (s.compile source).session.store).2 = none := by
      simp [process_eq_ok_iff, ok]
    rw [succeeds]
    rcases a.perform wellFormed with
      ⟨after, x, ran, value, kind, stored⟩ | ⟨after, cause, ran, none⟩
    · refine ⟨by simp [ran, value], fun _ => ?_⟩
      rw [datum?, process_session ok, perform_scope, perform_store, a.found, value, ran,
        Option.map_some, Option.bind_some, stored?]
      rcases a.old_or_new with old | ⟨free, new, -⟩
      · rw [old]
        exact stored.symm
      · rw [new, ← kind, Datum.into?_self (by rw [kind]; exact a.number)] at stored
        rw [free]
        exact stored.symm
    · simp [ran, none]
  refine ⟨compiles, fun program ok => ?_, fun program ok o a r own before after occurs => ?_,
    ⟨fun ok => ?_, ?_⟩, ?_⟩
  · obtain ⟨assigned⟩ := assignment program ok
    exact assigned.length_eq
  · obtain ⟨assigned⟩ := assignment program ok
    exact assigned.power wellFormed occurs
  · obtain ⟨program, compiled⟩ := exists_compile_of_process ok
    exact ⟨⟨program, compiled⟩, (performed program compiled).1.1 ok⟩
  · rintro ⟨⟨program, compiled⟩, value⟩
    exact (performed program compiled).1.2 value
  · intro ok
    obtain ⟨program, compiled⟩ := exists_compile_of_process ok
    exact (performed program compiled).2 ok

/-- **What the text of a tree means, however it is laid out.**  The text assigns a tree over names
of numbers and unsigned numbers to a name; the minus signs that stand directly in front of numbers
become part of them, and what is left is a tree `e`.  The operation of a power, as of every
operator, reads its left operand as it stands in `e`, so the unsigned number wherever a blank or a
bracket keeps the sign from the number, and a minus sign in front of the power negates what the
power goes into.  Blanks, brackets around single operands, and operands of the same kind and value
in their place do not change what is computed. -/
theorem compile_signs {h : History} (reachable : h.Reachable) {target source : String}
    {raw : List (Symbol ⊕ Operand)} {e₀ : Expression Operand} {depth : Nat}
    (text : Writes (.inr (.word target) :: .inl .assign :: raw) source.toList)
    (printed : e₀.Prints 6 false raw depth) (plain : .inl .transpose ∉ raw)
    (numbers : ∀ a, .inr a ∈ raw → a.IsNumber h.session.scope) :
    ∃ pieces e, Folds raw pieces ∧
      Spells (.inr (.word target) :: .inl .assign :: pieces) source.toList ∧
      e.Prints 6 false pieces depth ∧ h.session.Assigns source target e depth ∧
      ∀ pieces' (source' : String),
        Spells (.inr (.word target) :: .inl .assign :: pieces') source'.toList →
        Respells (Operand.Same h.session) true pieces pieces' →
        ∃ e' depth', e'.Prints 6 false pieces' depth' ∧ Alike (Operand.Same h.session) e e' ∧
          h.session.Assigns source' target e' depth' ∧
          ((∃ program, (h.session.compile source).result = .ok program) →
            (∃ program, (h.session.compile source').result = .ok program) →
            ((∃ program, (h.session.process source').result = .ok program) ↔
              ∃ program, (h.session.process source).result = .ok program) ∧
            ((∃ program, (h.session.process source).result = .ok program) →
              (h.session.process source').session.datum? target =
                (h.session.process source).session.datum? target)) := by
  have wellFormed := reachable.wellFormed
  obtain ⟨pieces, e, folds, spells, printed'⟩ := exists_spells text printed
  have plain' : .inl .transpose ∉ pieces := by
    intro mem
    rcases folds.mem mem with old | ⟨x, number⟩
    · exact plain old
    · cases number
  have numbers' : ∀ a, .inr a ∈ pieces → a.IsNumber h.session.scope := by
    intro a mem
    rcases folds.mem mem with old | ⟨x, number⟩
    · exact numbers a old
    · cases number
      trivial
  have assigns := assigns_of_spells wellFormed spells printed' plain' numbers'
  refine ⟨pieces, e, folds, spells, printed', assigns, fun pieces' source' text' respells => ?_⟩
  obtain ⟨e', depth', printed'', alike, -⟩ := printed'.respell respells
  have assigns' : h.session.Assigns source' target e' depth' := by
    refine assigns_of_spells wellFormed text' printed'' (fun mem => ?_) fun b mem => ?_
    · rcases respells.symbol_mem mem with old | bracket | bracket
      · exact plain' old
      · cases bracket
      · cases bracket
    · obtain ⟨a, old, same⟩ := respells.leaf_mem mem
      exact same.isNumber (numbers' a old)
  have value : h.session.valueOf e = h.session.valueOf e' := alike.interpret_eq (fun _ _ h => h) _ _
  refine ⟨e', depth', printed'', alike, assigns', fun compiles compiles' => ⟨?_, fun ok => ?_⟩⟩
  · rw [assigns.succeeds_iff, assigns'.succeeds_iff, value]
    simp only [compiles, compiles', true_and]
  · have ok' := assigns'.succeeds_iff.2 ⟨compiles', value ▸ (assigns.succeeds_iff.1 ok).2⟩
    rw [assigns.stores ok, assigns'.stores ok', value]

/-- The negative of a power of a literal, with a blank behind the minus sign. -/
theorem compile_signs_of_apart : ∃ (h : History) (raw : List (Symbol ⊕ Operand))
    (e₀ : Expression Operand), h.Reachable ∧
    Writes (.inr (.word "t") :: .inl .assign :: raw) "t = - 2 ^ n".toList ∧
    e₀.Prints 6 false raw 0 ∧ .inl .transpose ∉ raw ∧
    (∀ a, .inr a ∈ raw → a.IsNumber h.session.scope) ∧
    ∃ pieces e, Folds raw pieces ∧
      Spells (.inr (.word "t") :: .inl .assign :: pieces) "t = - 2 ^ n".toList ∧
      e.Prints 6 false pieces 0 ∧ h.session.Assigns "t = - 2 ^ n" "t" e 0 := by
  let s : Session := { store := { integers := #[3] }, scope := ⟨[("n", ⟨.integer, ⟨0⟩⟩)]⟩ }
  let two : Number := ⟨⟨['2'], none, none⟩, ⟨by simp, by simp, by simp, by simp⟩, .inl 2, rfl⟩
  let raw : List (Symbol ⊕ Operand) :=
    [.inl .neg, .inr (.number false two), .inl .power, .inr (.word "n")]
  have defined : @define {} .integer "n" 3 = .ok s := by rfl
  have reachable : History.Reachable { session := s } :=
    .single (@History.Step.define {} .integer "n" 3 s nofun defined)
  have chars : "t = - 2 ^ n".toList = "t".toList ++ ' ' :: (Symbol.assign.spelling.toList ++ ' ' ::
      (Symbol.neg.spelling.toList ++ ' ' :: (two.numeral.chars ++ ' ' ::
        (Symbol.power.spelling.toList ++ ' ' :: ("n".toList ++ []))))) := by decide +kernel
  have ends : ∀ rest, two.numeral.EndsAt (' ' :: rest) := fun rest =>
    ⟨by decide, fun point => absurd point (by decide), by simp [two]⟩
  have text : Writes (.inr (.word "t") :: .inl .assign :: raw) "t = - 2 ^ n".toList := by
    rw [chars]
    refine .word (by decide +kernel) rfl (.blank (by decide) (.symbol _ (.blank (by decide) ?_)))
    refine .symbol _ (.blank (by decide) (.number two (ends _) (.blank (by decide) ?_)))
    exact .symbol _ (.blank (by decide) (.word (by decide +kernel) rfl .nil))
  have printed : Prints 6 false (.unary .negate (.binary .power (.leaf (.number false two))
      (.leaf (.word "n")))) raw 0 :=
    .negate (by decide) (.binary (by decide) (.leaf _) (.leaf _))
  have plain : .inl .transpose ∉ raw := by simp [raw]
  have numbers : ∀ a, .inr a ∈ raw → a.IsNumber s.scope := by
    intro a mem
    have cases : a = .number false two ∨ a = .word "n" := by simpa [raw] using mem
    rcases cases with rfl | rfl
    · trivial
    · exact ⟨⟨.integer, ⟨0⟩⟩, by decide +kernel, rfl⟩
  obtain ⟨pieces, e, folds, spells, prints, assigns, -⟩ :=
    compile_signs reachable text printed plain numbers
  exact ⟨_, raw, _, reachable, text, printed, plain, numbers, pieces, e, folds, spells, prints,
    assigns⟩

/-- In `y = -2^2` the minus sign belongs to the number: the power reads `-2`, and nothing is
negated. -/
theorem negative_base : ∃ (two : Number) (raw own : List (Symbol ⊕ Operand))
    (e r : Expression Operand) (before after : List (Symbol ⊕ Operand)) (program : Program),
    two.value = .inl 2 ∧
    Writes (.inr (.word "y") :: .inl .assign :: raw) "y = -2^2".toList ∧
    e.Prints 6 false raw 0 ∧ before ++ own ++ after = raw ∧
    Occurs (.binary .power (.leaf (.number false two)) r) own 6 false e before after ∧
    before.getLast? = some (.inl .neg) ∧
    (({} : Session).compile "y = -2^2").result = .ok program ∧
    (∀ op ∈ program, ∀ a, ¬ op.Negates a) ∧
    (∃ op ∈ program, ∃ a b, op.Applies .power a b ∧
      (({} : Session).compile "y = -2^2").session.store.datum a = .ofNumber (.inl (-2))) ∧
    (({} : Session).compile "y = - 2^2").result.toOption.map Program.names =
      some ["pow-ss", "neg-s", "copy-ss"] := by
  let two : Number := ⟨⟨['2'], none, none⟩, ⟨by simp, by simp, by simp, by simp⟩, .inl 2, rfl⟩
  let own : List (Symbol ⊕ Operand) :=
    [.inr (.number false two), .inl .power, .inr (.number false two)]
  let folded : List (Symbol ⊕ Operand) :=
    [.inr (.number true two), .inl .power, .inr (.number false two)]
  have front : "y = -2^2".toList = "y".toList ++ ' ' :: (Symbol.assign.spelling.toList ++ ' ' ::
      (Symbol.neg.spelling.toList ++ (two.numeral.chars ++ (Symbol.power.spelling.toList ++
        (two.numeral.chars ++ []))))) := by decide +kernel
  have signed : "y = -2^2".toList = "y".toList ++ ' ' :: (Symbol.assign.spelling.toList ++ ' ' ::
      ('-' :: (two.numeral.chars ++ (Symbol.power.spelling.toList ++
        (two.numeral.chars ++ []))))) := by decide +kernel
  have ends : two.numeral.EndsAt (Symbol.power.spelling.toList ++ (two.numeral.chars ++ [])) :=
    ⟨by decide, fun point => absurd point (by decide), by simp [two]⟩
  have text : Writes (.inr (.word "y") :: .inl .assign :: .inl .neg :: own) "y = -2^2".toList := by
    rw [front]
    refine .word (by decide +kernel) rfl (.blank (by decide) (.symbol _ (.blank (by decide) ?_)))
    exact .symbol _ (.number two ends (.symbol _ (.number two trivial .nil)))
  have spells : Spells (.inr (.word "y") :: .inl .assign :: folded) "y = -2^2".toList := by
    rw [signed]
    refine .word (by decide +kernel) rfl (.blank (by decide) (.symbol _ nofun
      (.blank (by decide) ?_)))
    exact .signed two ends (.symbol _ nofun (.number two trivial .nil))
  let base (sign : Bool) : Expression Operand :=
    .binary .power (.leaf (.number sign two)) (.leaf (.number false two))
  have power : ∀ sign n signs, 2 ≤ n → Prints n signs (base sign)
      [.inr (.number sign two), .inl .power, .inr (.number false two)] 0 :=
    fun sign n signs room => .binary room (.leaf _) (.leaf _)
  have inside : Prints 5 true (base false) own 0 := power false 5 true (by decide)
  have whole : Prints 6 false (base true) folded 0 := power true 6 false (by decide)
  have assigns : ({} : Session).Assigns "y = -2^2" "y" (base true) 0 :=
    assigns_of_spells .empty spells whole (by simp [folded]) (by simp [folded, Operand.IsNumber])
  have names : (({} : Session).compile "y = -2^2").result.toOption.map Program.names =
      some ["pow-ss", "copy-ss"] := by decide +kernel
  cases ok : (({} : Session).compile "y = -2^2").result with
  | error cause =>
    rw [ok] at names
    cases names
  | ok program =>
    rw [ok] at names
    obtain ⟨op, mem, a, b, ⟨holds, -⟩, applies, -⟩ :=
      assigns.power program ok .power (.number true two) _ _ [] [] (.itself whole)
    refine ⟨two, .inl .neg :: own, own, .unary .negate (base false), _, [.inl .neg], [], program,
      rfl, text, .negate (by decide) inside, rfl, .negate (by decide) (.itself inside), rfl, rfl,
      fun op mem a negates => ?_, ⟨op, mem, a, b, applies, holds⟩, by decide +kernel⟩
    have named : op.name ∈ ["pow-ss", "copy-ss"] := by
      rw [← Option.some.inj names]
      exact List.mem_map_of_mem mem
    have disjoint : ∀ name ∈ ["pow-ss", "copy-ss"], name ∉ ["neg-m", "neg-i", "neg-s"] := by decide
    exact disjoint _ named negates.name_mem

end Session

end MatrixCalc
