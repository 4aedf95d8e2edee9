import MatrixCalc.Proofs.Chain.Groups
import MatrixCalc.Proofs.Chain.Tiers

/-!
# Resolving a chain

All sweeps, one after the other, on a chain whose nodes are replaced, taken out and handed out again
while loops run along it.

* `InPlace.sweeps`, `InPlace.block` : the sweeps in place, and the resolution of a chain.
* `InPlace.resolves_block` : **a chain is resolved as its list is**, and its nodes are given up.
* `InPlace.sweeps_exhaust` : **each sweep exhausts what it takes, and no loop runs on**: what a
  sweep takes is gone after it and stays away, and only variables and colons reach the ranges.
-/

namespace MatrixCalc

open Pool Chain InPlace

namespace InPlace

/-! ### Sweeps in place -/

/-- A loop along a chain, with as many turns as the chain has nodes. -/
def loop (step : Chain → Nat → InPlace (Chain × Option Nat)) (chain : Chain) : InPlace Chain :=
  follow step chain.size chain chain.first

/-- The items of a chain. -/
def contents (chain : Chain) : InPlace (List Item) := do
  let desk ← get
  return (chain.ids desk.pool).map desk.item

/-- Refuses what no operator takes. -/
def check (chain : Chain) : InPlace Chain := do
  Group.checkRest (← contents chain)
  return chain

/-- All sweeps, in their order. -/
def sweeps (block' : Chain → InPlace (List Variable)) : List (Chain → InPlace Chain) :=
  [loop (groupStep block'), check, loop transposeStep, loop (binaryStep [.power, .elementPower]),
    loop (binaryStep [.elementTimes, .elementDivide]),
    loop (binaryStep [.times, .divideRight, .divideLeft]), loop negateStep,
    loop (binaryStep [.plus, .minus])]

/-- Runs sweeps one after the other. -/
def runAll : List (Chain → InPlace Chain) → Chain → InPlace Chain
  | [], chain => pure chain
  | sweep :: sweeps, chain => do runAll sweeps (← sweep chain)

/-- Resolves a chain to the variables that stand side by side in it, and gives up its nodes; groups
may nest `allowance - 1` deep. -/
def block : Nat → Chain → InPlace (List Variable)
  | 0, _ => Build.fail .nestedTooDeeply
  | allowance + 1, chain => do
    let chain ← runAll (sweeps (block allowance)) chain
    let vs ← Range.handles (← contents chain)
    modifyGet fun desk => (vs, desk.clear chain)

/-! ### Beside the sweeps of a list -/

/-- A sweep in place does to a chain what a sweep does to the list of the chain. -/
structure Conforms (sweep' : Chain → InPlace Chain) (sweep : List Item → Build (List Item)) :
    Prop where
  /-- The chain holds what the list has become. -/
  mirrors : ∀ {base : Desk} {used : List Nat} {chain : Chain} {items : List Item} {desk : Desk},
    Desk.Lists base used chain items desk → Mirrors desk (sweep' chain) (sweep items)
      fun chain' items' desk' => Desk.Lists base used chain' items' desk'

/-- **A loop ends.** -/
theorem conforms_loop {takes : Item → Prop} {along : List Item → List Item → Build (List Item)}
    {turn : Turn} {step : Chain → Nat → InPlace (Chain × Option Nat)}
    (walks : Walks takes along turn) (like : StepsLike step turn) :
    Conforms (loop step) (along []) :=
  ⟨fun lists => mirrors_follow walks like lists.size_eq.ge lists.at_first⟩

/-- A look at the items of a chain. -/
theorem mirrors_contents_bind {α β : Type} {base desk : Desk} {used : List Nat} {chain : Chain}
    {items : List Item} {f : List Item → InPlace α} {y : Build β} {post : α → β → Desk → Prop}
    (lists : Desk.Lists base used chain items desk) (h : Mirrors desk (f items) y post) :
    Mirrors desk (contents chain >>= f) y post := by
  obtain ⟨ids, holds, -, rfl⟩ := lists
  unfold contents
  rw [bind_assoc]
  refine mirrors_get_bind ?_
  rw [pure_bind, holds.runs.ids_eq]
  exact h

theorem conforms_check : Conforms check Sweep.check.run :=
  ⟨fun lists => mirrors_contents_bind lists (mirrors_lift_bind _ fun _ => mirrors_pure lists)⟩

variable {block' : Chain → InPlace (List Variable)} {block₀ : Group.Resolver}

theorem conforms_sweeps (h : Resolves block' block₀) :
    List.Forall₂ (fun sweep' sweep => Conforms sweep' (Sweep.run sweep)) (sweeps block')
      (Sweep.all block₀) := by
  have tier : ∀ tier, Conforms (loop (binaryStep tier)) (Sweep.binaries tier).run :=
    fun tier => conforms_loop (Tier.walks_binaries tier) (stepsLike_binary tier)
  exact .cons (conforms_loop Group.walks_resolveAll (stepsLike_group h)) <| .cons conforms_check <|
    .cons (conforms_loop Tier.walks_transpositions stepsLike_transpose) <| .cons (tier _) <|
    .cons (tier _) <| .cons (tier _) <|
    .cons (conforms_loop Tier.walks_negations stepsLike_negate) <| .cons (tier _) .nil

theorem conforms_runAll {sweeps' : List (Chain → InPlace Chain)} {sweeps₀ : List Sweep}
    (h : List.Forall₂ (fun sweep' sweep => Conforms sweep' (Sweep.run sweep)) sweeps' sweeps₀) :
    Conforms (runAll sweeps') (Sweep.runAll sweeps₀) := by
  induction h with
  | nil => exact ⟨fun lists => mirrors_pure lists⟩
  | cons first _ ih => exact ⟨fun lists => (first.mirrors lists).bind fun _ _ _ => ih.mirrors⟩

/-- **A chain is resolved as its list is**, however deep its groups nest. -/
theorem resolves_block (allowance : Nat) : Resolves (block allowance) (Group.block allowance) := by
  induction allowance with
  | zero => exact ⟨fun _ => mirrors_fail _⟩
  | succ allowance ih =>
    refine ⟨fun {base used chain items desk} lists => ?_⟩
    rw [Sweep.block_succ]
    have run := (conforms_runAll (conforms_sweeps ih)).mirrors lists
    refine run.bind fun chain' rest desk' left => mirrors_contents_bind left ?_
    exact mirrors_lift_last _ fun vs d => .ok ⟨rfl, left.spent⟩

/-! ### Exhaustion -/

/-- Every list of items can be laid out as a chain. -/
theorem exists_lists (items : List Item) :
    ∃ desk chain, Desk.Lists desk [] chain items desk := by
  obtain ⟨ids, runs, tokens, owns, -⟩ := runs_ofTokens .empty
    (items.map fun item => (symbol? item).elim Desk.plain Token.symbol)
  generalize ofTokens {} _ = r at *
  have nodup := owns.nodup.of_append_left
  have length : ids.length = items.length := by
    simpa using congrArg List.length tokens
  have laid : ids.map (fun id => items.getD (ids.idxOf id) (.symbol .colon)) = items := by
    refine List.ext_getElem (by rw [List.length_map, length]) fun i _ inside => ?_
    rw [List.getElem_map, nodup.idxOf_getElem, List.getD_eq_getElem _ _ inside]
  refine ⟨⟨r.1, fun id => items.getD (ids.idxOf id) (.symbol .colon)⟩, r.2, ids,
    ⟨runs, owns, List.map_inj_left.1 ?_⟩, .refl _ _, laid⟩
  have symbols := congrArg (List.map symbol?) tokens
  have symbols' := congrArg (List.map symbol?) laid
  rw [List.map_map] at symbols symbols'
  refine symbols.trans (Eq.trans ?_ symbols'.symm)
  rw [List.map_map]
  refine List.map_congr_left fun item _ => ?_
  cases item <;> rfl

/-- **Each sweep exhausts what it takes, and no loop runs on.**  A chain holds a list, on which the
sweeps are run one after the other; groups may nest `allowance` deep.

* After any number of sweeps no loop has run out of turns, the outcome in place is that on the list,
  and what one of these sweeps takes is not there any more.
* After all of them there are variables and colons only, and none of them is unexpected where ranges
  are read.
* Thus the list is resolved; in place the result is the same, and no loop in any group runs out of
  turns. -/
theorem sweeps_exhaust (allowance : Nat) {base desk : Desk} {used : List Nat} {chain : Chain}
    {items : List Item} (lists : Desk.Lists base used chain items desk) (d : Draft) :
    (∀ n, (∀ d', (runAll ((sweeps (block allowance)).take n) chain).outcome desk d ≠ .ok none d') ∧
      Alike (fun chain' rest desk' => Desk.Lists base used chain' rest desk' ∧
          ∀ sweep ∈ (Sweep.all (Group.block allowance)).take n, ∀ item ∈ rest, ¬ sweep.takes item)
        ((runAll ((sweeps (block allowance)).take n) chain).outcome desk d)
        (Sweep.runAll ((Sweep.all (Group.block allowance)).take n) items d)) ∧
    (∀ rest d', Sweep.runAll (Sweep.all (Group.block allowance)) items d = .ok rest d' →
      (∀ item ∈ rest, item = .symbol .colon ∨ ∃ v, item = .value v) ∧
      ∀ what d'', Range.handles rest d' ≠ .error (.malformed (.unexpected what)) d'') ∧
    Group.block (allowance + 1) items =
      Sweep.runAll (Sweep.all (Group.block allowance)) items >>= Range.handles ∧
    (∀ d', (block (allowance + 1) chain).outcome desk d ≠ .ok none d') ∧
    Alike (fun vs vs' desk' => vs = vs' ∧ Desk.Spent base used desk')
      ((block (allowance + 1) chain).outcome desk d) (Group.block (allowance + 1) items d) := by
  have whole := (resolves_block (allowance + 1)).mirrors lists
  refine ⟨fun n => ?_, fun rest d' run => ?_, Sweep.block_succ allowance items, whole.ne_none d,
    whole d⟩
  · have some := (conforms_runAll (List.forall₂_take n
      (conforms_sweeps (resolves_block allowance)))).mirrors lists
    have exhaust : ∀ sweep ∈ (Sweep.all (Group.block allowance)).take n, sweep.Exhausts :=
      fun sweep mem => Sweep.exhausts_all _ sweep (List.mem_of_mem_take mem)
    have exhausted := some.gives (Sweep.gives_runAll exhaust items)
    exact ⟨some.ne_none d, exhausted.mono (fun _ _ _ h => ⟨h.1, h.2.1⟩) d⟩
  · obtain ⟨l, rfl⟩ := Sweep.gives_all _ items d rest d' run
    refine ⟨fun item mem => ?_, fun what d'' => Range.handles_ne_unexpected l d' d'' what⟩
    obtain ⟨p, -, rfl⟩ := List.mem_map.1 mem
    cases p with
    | none => exact .inl rfl
    | some v => exact .inr ⟨v, rfl⟩

/-- `-(v) * --v : v`. -/
def signs (v : Variable) : List Item :=
  [.symbol .neg, .symbol .parenLeft, .value v, .symbol .parenRight, .symbol .times, .symbol .neg,
    .symbol .neg, .value v, .symbol .colon, .value v]

/-- Brackets, minus signs behind an operator, and a range. -/
theorem sweeps_exhaust_of_signs : ∃ desk chain rest d' chain' desk',
    Desk.Lists desk [] chain (signs ⟨.integer, ⟨0⟩⟩) desk ∧
    Sweep.runAll (Sweep.all (Group.block 1)) (signs ⟨.integer, ⟨0⟩⟩) { store := {} } =
      .ok rest d' ∧
    (runAll (sweeps (block 1)) chain).outcome desk { store := {} } =
      .ok (some (chain', desk')) d' ∧
    Desk.Lists desk [] chain' rest desk' ∧ rest.length = 3 ∧
    ∀ item ∈ rest, item = .symbol .colon ∨ ∃ v, item = .value v := by
  obtain ⟨desk, chain, lists⟩ := exists_lists (signs ⟨.integer, ⟨0⟩⟩)
  obtain ⟨each, last, -⟩ := sweeps_exhaust 1 lists { store := {} }
  obtain ⟨rest, d', run, length⟩ : ∃ rest d', Sweep.runAll (Sweep.all (Group.block 1))
      (signs ⟨.integer, ⟨0⟩⟩) { store := {} } = .ok rest d' ∧ rest.length = 3 :=
    ⟨_, _, by cbv, by cbv⟩
  obtain ⟨-, alike⟩ := each 8
  change Alike _ ((runAll (sweeps (block 1)) chain).outcome desk _)
    (Sweep.runAll (Sweep.all (Group.block 1)) _ _) at alike
  rw [run] at alike
  generalize outcome : InPlace.outcome _ _ _ = r at alike
  cases alike with
  | ok h =>
    exact ⟨desk, chain, rest, d', _, _, lists, run, outcome, h.1, length, (last rest d' run).1⟩

end InPlace

end MatrixCalc
