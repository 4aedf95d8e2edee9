import MatrixCalc.Proofs.Linear
import MatrixCalc.Statement.Group

/-!
# Every part of a compilation is linear

The operators, functions, addresses, ranges and literals of a statement read each of their operands
once, so resolving a list of items takes the variables in the list and gives back those that stand
for what is left of it (`Group.linear_block`).  The axis of `max`, `min` and `sum` is the only
operand that is not read; it is a literal.
-/

namespace MatrixCalc

/-! ### Recipes -/

namespace Recipe

/-- The recipe reads the given variables, each once, and is no sequence. -/
def Uses (r : Recipe) (vs : List Variable) : Prop :=
  r.kind ≠ .sequence ∧ vs.Perm r.term.operands

variable {r : Recipe} {a b : Variable}

theorem uses_elementwise {name : String} {f : ElementFn} {whole : Option IntegerFn}
    (h : elementwise name f whole a = .ok r) : r.Uses [a] := by
  rcases a with ⟨_ | _ | _ | _, cell⟩ <;> cases whole <;> cases h <;> exact ⟨nofun, .refl _⟩

theorem uses_ofMatrix {name : String} {f : MatrixFn} {scalar : Option ElementFn}
    (h : ofMatrix name f scalar a = .ok r) : r.Uses [a] := by
  rcases a with ⟨_ | _ | _ | _, cell⟩ <;> cases scalar <;> cases h <;> exact ⟨nofun, .refl _⟩

theorem uses_ofMeasure {name : String} {f : MatrixMeasure} {scalar : ElementFn}
    {whole : Option IntegerFn} (h : ofMeasure name f scalar whole a = .ok r) : r.Uses [a] := by
  rcases a with ⟨_ | _ | _ | _, cell⟩
  case matrix =>
    cases h
    exact ⟨nofun, .refl _⟩
  all_goals exact @uses_elementwise _ _ name scalar whole h

theorem uses_ofOperator {o : Operator} (h : ofOperator o a b = .ok r) : r.Uses [a, b] := by
  obtain ⟨name, scalar, matrix, integer, broadcast⟩ := o
  rcases a with ⟨_ | _ | _ | _, x⟩ <;> rcases b with ⟨_ | _ | _ | _, y⟩ <;> cases matrix <;>
    cases integer <;> cases broadcast <;> cases h <;>
    first
      | exact ⟨nofun, .refl _⟩
      | exact ⟨nofun, .swap _ _ _⟩

theorem uses_solve (h : solve a b = .ok r) : r.Uses [a, b] := by
  rcases a with ⟨_ | _ | _ | _, x⟩ <;> rcases b with ⟨_ | _ | _ | _, y⟩ <;> cases h
  exact ⟨nofun, .refl _⟩

theorem uses_divide (h : divide a b = .ok r) : r.Uses [a, b] := by
  unfold divide at h
  split at h
  · cases h
    exact ⟨nofun, .swap _ _ _⟩
  · exact uses_ofOperator h

theorem uses_binary {s : Symbol} (h : binary s a b = .ok r) : r.Uses [a, b] := by
  cases s <;> simp only [binary] at h
  case divideRight => exact uses_divide h
  case divideLeft => exact (uses_divide h).imp_right (.trans (.swap _ _ _))
  case plus | minus | times | power | elementTimes | elementDivide | elementPower =>
    exact uses_ofOperator h
  all_goals cases h

theorem uses_unary {s : Symbol} (h : unary s a = .ok r) : r.Uses [a] := by
  cases s
  case neg => exact uses_elementwise h
  case transpose =>
    rcases a with ⟨_ | _ | _ | _, cell⟩ <;> cases h
    exact ⟨nofun, .refl _⟩
  all_goals cases h

theorem uses_ofFunction1 {f : Builtin} (h : ofFunction1 f a = .ok r) : r.Uses [a] := by
  cases f
  case inv | pinv | rref | diag => exact uses_ofMatrix h
  case det | trace | normF | max | min | sum => exact uses_ofMeasure h
  case abs | sin | cos | atan | exp | log | sqrt => exact uses_elementwise h
  case eye => rcases a with ⟨_ | _ | _ | _, cell⟩ <;> cases h <;> exact ⟨nofun, .refl _⟩
  all_goals cases h

theorem uses_ofAddress (m : Cell .matrix) (address : Address) :
    (ofAddress m address).Uses (⟨.matrix, m⟩ :: address.variables) := by
  unfold ofAddress
  split <;> exact ⟨nofun, .refl _⟩

/-- The recipe reads the given variables except for literals. -/
def UsesBut (r : Recipe) (constant : Cell .integer → Option Int64) (vs : List Variable) : Prop :=
  r.kind ≠ .sequence ∧ ∃ axis : List (Cell .integer), (∀ c ∈ axis, (constant c).isSome) ∧
    vs.Perm (r.term.operands ++ axis.map (⟨.integer, ·⟩))

theorem Uses.usesBut {vs : List Variable} (h : r.Uses vs)
    (constant : Cell .integer → Option Int64) : r.UsesBut constant vs :=
  ⟨h.1, [], by simp, by simpa using h.2⟩

variable {constant : Cell .integer → Option Int64}

theorem usesBut_along {name : String} {how : Reduction}
    (h : along constant name how a b = .ok r) : r.UsesBut constant [a, b] := by
  unfold along at h
  split at h
  · rename_i m cell
    split at h
    case h_3 => cases h
    all_goals
      rename_i known
      cases h
      exact ⟨nofun, [cell], by simp [known], .refl _⟩
  · cases h
  · cases h

theorem usesBut_ofFunction2 {f : Builtin} (h : ofFunction2 constant f a b = .ok r) :
    r.UsesBut constant [a, b] := by
  cases f <;> simp only [ofFunction2] at h
  case max | min | sum => exact usesBut_along h
  case atan2 | pow => exact (uses_ofOperator h).usesBut constant
  case solve => exact (uses_solve h).usesBut constant
  case normP | zeros | ones | kron | dot =>
    refine Uses.usesBut ?_ constant
    rcases a with ⟨_ | _ | _ | _, x⟩ <;> rcases b with ⟨_ | _ | _ | _, y⟩ <;> cases h <;>
      exact ⟨nofun, .refl _⟩
  all_goals cases h

theorem usesBut_ofCall {f : Builtin} {args : List Variable}
    (h : ofCall constant f args = .ok r) : r.UsesBut constant args := by
  unfold ofCall at h
  split at h
  · cases h
  · split at h
    · exact (uses_ofFunction1 h).usesBut constant
    · exact usesBut_ofFunction2 h
    · cases h

end Recipe

namespace Build

theorem linear_emit_uses {r : Except Malformed Recipe} {t : List Variable}
    (h : ∀ recipe, r = .ok recipe → recipe.Uses t) : (emitRecipe r).Linear t fun v => [v] :=
  linear_emitRecipe h

/-- A recipe that reads what is taken except for literals. -/
theorem linear_emit_usesBut {r : (Cell .integer → Option Int64) → Except Malformed Recipe}
    {t : List Variable}
    (h : ∀ constant recipe, r constant = .ok recipe → recipe.UsesBut constant t) :
    (get >>= fun d => emitRecipe (r d.constant)).Linear t fun v => [v] := by
  intro base literals d v d' run sound available
  obtain ⟨_, _, start, emitted⟩ := bind_eq_ok_iff.1 run
  obtain ⟨rfl, rfl⟩ := get_eq_ok_iff.1 start
  obtain ⟨recipe, eq, rfl, rfl⟩ := emitRecipe_eq_ok_iff.1 emitted
  obtain ⟨kind, axis, known, operands⟩ := h _ recipe eq
  refine Draft.leads_emitting sound kind operands (fun w mem => ?_) available
  obtain ⟨c, noted, rfl⟩ := List.mem_map.1 mem
  obtain ⟨value, found⟩ := Option.isSome_iff_exists.1 (known c noted)
  obtain ⟨before, behind, split, -⟩ := List.lookup_eq_some_iff.1 found
  exact ⟨sound.constants (c, value) (by rw [split]; simp), nofun⟩

end Build

/-! ### Items and operators -/

/-- The variable that an item is. -/
def Item.value? : Item → Option Variable
  | value v => some v
  | symbol _ | function _ => none

/-- The variables in a list of items. -/
def Item.values (items : List Item) : List Variable := items.filterMap value?

open Build

namespace Item

@[simp] theorem values_nil : values [] = [] := rfl

@[simp] theorem values_value (v : Variable) (items : List Item) :
    values (value v :: items) = v :: values items := rfl

@[simp] theorem values_symbol (s : Symbol) (items : List Item) :
    values (symbol s :: items) = values items := rfl

@[simp] theorem values_function (f : Builtin) (items : List Item) :
    values (function f :: items) = values items := rfl

theorem values_append (first second : List Item) :
    values (first ++ second) = values first ++ values second := List.filterMap_append

theorem values_cons (item : Item) (items : List Item) :
    values (item :: items) = values [item] ++ values items := values_append [item] items

theorem values_reverse (items : List Item) : values items.reverse = (values items).reverse :=
  List.filterMap_reverse

theorem values_of_symbol {item : Item} {s : Symbol} (h : symbol? item = some s) :
    values [item] = [] := by
  cases item with
  | symbol => rfl
  | function | value => cases h

theorem linear_operand (context : String) (item : Item) :
    (item.operand context).Linear (values [item]) fun v => [v] := by
  cases item with
  | value v => exact linear_pure (.refl _)
  | symbol | function => exact linear_get fun _ => linear_fail _

end Item

open Item

namespace Tier

theorem linear_negate (times : Nat) (v : Variable) : (negate times v).Linear [v] fun w => [w] := by
  induction times generalizing v with
  | zero => exact linear_pure (.refl _)
  | succ times ih => exact (linear_emit_uses fun _ h => Recipe.uses_unary h).then ih

theorem linear_transpositions (done items : List Item) :
    (transpositions done items).Linear (values done ++ values items) values := by
  induction items generalizing done with
  | nil =>
    refine linear_pure ?_
    rw [values_reverse, values_nil, List.append_nil]
    exact List.reverse_perm _
  | cons item items ih =>
    simp only [transpositions]
    split
    · rename_i isTranspose
      have symbol : values (item :: items) = values items := by
        rw [values_cons, values_of_symbol (eq_of_beq isTranspose), List.nil_append]
      cases done with
      | nil => exact linear_fail _
      | cons left done =>
        rw [symbol, values_cons left, List.append_assoc]
        exact (linear_operand _ left).bind fun a =>
          (linear_emit_uses fun _ h => Recipe.uses_unary h).bind fun v => ih (.value v :: done)
    · refine (ih (item :: done)).perm ?_ fun _ => .refl _
      rw [values_cons item items, values_cons item done, ← List.append_assoc]
      exact List.perm_append_comm.append_right _

theorem linear_resolve (p : Pending) (right : Item) :
    (p.resolve right).Linear (values [p.left] ++ values [right]) fun v => [v] := by
  unfold Pending.resolve
  split
  · refine (linear_operand _ p.left).bind fun a => ?_
    refine ((linear_operand _ right).bind (k := [a]) fun b => ?_).perm List.perm_append_comm
      fun _ => .refl _
    exact (linear_emit_uses fun _ h => Recipe.uses_binary h).perm (.swap _ _ _) fun _ => .refl _
  · refine ((linear_operand _ right).bind fun b => (linear_negate _ b).bind
      (k := values [p.left]) fun b => ?_).perm List.perm_append_comm fun _ => .refl _
    refine ((linear_operand _ p.left).bind (k := [b]) fun a => ?_).perm List.perm_append_comm
      fun _ => .refl _
    exact linear_emit_uses fun _ h => Recipe.uses_binary h

/-- The left operand of an operator that waits. -/
def pendingValues : Option Pending → List Variable
  | some p => values [p.left]
  | none => []

theorem linear_binaries (tier : List Symbol) (done : List Item) (p : Option Pending)
    (items : List Item) : (binaries tier done p items).Linear
      (values done ++ pendingValues p ++ values items) values := by
  -- the waiting left operand counts as held until its operator is resolved
  fun_induction binaries tier done p items with
  | case1 done =>
    refine linear_pure ?_
    rw [values_reverse]
    simp [pendingValues]
  | case2 | case7 | case8 => exact linear_fail _
  | case3 item items _ _ _ ih =>
    rwa [values_cons item items, values_nil, pendingValues, List.append_nil, List.nil_append]
      at *
  | case4 item items _ left before symbol _ ih =>
    refine ih.of_count fun x => ?_
    rw [values_cons item, values_of_symbol symbol, values_cons left]
    simp only [pendingValues, List.count_append, List.count_nil]
    omega
  | case5 item items _ left before _ _ ih =>
    refine ih.of_count fun x => ?_
    rw [values_cons item items, values_cons item (left :: before)]
    simp only [List.count_append]
    omega
  | case6 item items done _ ih =>
    refine ih.of_count fun x => ?_
    rw [values_cons item items, values_cons item done]
    simp only [List.count_append]
    omega
  | case9 done p item items isNeg ih =>
    rw [values_cons item, values_of_symbol (eq_of_beq isNeg), List.nil_append]
    exact ih
  | case10 done p item items _ ih =>
    refine ((linear_resolve p item).bind (k := values done ++ values items) fun v => ?_).of_count
      fun x => ?_
    · refine (ih v).of_count fun x => ?_
      rw [values_cons]
      simp only [pendingValues, values_value, values_nil, List.count_append, List.count_nil]
      omega
    · rw [values_cons item]
      simp only [pendingValues, List.count_append]
      omega

theorem linear_negations (done : List Item) (signs : Nat) (items : List Item) :
    (negations done signs items).Linear (values done ++ values items) values := by
  fun_induction negations done signs items with
  | case1 done =>
    refine linear_pure ?_
    rw [values_reverse]
    simp
  | case2 => exact linear_fail _
  | case3 done signs item items isNeg ih =>
    rw [values_cons item, values_of_symbol (eq_of_beq isNeg), List.nil_append]
    exact ih
  | case4 done item items _ ih =>
    refine ih.of_count fun x => ?_
    rw [values_cons item items, values_cons item done]
    simp only [List.count_append]
    omega
  | case5 done signs item items _ _ ih =>
    refine ((linear_operand _ item).bind (k := values done ++ values items) fun v =>
      (linear_negate signs v).bind fun w => ?_).of_count fun x => ?_
    · exact ih w
    · rw [values_cons item]
      simp only [List.count_append]
      omega

theorem linear_all (items : List Item) : (all items).Linear (values items) values := by
  have binary : ∀ tier items, (binaries tier [] none items).Linear (values items) values :=
    fun tier items => linear_binaries tier [] none items
  exact (linear_transpositions [] items).then fun _ => (binary _ _).then fun _ =>
    (binary _ _).then fun _ => (binary _ _).then fun _ => (linear_negations [] 0 _).then fun _ =>
      binary _ _

end Tier

/-! ### Ranges and side-by-side lists -/

namespace Range

/-- The variables that a range stands for. -/
def held : Range → List Variable
  | value v => [v]
  | sequence s => s.cells.map (⟨.integer, ·⟩)

theorem eq_of_bound {v : Variable} {cell : Cell .integer} (h : bound v = .ok cell) :
    v = ⟨.integer, cell⟩ := by
  rcases v with ⟨_ | _ | _ | _, other⟩ <;> cases h
  rfl

/-- Nothing is lost when variables and colons are cut into ranges. -/
theorem held_of_parse {pieces : List (Option Variable)} {ranges : List Range}
    (h : parse pieces = .ok ranges) : ranges.flatMap held = pieces.filterMap id := by
  fun_induction parse pieces generalizing ranges with
  | case1 | case2 =>
    cases h
    rfl
  | case3 rest ih =>
    simp only [except_bind_eq_ok_iff, except_pure_eq_ok_iff] at h
    obtain ⟨more, parsed, rfl⟩ := h
    rw [List.flatMap_cons]
    exact ih parsed
  | case4 | case6 => cases h
  | case5 =>
    simp only [except_bind_eq_ok_iff, except_pure_eq_ok_iff] at h
    obtain ⟨start, first, rfl⟩ := h
    obtain rfl := eq_of_bound first
    rfl
  | case7 _ _ _ rest ih =>
    simp only [except_bind_eq_ok_iff, except_pure_eq_ok_iff] at h
    obtain ⟨start, first, step, second, stop, third, more, parsed, rfl⟩ := h
    obtain rfl := eq_of_bound first
    obtain rfl := eq_of_bound second
    obtain rfl := eq_of_bound third
    rw [List.flatMap_cons, ih parsed]
    rfl
  | case8 =>
    simp only [except_bind_eq_ok_iff] at h
    obtain ⟨_, -, _, -, failed⟩ := h
    cases failed
  | case9 _ _ rest _ _ ih =>
    simp only [except_bind_eq_ok_iff, except_pure_eq_ok_iff] at h
    obtain ⟨start, first, stop, second, more, parsed, rfl⟩ := h
    obtain rfl := eq_of_bound first
    obtain rfl := eq_of_bound second
    rw [List.flatMap_cons, ih parsed]
    rfl
  | case10 v rest _ _ _ _ _ ih =>
    simp only [except_bind_eq_ok_iff, except_pure_eq_ok_iff] at h
    obtain ⟨more, parsed, rfl⟩ := h
    rw [List.flatMap_cons, ih parsed]
    rfl

theorem values_of_pieces {s : Store} {items : List Item} {pieces : List (Option Variable)}
    (h : items.mapM (piece s) = .ok pieces) : pieces.filterMap id = values items := by
  induction items generalizing pieces with
  | nil =>
    cases h
    rfl
  | cons item items ih =>
    rw [List.mapM_cons] at h
    simp only [except_bind_eq_ok_iff, except_pure_eq_ok_iff] at h
    obtain ⟨first, read, more, rest, rfl⟩ := h
    rw [values_cons, ← ih rest]
    cases item with
    | value v =>
      cases read
      rfl
    | function => cases read
    | symbol s =>
      cases s <;> cases read
      rfl

theorem linear_toVariable (r : Range) : r.toVariable.Linear r.held fun v => [v] := by
  cases r with
  | value v => exact linear_pure (.refl _)
  | sequence s => exact linear_sequenceVariable s

theorem linear_handles (items : List Item) : (handles items).Linear (values items) id := by
  refine linear_get fun d => ?_
  refine Linear.then (g := fun pieces => pieces.filterMap id)
    (linear_ofExcept fun pieces h => by rw [values_of_pieces h]) fun pieces => ?_
  refine Linear.then (g := fun ranges => ranges.flatMap held)
    (linear_ofExcept fun ranges h => by rw [held_of_parse h]) fun ranges => ?_
  refine (linear_mapM ranges fun r _ => linear_toVariable r).perm (.refl _) fun vs => ?_
  rw [List.flatMap_singleton']
  exact .refl _

theorem cells_ofParts (found : List IndexSequence) :
    (ofParts found).cells = found.flatMap IndexSequence.cells := by
  unfold ofParts
  split
  · rw [List.flatMap_singleton]
  · rw [IndexSequence.cells, IndexSequence.cellsOfParts_eq]

theorem cells_of_flush (run : List (Cell .integer)) (found : List IndexSequence) :
    (flush run found).flatMap IndexSequence.cells = run ++ found.flatMap IndexSequence.cells := by
  unfold flush
  cases run with
  | nil => rfl
  | cons => simp [IndexSequence.cells]

/-- The integers that variables reach. -/
def integersOf (s : Store) (vs : List Variable) : List Variable :=
  (vs.flatMap s.reach).filter fun v => v.kind ≠ .sequence

/-- Side by side, variables become the integers that they reach. -/
theorem cells_of_parts {s : Store} {run : List (Cell .integer)} {vs : List Variable}
    {found : List IndexSequence} (h : parts s run vs = .ok found) :
    (found.flatMap IndexSequence.cells).map (⟨.integer, ·⟩) =
      run.map (⟨.integer, ·⟩) ++ integersOf s vs := by
  induction vs generalizing run found with
  | nil =>
    cases h
    rw [cells_of_flush, List.map_append]
    rfl
  | cons v vs ih =>
    have split : integersOf s (v :: vs) = integersOf s [v] ++ integersOf s vs := by
      simp [integersOf]
    rw [split]
    rcases v with ⟨_ | _ | _ | _, cell⟩
    case integer =>
      rw [ih h, List.map_append, List.append_assoc]
      rfl
    case sequence =>
      -- the content is listed here, not the cell
      simp only [parts, except_bind_eq_ok_iff, except_pure_eq_ok_iff] at h
      obtain ⟨more, rest, rfl⟩ := h
      have own : integersOf s [⟨.sequence, cell⟩] = (s.read cell).cells.map (⟨.integer, ·⟩) := by
        simp [integersOf, Store.reach, Kind.cellsOf]
      rw [cells_of_flush, List.flatMap_cons, List.map_append, List.map_append, ih rest, own]
      rfl
    all_goals cases h

theorem linear_join (vs : List Variable) : (join vs).Linear vs Option.toList := by
  match vs with
  | [] => exact linear_pure (.refl _)
  | [v] => exact linear_pure (.refl _)
  | first :: second :: rest =>
    generalize several : first :: second :: rest = items
    intro base literals d o d' run sound available
    rw [← several] at run
    simp only [join, bind_eq_ok_iff, ofExcept_eq_ok_iff, get_eq_ok_iff, pure_eq_ok_iff,
      sequenceVariable_eq] at run
    obtain ⟨start, _, ⟨now, rfl⟩, found, _, ⟨listed, rfl⟩, v, _, made, rfl, rfl⟩ := run
    rw [several, now] at listed
    cases made
    have cells : (ofParts found).cells.map (⟨.integer, ·⟩) = integersOf d.store items := by
      rw [cells_ofParts, cells_of_parts listed]
      rfl
    have leads := Draft.leads_sequence sound (ofParts found) fun w mem => by
      rw [cells] at mem
      obtain ⟨reached, kind⟩ := List.mem_filter.1 mem
      obtain ⟨v, listed, reached⟩ := List.mem_flatMap.1 reached
      intro u self
      rw [Store.reach_of_kind (by simpa using kind)] at self
      obtain rfl := List.mem_singleton.1 self
      exact available v listed u reached
    refine ⟨leads.grows, leads.sound, leads.available, fun final ext x new kind => ?_⟩
    have larger := leads.grows.extends.trans ext
    have before : items.flatMap final.reach = items.flatMap d.store.reach :=
      List.flatMap_congr fun v mem => larger.reach (available v mem).has
    have after : ((ofParts found).cells.map fun c => (⟨.integer, c⟩ : Variable)).flatMap
        final.reach = integersOf d.store items := by
      rw [Store.flatMap_reach_of_kind, cells]
      intro v mem
      obtain ⟨c, -, rfl⟩ := List.mem_map.1 mem
      nofun
    have same : (integersOf d.store items).count x = (items.flatMap d.store.reach).count x :=
      List.count_filter (p := fun v : Variable => decide (v.kind ≠ .sequence)) (by simpa using kind)
    -- a sequence is held through its integers, and only those are counted
    have law := leads.balanced ext x new kind
    rw [after, same] at law
    rw [before]
    exact law

end Range

/-! ### Groups -/

theorem bracketRole_of_untilClose {depth : Nat} {items inside rest : List Item} {close : Item}
    (h : untilClose depth items = some (inside, close, rest)) : bracketRole close = .closing := by
  induction items generalizing depth inside with
  | nil => cases h
  | cons item items ih =>
    simp only [untilClose] at h
    cases role : bracketRole item with
    | opening | neutral =>
      simp only [role, Option.map_eq_some_iff, Prod.exists, Prod.mk.injEq] at h
      obtain ⟨_, _, _, found, rfl, rfl, rfl⟩ := h
      exact ih found
    | closing =>
      cases depth with
      | zero =>
        simp only [role] at h
        cases h
        exact role
      | succ depth =>
        simp only [role, Option.map_eq_some_iff, Prod.exists, Prod.mk.injEq] at h
        obtain ⟨_, _, _, found, rfl, rfl, rfl⟩ := h
        exact ih found

theorem values_of_role {item : Item} (h : bracketRole item ≠ .neutral) : values [item] = [] := by
  cases item with
  | symbol => rfl
  | function | value => exact absurd rfl h

/-- Cutting out a group loses no variable. -/
theorem values_of_untilClose {depth : Nat} {items inside rest : List Item} {close : Item}
    (h : untilClose depth items = some (inside, close, rest)) :
    values items = values inside ++ values rest := by
  have closing : values [close] = [] := values_of_role (by
    rw [bracketRole_of_untilClose h]
    nofun)
  rw [← append_of_untilClose h, values_append, values_cons close, closing, List.nil_append]

theorem flatMap_consToFirst (item : Item) (pieces : List (List Item)) :
    (consToFirst item pieces).flatMap values = values [item] ++ pieces.flatMap values := by
  cases pieces with
  | nil => rfl
  | cons piece pieces =>
    rw [consToFirst, List.flatMap_cons, values_cons, List.append_assoc]
    rfl

/-- Splitting at separators loses no variable. -/
theorem values_of_splitTop (separator : Symbol) (depth : Nat) (items : List Item) :
    (splitTop separator depth items).flatMap values = values items := by
  induction items generalizing depth with
  | nil => rfl
  | cons item items ih =>
    rw [values_cons item]
    simp only [splitTop]
    split
    · rw [flatMap_consToFirst, ih]
    · rw [flatMap_consToFirst, ih]
    · split
      · rename_i separates
        have symbol := eq_of_beq (Bool.and_eq_true_iff.1 separates).1
        rw [List.flatMap_cons, ih, values_of_symbol symbol]
        rfl
      · rw [flatMap_consToFirst, ih]

namespace Group

/-- A group without variables gives none. -/
theorem linear_values_of_isEmpty {α : Type} {m : Build α} {inside : List Item}
    {given : α → List Variable} (h : inside.isEmpty = true) (linear : m.Linear [] given) :
    m.Linear (values inside) given := by
  rw [List.isEmpty_iff.1 h]
  exact linear

variable {block : Resolver} (h : ∀ items, (block items).Linear (values items) id)
include h

theorem linear_single (items : List Item) :
    (single block items).Linear (values items) Option.toList :=
  (h items).then Range.linear_join

theorem linear_argument (f : Builtin) (items : List Item) :
    (argument block f items).Linear (values items) fun v => [v] := by
  refine (linear_require _ _).bind (k := values items) fun _ => ?_
  refine (linear_single h items).then fun o => linear_ofOption fun v found => ?_
  rw [found]
  exact .refl _

theorem linear_arguments (f : Builtin) (inside : List Item) :
    (arguments block f inside).Linear (values inside) id := by
  unfold arguments
  split
  · rename_i empty
    exact linear_values_of_isEmpty empty (linear_pure (.refl _))
  · rw [← values_of_splitTop .comma 0]
    refine (linear_mapM _ fun piece _ => linear_argument h f piece).perm (.refl _) fun vs => ?_
    rw [List.flatMap_singleton']
    exact .refl _

theorem linear_call (f : Builtin) (inside : List Item) :
    (call block f inside).Linear (values inside) fun v => [v] :=
  (linear_arguments h f inside).then fun args =>
    linear_emit_usesBut (r := fun constant => Recipe.ofCall constant f args) fun _ _ made =>
      Recipe.usesBut_ofCall made

theorem linear_index (items : List Item) :
    (index block items).Linear (values items) fun i => [i.toVariable] := by
  refine (linear_single h items).then fun o => ?_
  refine Linear.then (g := fun v => [v]) (linear_ofOption fun v found => ?_) fun v =>
    linear_ofExcept fun i made => ?_
  · rw [found]
    exact .refl _
  · rcases v with ⟨_ | _ | _ | _, cell⟩ <;> cases made <;> exact .refl _

theorem linear_address (inside : List Item) :
    (address block inside).Linear (values inside) Address.variables := by
  refine (linear_require _ _).bind (k := values inside) fun _ => ?_
  rw [← values_of_splitTop .comma 0, List.nil_append]
  refine (linear_mapM _ fun piece _ => linear_index h piece).then fun is =>
    linear_ofExcept fun address made => ?_
  unfold Address.ofIndices at made
  split at made <;> cases made <;> exact .refl _

theorem linear_element (items : List Item) :
    (element block items).Linear (values items) id :=
  (linear_require _ _).bind (k := values items) fun _ => h items

theorem linear_literalRow (items : List Item) :
    (literalRow block items).Linear (values items) id := by
  refine (linear_require _ _).bind (k := values items) fun _ => ?_
  rw [← values_of_splitTop .comma 0, List.nil_append]
  refine (linear_mapM _ fun piece _ => linear_element h piece).then fun elements =>
    linear_get fun d => ?_
  refine Linear.bind (t := []) (g := fun _ => []) (linear_ofExcept fun _ _ => .refl _)
    fun _ => linear_pure ?_
  rw [List.nil_append, List.map_id]
  exact .refl _

theorem linear_literalRows (inside : List Item) :
    (literalRows block inside).Linear (values inside) List.flatten := by
  unfold literalRows
  split
  · rename_i empty
    exact linear_values_of_isEmpty empty (linear_pure (.refl _))
  · rw [← values_of_splitTop .semicolon 0]
    refine (linear_mapM _ fun piece _ => linear_literalRow h piece).perm (.refl _) fun rows => ?_
    rw [List.flatMap_id]

theorem linear_literal (inside : List Item) :
    (literal block inside).Linear (values inside) fun v => [v] := by
  refine (linear_literalRows h inside).then fun rows => ?_
  intro base literals d v d' run sound available
  simp only [bind_eq_ok_iff, place_eq_ok_iff, get_eq_ok_iff, ofExcept_eq_ok_iff, emit_eq] at run
  obtain ⟨_, _, ⟨recipe, made, rfl, rfl⟩, _, _, ⟨-, rfl⟩, _, _, ⟨-, rfl⟩, emitted⟩ := run
  cases made
  cases emitted
  refine Draft.leads_emitting sound (r := ⟨"matrixConstructor", .literal rows⟩) (a := [])
    nofun ?_ (by simp) available
  rw [List.append_nil]
  exact .refl _

theorem linear_resolve (opening : Symbol) (done inside : List Item) :
    (resolve block opening done inside).Linear (values done ++ values inside) values := by
  have answer : ∀ (v : Variable) (done : List Item),
      (pure (.value v :: done) : Build (List Item)).Linear ([v] ++ values done) values :=
    fun _ _ => linear_pure (.refl _)
  unfold resolve
  split
  · exact ((linear_literal h inside).bind fun v => answer v _).perm List.perm_append_comm
      fun _ => .refl _
  · exact ((linear_call h _ inside).bind fun v => answer v _).perm List.perm_append_comm
      fun _ => .refl _
  · rename_i m done _
    rw [values_value]
    refine Linear.perm ((linear_address h inside).bind (k := ⟨.matrix, m⟩ :: values done)
      fun address => ?_) List.perm_append_comm fun _ => .refl _
    refine Linear.of_count ((linear_emit_uses (t := ⟨.matrix, m⟩ :: address.variables)
      fun recipe made => ?_).bind (k := values done) fun v => answer v done) fun x => ?_
    · cases made
      exact Recipe.uses_ofAddress m address
    · simp only [List.count_append, List.count_cons]
      omega
  · refine Linear.perm ((linear_single h inside).bind (k := values done) fun o => ?_)
      List.perm_append_comm fun _ => .refl _
    cases o with
    | some v => exact answer v done
    | none => exact linear_pure (.refl _)

theorem linear_resolveAll (done items : List Item) :
    (resolveAll block done items).Linear (values done ++ values items) values := by
  fun_induction resolveAll block done items with
  | case1 done =>
    refine linear_pure ?_
    rw [values_reverse]
    simp
  | case2 | case4 => exact linear_fail _
  | case3 done item items opening role symbol inside close rest cut ih =>
    rw [values_cons item, values_of_symbol symbol, List.nil_append, values_of_untilClose cut,
      ← List.append_assoc]
    exact (linear_resolve h opening done inside).bind ih
  | case5 done item items _ _ ih =>
    refine ih.of_count fun x => ?_
    rw [values_cons item items, values_cons item done]
    simp only [List.count_append]
    omega

end Group

theorem Group.linear_checkRest (items : List Item) :
    (checkRest items).Linear (values items) fun _ => values items := by
  fun_induction checkRest items with
  | case1 => exact linear_pure (.refl _)
  | case2 | case3 => exact linear_fail _
  | case4 _ _ _ ih => exact ih
  | case5 v items ih =>
    have framed := ih.bind (k := [v]) (f := pure) fun u => linear_pure (.refl _)
    rw [bind_pure] at framed
    have last : ([v] ++ values items).Perm (values items ++ [v]) := List.perm_append_comm
    exact framed.perm last fun _ => last

/-- **Resolving a list is linear**: the variables that are left stand for those in the list. -/
theorem Group.linear_block (allowance : Nat) (items : List Item) :
    (block allowance items).Linear (values items) id := by
  induction allowance generalizing items with
  | zero => exact linear_fail _
  | succ allowance ih =>
    exact (linear_resolveAll ih [] items).then fun rest => (linear_checkRest rest).then fun _ =>
      (Tier.linear_all rest).then Range.linear_handles

end MatrixCalc
