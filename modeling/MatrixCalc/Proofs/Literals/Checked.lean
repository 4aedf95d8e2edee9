import MatrixCalc.Proofs.Compilation
import MatrixCalc.Proofs.Conservation

/-!
# The blocks of compiled literals

A matrix literal is refused if one of its blocks is a range without an end.  The check looks at what
the blocks hold when the literal is compiled, so a compiled literal has closed blocks, and each of
them is new or has a name.

* `Build.Keeps` : a part of the compilation emits checked literals only.
* `Group.keeps_literal` : the part that checks.
* `Statement.checked_of_compile` : **compiled literals are checked**.
-/

namespace MatrixCalc

/-- The blocks of a bracket literal; other terms have none. -/
def Term.blocks : {kind : Kind} → Term kind → List Variable
  | _, .literal rows => rows.flatten
  | _, _ => []

namespace Group

/-- Whether a variable needs a size is a matter of what it holds. -/
theorem needsSize_congr {s s' : Store} {v : Variable} (h : s'.read v.cell = s.read v.cell) :
    needsSize s' v = needsSize s v := by
  rcases v with ⟨_ | _ | _ | _, cell⟩
  case sequence =>
    dsimp only at h
    rw [needsSize, needsSize, h]
  all_goals rfl

theorem kind_of_needsSize {s : Store} {v : Variable} (h : needsSize s v = true) :
    v.kind = .sequence := by
  rcases v with ⟨_ | _ | _ | _, cell⟩
  case sequence => rfl
  all_goals cases h

end Group

/-! ### Recipes that are no literals -/

namespace Recipe

/-- The recipe is that of no literal. -/
def Plain (r : Recipe) : Prop := r.term.blocks = []

variable {r : Recipe} {a b : Variable}

theorem plain_elementwise {name : String} {f : ElementFn} {whole : Option IntegerFn}
    (h : elementwise name f whole a = .ok r) : r.Plain := by
  rcases a with ⟨_ | _ | _ | _, cell⟩ <;> cases whole <;> cases h <;> rfl

theorem plain_ofMatrix {name : String} {f : MatrixFn} {scalar : Option ElementFn}
    (h : ofMatrix name f scalar a = .ok r) : r.Plain := by
  rcases a with ⟨_ | _ | _ | _, cell⟩ <;> cases scalar <;> cases h <;> rfl

theorem plain_ofMeasure {name : String} {f : MatrixMeasure} {scalar : ElementFn}
    {whole : Option IntegerFn} (h : ofMeasure name f scalar whole a = .ok r) : r.Plain := by
  rcases a with ⟨_ | _ | _ | _, cell⟩
  case matrix =>
    cases h
    rfl
  all_goals exact @plain_elementwise r ⟨_, cell⟩ name scalar whole h

theorem plain_ofOperator {o : Operator} (h : ofOperator o a b = .ok r) : r.Plain := by
  obtain ⟨name, scalar, matrix, integer, broadcast⟩ := o
  rcases a with ⟨_ | _ | _ | _, x⟩ <;> rcases b with ⟨_ | _ | _ | _, y⟩ <;> cases matrix <;>
    cases integer <;> cases broadcast <;> cases h <;> rfl

theorem plain_solve (h : solve a b = .ok r) : r.Plain := by
  rcases a with ⟨_ | _ | _ | _, x⟩ <;> rcases b with ⟨_ | _ | _ | _, y⟩ <;> cases h
  rfl

theorem plain_divide (h : divide a b = .ok r) : r.Plain := by
  unfold divide at h
  split at h
  · cases h
    rfl
  · exact plain_ofOperator h

theorem plain_binary {s : Symbol} (h : binary s a b = .ok r) : r.Plain := by
  cases s <;> simp only [binary] at h
  case divideRight | divideLeft => exact plain_divide h
  case plus | minus | times | power | elementTimes | elementDivide | elementPower =>
    exact plain_ofOperator h
  all_goals cases h

theorem plain_unary {s : Symbol} (h : unary s a = .ok r) : r.Plain := by
  cases s
  case neg => exact plain_elementwise h
  case transpose =>
    rcases a with ⟨_ | _ | _ | _, cell⟩ <;> cases h
    rfl
  all_goals cases h

theorem plain_ofFunction1 {f : Builtin} (h : ofFunction1 f a = .ok r) : r.Plain := by
  cases f
  case inv | pinv | rref | diag => exact plain_ofMatrix h
  case det | trace | normF | max | min | sum => exact plain_ofMeasure h
  case abs | sin | cos | atan | exp | log | sqrt => exact plain_elementwise h
  case eye => rcases a with ⟨_ | _ | _ | _, cell⟩ <;> cases h <;> rfl
  all_goals cases h

variable {constant : Cell .integer → Option Int64}

theorem plain_along {name : String} {how : Reduction} (h : along constant name how a b = .ok r) :
    r.Plain := by
  unfold along at h
  split at h
  · split at h <;> cases h <;> rfl
  · cases h
  · cases h

theorem plain_ofFunction2 {f : Builtin} (h : ofFunction2 constant f a b = .ok r) : r.Plain := by
  cases f <;> simp only [ofFunction2] at h
  case max | min | sum => exact plain_along h
  case atan2 | pow => exact plain_ofOperator h
  case solve => exact plain_solve h
  case normP | zeros | ones | kron | dot =>
    rcases a with ⟨_ | _ | _ | _, x⟩ <;> rcases b with ⟨_ | _ | _ | _, y⟩ <;> cases h <;> rfl
  all_goals cases h

theorem plain_ofCall {f : Builtin} {args : List Variable} (h : ofCall constant f args = .ok r) :
    r.Plain := by
  unfold ofCall at h
  split at h
  · cases h
  · split at h
    · exact plain_ofFunction1 h
    · exact plain_ofFunction2 h
    · cases h

theorem plain_ofAddress (m : Cell .matrix) (address : Address) : (ofAddress m address).Plain := by
  unfold ofAddress
  split <;> rfl

end Recipe

theorem Operation.blocks_of_copy {v target : Variable} {op : Operation}
    (h : copy v target = .ok op) : op.term.blocks = [] := by
  rcases v with ⟨_ | _ | _ | _, x⟩ <;> rcases target with ⟨_ | _ | _ | _, y⟩ <;> cases h <;> rfl

theorem Operation.blocks_of_insert {v : Variable} {m : Cell .matrix} {address : Address}
    {op : Operation} (h : insert v m address = .ok op) : op.term.blocks = [] := by
  rcases v with ⟨_ | _ | _ | _, x⟩ <;> cases h <;> rfl

/-! ### Checked drafts -/

/-- The variable exists in a later store, and if it existed before, it has a name. -/
def Session.Admits (s : Session) (store : Store) (v : Variable) : Prop :=
  store.Has v.cell ∧ (s.store.Has v.cell → ∃ name, s.scope.find? name = some v)

theorem Session.Admits.mono {s : Session} {store store' : Store} {v : Variable}
    (h : s.Admits store v) (larger : store.Extends store') : s.Admits store' v :=
  ⟨larger.has h.1, h.2⟩

/-- The draft continues a session, and the blocks of its literals are admitted and closed. -/
structure Draft.Checked (s : Session) (d : Draft) : Prop where
  /-- The cells of the session are as they were. -/
  old : s.store.Extends d.store
  /-- The blocks are admitted and closed. -/
  blocks : ∀ op ∈ d.program, ∀ v ∈ op.term.blocks,
    s.Admits d.store v ∧ Group.needsSize d.store v = false

namespace Draft

variable {s : Session} {d d' : Draft}

/-- A new cell is admitted. -/
theorem Checked.admits_allocate (h : d.Checked s) {kind : Kind} (value : kind.Content) :
    s.Admits (d.store.allocate value).1 ⟨kind, (d.store.allocate value).2⟩ :=
  ⟨d.store.has_allocate value, fun has =>
    absurd (h.old.has has) (d.store.not_has_allocate value)⟩

/-- More cells change nothing. -/
theorem Checked.widen (h : d.Checked s) (larger : d.store.Extends d'.store)
    (program : d'.program = d.program) : d'.Checked s where
  old := h.old.trans larger
  blocks op mem v block := by
    rw [program] at mem
    obtain ⟨admitted, closed⟩ := h.blocks op mem v block
    exact ⟨admitted.mono larger,
      (Group.needsSize_congr (larger.read admitted.1)).trans closed⟩

/-- One more operation, whose blocks are admitted and closed. -/
theorem Checked.emitted (h : d.Checked s) (op : Operation)
    (blocks : ∀ v ∈ op.term.blocks, s.Admits d.store v ∧ Group.needsSize d.store v = false)
    (larger : d.store.Extends d'.store) (program : d'.program = d.program ++ [op]) :
    d'.Checked s where
  old := h.old.trans larger
  blocks o mem v block := by
    have before : s.Admits d.store v ∧ Group.needsSize d.store v = false := by
      rw [program] at mem
      rcases List.mem_append.1 mem with mem | last
      · exact h.blocks o mem v block
      · obtain rfl := List.mem_singleton.1 last
        exact blocks v block
    exact ⟨before.1.mono larger,
      (Group.needsSize_congr (larger.read before.1.1)).trans before.2⟩

end Draft

namespace Build

variable {α β : Type} {s : Session}

/-- The computation takes admitted variables, gives admitted variables, and emits checked literals
only. -/
def Keeps (s : Session) (m : Build α) (taken : List Variable) (given : α → List Variable) : Prop :=
  ∀ ⦃d a d'⦄, m d = .ok a d' → d.Checked s → (∀ v ∈ taken, s.Admits d.store v) →
    d.store.Extends d'.store ∧ d'.Checked s ∧ ∀ v ∈ given a, s.Admits d'.store v

variable {t : List Variable} {g : α → List Variable}

theorem Keeps.mono {m : Build α} {t' : List Variable} (h : m.Keeps s t g) (more : t ⊆ t') :
    m.Keeps s t' g :=
  fun _ _ _ run checked admitted => h run checked fun v mem => admitted v (more mem)

/-- What the first part takes can be taken again by the second. -/
theorem Keeps.bind {x : Build α} {f : α → Build β} {r : β → List Variable} (hx : x.Keeps s t g)
    (hf : ∀ a, (f a).Keeps s (g a ++ t) r) : (x >>= f).Keeps s t r := by
  intro d b d' run checked admitted
  obtain ⟨a, d₁, first, second⟩ := bind_eq_ok_iff.1 run
  obtain ⟨larger, checked, given⟩ := hx first checked admitted
  obtain ⟨larger', checked, given'⟩ := hf a second checked fun v mem => by
    rcases List.mem_append.1 mem with mem | mem
    · exact given v mem
    · exact (admitted v mem).mono larger
  exact ⟨larger.trans larger', checked, given'⟩

theorem keeps_pure {a : α} (h : g a ⊆ t) : (pure a : Build α).Keeps s t g := by
  intro d b d' run checked admitted
  obtain ⟨rfl, rfl⟩ := pure_eq_ok_iff.1 run
  exact ⟨.refl _, checked, fun v mem => admitted v (h mem)⟩

theorem keeps_fail (cause : Malformed) : (fail cause : Build α).Keeps s t g := by
  intro d b d' run
  exact absurd run fail_ne_ok

theorem keeps_ofExcept {r : Except Malformed α} (h : ∀ a, r = .ok a → g a ⊆ t) :
    (ofExcept r).Keeps s t g := by
  cases r with
  | ok a => exact keeps_pure (h a rfl)
  | error cause => exact keeps_fail cause

theorem keeps_ofOption {cause : Malformed} {o : Option α} (h : ∀ a, o = some a → g a ⊆ t) :
    (ofOption cause o).Keeps s t g := by
  cases o with
  | some a => exact keeps_pure (h a rfl)
  | none => exact keeps_fail cause

theorem keeps_require (condition : Bool) (cause : Malformed) :
    (require condition cause).Keeps s t fun _ => [] := by
  cases condition with
  | true => exact keeps_pure (List.nil_subset _)
  | false => exact keeps_fail cause

/-- A computation that first looks at the draft. -/
theorem keeps_get {f : Draft → Build β} {r : β → List Variable} (h : ∀ d, (f d).Keeps s t r) :
    (get >>= f).Keeps s t r := by
  intro d b d' run
  obtain ⟨_, _, start, rest⟩ := bind_eq_ok_iff.1 run
  obtain ⟨rfl, rfl⟩ := get_eq_ok_iff.1 start
  exact h _ rest

theorem keeps_integerLiteral (value : Int64) : (integerLiteral value).Keeps s t fun v => [v] := by
  intro d v d' run checked admitted
  rw [integerLiteral_eq] at run
  cases run
  have larger := @Store.extends_allocate d.store .integer value
  exact ⟨larger, checked.widen larger rfl,
    List.forall_mem_singleton.2 (@Draft.Checked.admits_allocate s d checked .integer value)⟩

theorem keeps_doubleLiteral (value : Float) : (doubleLiteral value).Keeps s t fun v => [v] := by
  intro d v d' run checked admitted
  rw [doubleLiteral_eq] at run
  cases run
  have larger := @Store.extends_allocate d.store .double value
  exact ⟨larger, checked.widen larger rfl,
    List.forall_mem_singleton.2 (@Draft.Checked.admits_allocate s d checked .double value)⟩

theorem keeps_sequenceVariable (value : IndexSequence) :
    (sequenceVariable value).Keeps s t fun v => [v] := by
  intro d v d' run checked admitted
  rw [sequenceVariable_eq] at run
  cases run
  have larger := @Store.extends_allocate d.store .sequence value
  exact ⟨larger, checked.widen larger rfl,
    List.forall_mem_singleton.2 (@Draft.Checked.admits_allocate s d checked .sequence value)⟩

theorem keeps_emitRecipe {r : Except Malformed Recipe}
    (h : ∀ recipe, r = .ok recipe → recipe.Plain) : (emitRecipe r).Keeps s t fun v => [v] := by
  intro d v d' run checked admitted
  obtain ⟨recipe, eq, rfl, rfl⟩ := emitRecipe_eq_ok_iff.1 run
  have larger := d.store.extends_allocate recipe.kind.blank
  refine ⟨larger, checked.emitted (recipe.into (d.store.allocate recipe.kind.blank).2)
    (fun v block => ?_) larger rfl,
    List.forall_mem_singleton.2 (checked.admits_allocate recipe.kind.blank)⟩
  have none : recipe.term.blocks = [] := h recipe eq
  change v ∈ recipe.term.blocks at block
  rw [none] at block
  cases block

theorem keeps_mapM {f : α → Build β} {g : β → List Variable} (xs : List α)
    (h : ∀ x ∈ xs, (f x).Keeps s t g) : (xs.mapM f).Keeps s t fun ys => ys.flatMap g := by
  induction xs with
  | nil => exact keeps_pure (List.nil_subset _)
  | cons x xs ih =>
    rw [List.mapM_cons]
    refine (h x List.mem_cons_self).bind fun y => ?_
    refine ((ih fun z mem => h z (List.mem_cons_of_mem _ mem)).mono
      (List.subset_append_right _ _)).bind fun ys => keeps_pure ?_
    intro v
    simp only [List.flatMap_cons, List.mem_append]
    tauto

/-- The same of answers that are variables. -/
theorem keeps_mapM_variables {f : α → Build Variable} (xs : List α)
    (h : ∀ x ∈ xs, (f x).Keeps s t fun v => [v]) : (xs.mapM f).Keeps s t id := by
  intro d vs d' run checked admitted
  obtain ⟨larger, checked, given⟩ := keeps_mapM xs h run checked admitted
  simp only [List.flatMap_singleton'] at given
  exact ⟨larger, checked, given⟩

end Build

/-! ### Items and operators -/

open Build

@[grind =]
theorem Item.mem_values {v : Variable} {items : List Item} :
    v ∈ values items ↔ value v ∈ items := by
  induction items with
  | nil => simp
  | cons item items ih => cases item <;> simp [ih]

namespace Item

variable {s : Session} {t : List Variable}

theorem keeps_operand (context : String) (item : Item) :
    (item.operand context).Keeps s (values [item]) fun v => [v] := by
  cases item with
  | value v => exact keeps_pure (List.Subset.refl _)
  | symbol | function => exact keeps_get fun _ => keeps_fail _

/-- Words are looked up, literals get new cells. -/
theorem keeps_ofToken (bound : ∀ name v, s.scope.find? name = some v → s.store.Has v.cell)
    (token : Token) : (ofToken s.scope token).Keeps s [] fun item => values [item] := by
  cases token with
  | symbol sign => exact keeps_pure (List.Subset.refl _)
  | word name =>
    intro d item d' run checked _
    obtain ⟨rfl, ⟨v, found, rfl⟩ | ⟨-, f, -, rfl⟩⟩ := ofToken_word_eq_ok_iff.1 run
    · exact ⟨.refl _, checked, List.forall_mem_singleton.2
        ⟨checked.old.has (bound name v found), fun _ => ⟨name, found⟩⟩⟩
    · exact ⟨.refl _, checked, by simp⟩
  | integer n =>
    exact (keeps_integerLiteral n).bind fun v => keeps_pure (List.subset_append_left _ _)
  | double x =>
    exact (keeps_doubleLiteral x).bind fun v => keeps_pure (List.subset_append_left _ _)

theorem keeps_ofTokens (bound : ∀ name v, s.scope.find? name = some v → s.store.Has v.cell)
    (tokens : List Token) : (ofTokens s.scope tokens).Keeps s [] values := by
  induction tokens with
  | nil => exact keeps_pure (List.Subset.refl _)
  | cons token tokens ih =>
    exact (keeps_ofToken bound token).bind fun item =>
      (ih.mono (List.nil_subset _)).bind fun items => keeps_pure (by grind)

end Item

open Item

namespace Tier

variable {s : Session}

theorem keeps_negate (times : Nat) (v : Variable) :
    (negate times v).Keeps s [v] fun w => [w] := by
  induction times generalizing v with
  | zero => exact keeps_pure (List.Subset.refl _)
  | succ times ih =>
    exact (keeps_emitRecipe fun _ h => Recipe.plain_unary h).bind fun w =>
      (ih w).mono (List.subset_append_left _ _)

theorem keeps_transpositions (done items : List Item) :
    (transpositions done items).Keeps s (values done ++ values items) values := by
  induction items generalizing done with
  | nil => exact keeps_pure (by grind)
  | cons item items ih =>
    simp only [transpositions]
    split
    · cases done with
      | nil => exact keeps_fail _
      | cons left done =>
        refine ((keeps_operand _ left).mono (by grind)).bind fun a => ?_
        refine (keeps_emitRecipe fun _ h => Recipe.plain_unary h).bind fun v => ?_
        exact (ih (.value v :: done)).mono (by grind)
    · exact (ih (item :: done)).mono (by grind)

theorem keeps_resolve (p : Pending) (right : Item) :
    (p.resolve right).Keeps s (values [p.left] ++ values [right]) fun v => [v] := by
  unfold Pending.resolve
  split
  · refine ((keeps_operand _ p.left).mono (by grind)).bind fun a => ?_
    refine ((keeps_operand _ right).mono (by grind)).bind fun b => ?_
    exact keeps_emitRecipe fun _ h => Recipe.plain_binary h
  · refine ((keeps_operand _ right).mono (by grind)).bind fun b => ?_
    refine ((keeps_negate _ b).mono (by grind)).bind fun b => ?_
    refine ((keeps_operand _ p.left).mono (by grind)).bind fun a => ?_
    exact keeps_emitRecipe fun _ h => Recipe.plain_binary h

theorem keeps_binaries (tier : List Symbol) (done : List Item) (p : Option Pending)
    (items : List Item) : (binaries tier done p items).Keeps s
      (values done ++ pendingValues p ++ values items) values := by
  fun_induction binaries tier done p items with
  | case1 done => exact keeps_pure (by grind)
  | case2 | case7 | case8 => exact keeps_fail _
  | case3 _ _ _ _ _ ih => exact ih.mono (by grind)
  | case4 item items _ left before _ _ ih =>
    refine ih.mono fun v mem => ?_
    simp only [pendingValues, List.mem_append, mem_values, List.mem_cons] at mem ⊢
    tauto
  | case5 _ _ _ _ _ _ _ ih => exact ih.mono (by grind)
  | case6 _ _ _ _ ih => exact ih.mono (by grind)
  | case9 _ _ _ _ _ ih => exact ih.mono (by simp only [pendingValues]; grind)
  | case10 done p item items _ ih =>
    refine ((keeps_resolve p item).mono (by simp only [pendingValues]; grind)).bind fun v => ?_
    exact (ih v).mono (by simp only [pendingValues]; grind)

theorem keeps_negations (done : List Item) (signs : Nat) (items : List Item) :
    (negations done signs items).Keeps s (values done ++ values items) values := by
  fun_induction negations done signs items with
  | case1 done => exact keeps_pure (by grind)
  | case2 => exact keeps_fail _
  | case3 _ _ _ _ _ ih => exact ih.mono (by grind)
  | case4 _ _ _ _ ih => exact ih.mono (by grind)
  | case5 done signs item items _ _ ih =>
    refine ((keeps_operand _ item).mono (by grind)).bind fun v => ?_
    refine ((keeps_negate signs v).mono (by grind)).bind fun w => ?_
    exact (ih w).mono (by grind)

theorem keeps_all (items : List Item) : (all items).Keeps s (values items) values := by
  have binary : ∀ {t : List Variable} tier items, values items ⊆ t →
      (binaries tier [] none items).Keeps s t values := fun tier items more =>
    (keeps_binaries tier [] none items).mono (by simpa [pendingValues] using more)
  refine ((keeps_transpositions [] items).mono (by simp)).bind fun items => ?_
  refine (binary _ items (List.subset_append_left _ _)).bind fun items => ?_
  refine (binary _ items (List.subset_append_left _ _)).bind fun items => ?_
  refine (binary _ items (List.subset_append_left _ _)).bind fun items => ?_
  refine ((keeps_negations [] 0 items).mono (by grind)).bind fun items => ?_
  exact binary _ items (List.subset_append_left _ _)

end Tier

/-! ### Ranges and side-by-side lists -/

namespace Range

variable {s : Session}

/-- The variable that a range is. -/
def single? : Range → Option Variable
  | value v => some v
  | sequence _ => none

/-- Single variables stay in the list. -/
theorem single_of_parse {pieces : List (Option Variable)} {ranges : List Range}
    (h : parse pieces = .ok ranges) : ranges.filterMap single? ⊆ pieces.filterMap id := by
  intro v mem
  obtain ⟨r, inside, same⟩ := List.mem_filterMap.1 mem
  have held : v ∈ ranges.flatMap held := List.mem_flatMap.2 ⟨r, inside, by
    cases r <;> cases same
    exact List.mem_singleton.2 rfl⟩
  rwa [held_of_parse h] at held

theorem keeps_toVariable (r : Range) : r.toVariable.Keeps s r.single?.toList fun v => [v] := by
  cases r with
  | value v => exact keeps_pure (List.Subset.refl _)
  | sequence value => exact keeps_sequenceVariable value

theorem keeps_handles (items : List Item) : (handles items).Keeps s (values items) id := by
  refine keeps_get fun d => ?_
  refine Keeps.bind (g := fun pieces => pieces.filterMap id)
    (keeps_ofExcept fun pieces h => by rw [values_of_pieces h]; exact List.Subset.refl _)
    fun pieces => ?_
  refine Keeps.bind (g := fun ranges => ranges.filterMap single?)
    (keeps_ofExcept fun ranges h =>
      List.Subset.trans (single_of_parse h) (List.subset_append_left _ _)) fun ranges => ?_
  exact keeps_mapM_variables ranges fun r inside => (keeps_toVariable r).mono fun v mem =>
    List.mem_append_left _ (List.mem_filterMap.2 ⟨r, inside, Option.mem_toList.1 mem⟩)

theorem keeps_join (vs : List Variable) : (join vs).Keeps s vs Option.toList := by
  match vs with
  | [] => exact keeps_pure (List.Subset.refl _)
  | [v] => exact keeps_pure (List.Subset.refl _)
  | first :: second :: rest =>
    refine keeps_get fun d => ?_
    refine Keeps.bind (g := fun _ => []) (keeps_ofExcept fun _ _ => List.nil_subset _)
      fun parts => ?_
    exact (keeps_sequenceVariable _).bind fun v => keeps_pure (List.subset_append_left _ _)

end Range

/-! ### Groups -/

theorem Item.values_of_mem_splitTop {separator : Symbol} {depth : Nat} {items piece : List Item}
    (mem : piece ∈ splitTop separator depth items) : values piece ⊆ values items := by
  rw [← values_of_splitTop separator depth items]
  exact fun v inside => List.mem_flatMap.2 ⟨piece, mem, inside⟩

namespace Group

variable {s : Session} {block : Resolver} (h : ∀ items, (block items).Keeps s (values items) id)
include h

theorem keeps_single (items : List Item) :
    (single block items).Keeps s (values items) Option.toList :=
  (h items).bind fun vs => (Range.keeps_join vs).mono (List.subset_append_left _ _)

theorem keeps_argument (f : Builtin) (items : List Item) :
    (argument block f items).Keeps s (values items) fun v => [v] := by
  refine (keeps_require _ _).bind fun _ => (keeps_single h items).bind fun o => ?_
  refine keeps_ofOption fun v found => ?_
  rw [found]
  exact List.subset_append_left _ _

theorem keeps_arguments (f : Builtin) (inside : List Item) :
    (arguments block f inside).Keeps s (values inside) id := by
  unfold arguments
  split
  · exact keeps_pure (List.nil_subset _)
  · exact keeps_mapM_variables _ fun piece mem =>
      (keeps_argument h f piece).mono (values_of_mem_splitTop mem)

theorem keeps_call (f : Builtin) (inside : List Item) :
    (call block f inside).Keeps s (values inside) fun v => [v] :=
  (keeps_arguments h f inside).bind fun _ => keeps_get fun _ =>
    keeps_emitRecipe fun _ made => Recipe.plain_ofCall made

theorem keeps_index (items : List Item) :
    (index block items).Keeps s (values items) fun _ => [] :=
  (keeps_single h items).bind fun _ =>
    Keeps.bind (g := fun _ => []) (keeps_ofOption fun _ _ => List.nil_subset _) fun _ =>
      keeps_ofExcept fun _ _ => List.nil_subset _

theorem keeps_address (inside : List Item) :
    (address block inside).Keeps s (values inside) fun _ => [] :=
  (keeps_require _ _).bind fun _ =>
    Keeps.bind (keeps_mapM _ fun piece mem =>
      (keeps_index h piece).mono (values_of_mem_splitTop mem)) fun _ =>
        keeps_ofExcept fun _ _ => List.nil_subset _

/-! ### Literals -/

theorem keeps_element (items : List Item) : (element block items).Keeps s (values items) id :=
  (keeps_require _ _).bind fun _ => h items

variable {d d' : Draft}

omit h in
/-- What has been checked has a size of its own. -/
theorem closed_of_checkClosed {store : Store} {blocks : List Variable} {u : Unit}
    (ok : checkClosed store blocks = .ok u) : ∀ v ∈ blocks, needsSize store v = false := by
  unfold checkClosed at ok
  split at ok
  · cases ok
  · rename_i none
    exact fun v mem => by simpa using List.find?_eq_none.1 none v mem

/-- **The blocks of a row are admitted and closed**, since they are checked when they are there. -/
theorem checked_of_literalRow {items : List Item} {row : List Variable}
    (run : literalRow block items d = .ok row d') (checked : d.Checked s)
    (admitted : ∀ v ∈ values items, s.Admits d.store v) : d.store.Extends d'.store ∧
      d'.Checked s ∧ ∀ v ∈ row, s.Admits d'.store v ∧ needsSize d'.store v = false := by
  simp only [literalRow, bind_eq_ok_iff, require_eq_ok_iff, get_eq_ok_iff, ofExcept_eq_ok_iff,
    pure_eq_ok_iff] at run
  obtain ⟨_, _, ⟨-, rfl⟩, elements, _, resolved, _, _, ⟨rfl, rfl⟩, _, _, ⟨closed, rfl⟩, rfl, rfl⟩ :=
    run
  obtain ⟨larger, checked, given⟩ := keeps_mapM _ (fun piece mem =>
    (keeps_element h piece).mono (values_of_mem_splitTop mem)) resolved checked admitted
  simp only [List.flatMap_id] at given
  exact ⟨larger, checked, fun v mem => ⟨given v mem, closed_of_checkClosed closed v mem⟩⟩

theorem checked_of_rows {pieces : List (List Item)} {rows : Literal}
    (run : pieces.mapM (literalRow block) d = .ok rows d') (checked : d.Checked s)
    (admitted : ∀ piece ∈ pieces, ∀ v ∈ values piece, s.Admits d.store v) :
    d.store.Extends d'.store ∧ d'.Checked s ∧
      ∀ v ∈ rows.flatten, s.Admits d'.store v ∧ needsSize d'.store v = false := by
  induction pieces generalizing d rows with
  | nil =>
    obtain ⟨rfl, rfl⟩ := pure_eq_ok_iff.1 run
    exact ⟨.refl _, checked, by simp⟩
  | cons piece pieces ih =>
    rw [List.mapM_cons] at run
    simp only [bind_eq_ok_iff, pure_eq_ok_iff] at run
    obtain ⟨row, d₁, first, rows, _, rest, rfl, rfl⟩ := run
    obtain ⟨larger, checked, closed⟩ :=
      checked_of_literalRow h first checked (admitted piece List.mem_cons_self)
    obtain ⟨larger', checked, closed'⟩ := ih rest checked fun piece mem v inside =>
      (admitted piece (List.mem_cons_of_mem _ mem) v inside).mono larger
    refine ⟨larger.trans larger', checked, fun v mem => ?_⟩
    rcases List.mem_append.1 (List.flatten_cons ▸ mem) with mem | mem
    · obtain ⟨before, open'⟩ := closed v mem
      exact ⟨before.mono larger', (needsSize_congr (larger'.read before.1)).trans open'⟩
    · exact closed' v mem

theorem keeps_literal (inside : List Item) :
    (literal block inside).Keeps s (values inside) fun v => [v] := by
  intro d v d' run checked admitted
  simp only [literal, bind_eq_ok_iff, place_eq_ok_iff, get_eq_ok_iff, ofExcept_eq_ok_iff,
    emit_eq] at run
  obtain ⟨rows, d₁, resolved, _, _, ⟨recipe, made, rfl, rfl⟩, _, _, ⟨-, rfl⟩, _, _, ⟨-, rfl⟩,
    emitted⟩ := run
  cases made
  cases emitted
  have done : d.store.Extends d₁.store ∧ d₁.Checked s ∧
      ∀ v ∈ rows.flatten, s.Admits d₁.store v ∧ needsSize d₁.store v = false := by
    unfold literalRows at resolved
    split at resolved
    · obtain ⟨rfl, rfl⟩ := pure_eq_ok_iff.1 resolved
      exact ⟨.refl _, checked, by simp⟩
    · exact checked_of_rows h resolved checked fun piece mem v inside =>
        admitted v (values_of_mem_splitTop mem inside)
  obtain ⟨larger, checked, closed⟩ := done
  have larger' := d₁.store.extends_allocate Kind.matrix.blank
  let op : Operation :=
    ⟨"matrixConstructor", (d₁.store.allocate Kind.matrix.blank).2, .literal rows⟩
  exact ⟨larger.trans larger', checked.emitted op closed larger' rfl,
    List.forall_mem_singleton.2 (checked.admits_allocate Kind.matrix.blank)⟩

/-! ### Lists with groups -/

theorem keeps_resolve (opening : Symbol) (done inside : List Item) :
    (resolve block opening done inside).Keeps s (values done ++ values inside) values := by
  have within : values inside ⊆ values done ++ values inside := List.subset_append_right _ _
  unfold resolve
  split
  · exact ((keeps_literal h inside).mono within).bind fun v => keeps_pure (by grind)
  · exact ((keeps_call h _ inside).mono within).bind fun v => keeps_pure (by grind)
  · refine ((keeps_address h inside).mono within).bind fun address => ?_
    exact (keeps_emitRecipe fun _ made => by
      cases made
      exact Recipe.plain_ofAddress _ _).bind fun v => keeps_pure (by grind)
  · refine ((keeps_single h inside).mono within).bind fun o => ?_
    cases o with
    | some v => exact keeps_pure (by grind)
    | none => exact keeps_pure (by grind)

theorem keeps_resolveAll (done items : List Item) :
    (resolveAll block done items).Keeps s (values done ++ values items) values := by
  fun_induction resolveAll block done items with
  | case1 done => exact keeps_pure (by grind)
  | case2 | case4 => exact keeps_fail _
  | case3 done item items opening role symbol inside close rest cut ih =>
    have split := values_of_untilClose cut
    refine ((keeps_resolve h opening done inside).mono ?_).bind fun done' => (ih done').mono ?_
    · rw [values_cons item, split]
      grind
    · rw [values_cons item, split]
      grind
  | case5 done item items _ _ ih => exact ih.mono (by grind)

end Group

theorem Group.keeps_checkRest {s : Session} {t : List Variable} (items : List Item) :
    (checkRest items).Keeps s t fun _ => [] := by
  fun_induction checkRest items with
  | case1 => exact keeps_pure (List.nil_subset _)
  | case2 | case3 => exact keeps_fail _
  | case4 _ _ _ ih => exact ih
  | case5 _ _ ih => exact ih

theorem Group.keeps_block {s : Session} (allowance : Nat) (items : List Item) :
    (block allowance items).Keeps s (values items) id := by
  induction allowance generalizing items with
  | zero => exact keeps_fail _
  | succ allowance ih =>
    refine ((keeps_resolveAll ih [] items).mono (by simp)).bind fun rest => ?_
    refine (keeps_checkRest rest).bind fun _ => ?_
    refine ((Tier.keeps_all rest).mono (by grind)).bind fun left => ?_
    exact (Range.keeps_handles left).mono (List.subset_append_left _ _)

/-! ### Statements -/

namespace Statement

variable {s : Session} {macros : Bindings Macro} {d d' : Draft}
  (bound : ∀ name v, s.scope.find? name = some v → s.store.Has v.cell)
include bound

theorem keeps_prepare (tokens : List Token) :
    (prepare s.scope macros tokens).Keeps s [] values := by
  intro d items d' run checked admitted
  obtain ⟨expanded, log, -, read⟩ := prepare_eq_ok_iff.1 run
  have start : ({ d with log } : Draft).Checked s := checked.widen (.refl _) rfl
  have done := keeps_ofTokens bound expanded read start (by simp)
  exact done

theorem keeps_value (tokens : List Token) :
    (value s.scope macros tokens).Keeps s [] fun v => [v] := by
  refine (keeps_prepare bound tokens).bind fun items => ?_
  refine ((Group.keeps_single (Group.keeps_block maxNesting) items).mono
    (List.subset_append_left _ _)).bind fun o => keeps_ofOption fun v found => ?_
  rw [found]
  exact List.subset_append_left _ _

/-- **Compiled literals are checked.** -/
theorem checked_of_compile {tokens : List Token} {compiled : Compiled}
    (run : compile s.scope macros tokens s.draft = .ok compiled d') : d'.Checked s ∧
      d'.program = compiled.program := by
  obtain ⟨left, right, name, v, d₁, declared, d₂, -, -, -, valued, assigned, rfl, rfl⟩ :=
    compile_eq_ok_iff.1 run
  have start : s.draft.Checked s := ⟨.refl _, fun op mem => absurd mem List.not_mem_nil⟩
  obtain ⟨-, checked, -⟩ := keeps_value bound right valued start (by simp)
  have none : ∀ {op : Operation} {store : Store}, op.term.blocks = [] →
      ∀ v ∈ op.term.blocks, s.Admits store v ∧ Group.needsSize store v = false := by
    intro op store none v mem
    rw [none] at mem
    cases mem
  have done : d₂.Checked s := by
    rcases assign_eq_ok_iff.1 assigned with ⟨-, whole⟩ | ⟨-, -, places⟩
    · rcases assignWhole_eq_ok_iff.1 whole with ⟨target, op, -, copied, -, rfl⟩ |
        ⟨op, -, copied, -, rfl⟩
      · exact checked.emitted op (none (Operation.blocks_of_copy copied)) (.refl _) rfl
      · have larger := d₁.store.extends_allocate v.kind.blank
        exact checked.emitted op (none (Operation.blocks_of_copy copied)) larger rfl
    · obtain ⟨m, inside, items, e, address, e₁, op, -, -, prepared, addressed, inserted, rfl⟩ :=
        assignPlaces_eq_ok_iff.1 places
      obtain ⟨-, checked, admitted⟩ := keeps_prepare bound inside prepared checked (by simp)
      obtain ⟨-, checked, -⟩ :=
        Group.keeps_address (Group.keeps_block maxNesting) items addressed checked admitted
      exact checked.emitted op (none (Operation.blocks_of_insert inserted)) (.refl _) rfl
  exact ⟨done.widen (.refl _) rfl, rfl⟩

end Statement

end MatrixCalc
