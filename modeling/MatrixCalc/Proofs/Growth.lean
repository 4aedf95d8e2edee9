import MatrixCalc.Proofs.Run

/-!
# Drafts only grow

Compiling a statement allocates cells, notes literals, emits operations and records events, and
does nothing else to its draft (`Draft.Step`).  This holds of every part of the compilation, also of
a part that fails half-way (`Build.Growing`), so the draft at the end, or at the error, is reached
from the first one by such steps (`Statement.growing_compile`).

* `Draft.Grows.extends` : no cell that a draft started with has changed.
* `Draft.Grows.program` : operations are only appended.
* `Draft.Grows.noted` : what is noted as a literal is one.
-/

namespace MatrixCalc

/-! ### Stores with more cells -/

/-- `s'` has the cells of `s`, with the same contents, and maybe more. -/
def Store.Extends (s s' : Store) : Prop :=
  ∀ ⦃kind : Kind⦄ (cell : Cell kind), s.Has cell → s'.Has cell ∧ s'.read cell = s.read cell

namespace Store

variable {s s' s'' : Store}

theorem Extends.refl (s : Store) : s.Extends s := fun _ _ h => ⟨h, rfl⟩

theorem Extends.trans (h : s.Extends s') (h' : s'.Extends s'') : s.Extends s'' := by
  intro kind cell has
  obtain ⟨has', read⟩ := h cell has
  obtain ⟨has'', read'⟩ := h' cell has'
  exact ⟨has'', read'.trans read⟩

theorem Extends.has (h : s.Extends s') {kind : Kind} {cell : Cell kind} (has : s.Has cell) :
    s'.Has cell := (h cell has).1

theorem Extends.read (h : s.Extends s') {kind : Kind} {cell : Cell kind} (has : s.Has cell) :
    s'.read cell = s.read cell := (h cell has).2

theorem extends_allocate (s : Store) {kind : Kind} (value : kind.Content) :
    s.Extends (s.allocate value).1 := by
  intro other cell has
  refine ⟨?_, read_allocate_of_has s value has⟩
  have bound : cell.id < s.count other := has
  change cell.id < (s.allocate value).1.count other
  rw [count_allocate]
  omega

theorem has_allocate (s : Store) {kind : Kind} (value : kind.Content) :
    (s.allocate value).1.Has (s.allocate value).2 := by
  change s.count kind < (s.allocate value).1.count kind
  rw [count_allocate]
  simp

/-- A new cell is none of the cells that were there. -/
theorem not_has_allocate (s : Store) {kind : Kind} (value : kind.Content) :
    ¬ s.Has (s.allocate value).2 := Nat.lt_irrefl _

/-- The only new cell is the one that is allocated. -/
theorem has_or_eq_of_allocate (s : Store) {kind other : Kind} (value : kind.Content)
    {cell : Cell other} (has : (s.allocate value).1.Has cell) :
    s.Has cell ∨ (⟨other, cell⟩ : Variable) = ⟨kind, (s.allocate value).2⟩ := by
  have bound : cell.id < s.count other + if other = kind then 1 else 0 := by
    rw [← count_allocate s value]
    exact has
  by_cases same : other = kind
  · subst same
    rw [if_pos rfl] at bound
    rcases Nat.lt_succ_iff_lt_or_eq.1 bound with old | last
    · exact .inl old
    · obtain ⟨id⟩ := cell
      dsimp only at last
      exact .inr (by rw [last]; rfl)
  · rw [if_neg same] at bound
    exact .inl bound

end Store

/-! ### Steps of a draft -/

namespace Draft

/-- What a step of a compilation does to the draft. -/
inductive Step : Draft → Draft → Prop
  | allocate (d : Draft) {kind : Kind} (value : kind.Content) :
      Step d { d with store := (d.store.allocate value).1 }
  | count (d : Draft) (temporaries : Nat) : Step d { d with temporaries }
  | literal (d : Draft) (cell : Cell .integer) (value : Int64) (has : d.store.Has cell)
      (holds : d.store.read cell = value) :
      Step d { d with constants := (cell, value) :: d.constants }
  | emit (d : Draft) (op : Operation) : Step d { d with program := d.program ++ [op] }
  | report (d : Draft) (log : List Event) : Step d { d with log }

/-- The second draft is reached from the first one by steps of a compilation. -/
abbrev Grows : Draft → Draft → Prop := Relation.ReflTransGen Step

theorem Grows.extends {d d' : Draft} (h : d.Grows d') : d.store.Extends d'.store := by
  induction h with
  | refl => exact .refl _
  | tail _ step ih =>
    refine ih.trans ?_
    cases step with
    | allocate => exact Store.extends_allocate _ _
    | count | literal | emit | report => exact .refl _

theorem Grows.program {d d' : Draft} (h : d.Grows d') : ∃ ops, d'.program = d.program ++ ops := by
  induction h with
  | refl => exact ⟨[], by simp⟩
  | tail _ step ih =>
    obtain ⟨ops, eq⟩ := ih
    cases step with
    | emit op => exact ⟨ops ++ [op], by simp [eq]⟩
    | allocate | count | literal | report => exact ⟨ops, eq⟩

/-- The cells that are noted as constants hold the values that are noted. -/
def Noted (d : Draft) : Prop :=
  ∀ entry ∈ d.constants, d.store.Has entry.1 ∧ d.store.read entry.1 = entry.2

theorem Grows.noted {d d' : Draft} (h : d.Grows d') (noted : d.Noted) : d'.Noted := by
  induction h with
  | refl => exact noted
  | tail _ step ih =>
    intro entry mem
    cases step with
    | allocate value =>
      obtain ⟨has, holds⟩ := ih entry mem
      obtain ⟨has', same⟩ := Store.extends_allocate _ value entry.1 has
      exact ⟨has', same.trans holds⟩
    | literal cell value has holds =>
      rcases List.mem_cons.1 mem with rfl | mem
      · exact ⟨has, holds⟩
      · exact ih entry mem
    | count | emit | report => exact ih entry mem

end Draft

namespace Build

variable {α β : Type}

/-- The draft with which a computation ends, in success or failure. -/
def after (m : Build α) (d : Draft) : Draft :=
  match m d with
  | .ok _ d' => d'
  | .error _ d' => d'

/-- The computation takes only steps of a compilation, up to its end or its failure. -/
def Growing (m : Build α) : Prop := ∀ d : Draft, d.Grows (m.after d)

theorem Growing.of_ok {m : Build α} (h : m.Growing) {d d' : Draft} {a : α} (eq : m d = .ok a d') :
    d.Grows d' := by
  have := h d
  rwa [after, eq] at this

theorem Growing.of_error {m : Build α} (h : m.Growing) {d d' : Draft} {e : Error}
    (eq : m d = .error e d') : d.Grows d' := by
  have := h d
  rwa [after, eq] at this

theorem growing_pure (a : α) : (pure a : Build α).Growing := fun _ => .refl

theorem growing_throw (e : Error) : (throw e : Build α).Growing := fun _ => .refl

theorem growing_fail (cause : Malformed) : (fail cause : Build α).Growing := growing_throw _

theorem growing_get : (get : Build Draft).Growing := fun _ => .refl

theorem Growing.bind {x : Build α} {f : α → Build β} (hx : x.Growing) (hf : ∀ a, (f a).Growing) :
    (x >>= f).Growing := by
  intro d
  have first := hx d
  rw [after, bind_eq]
  rw [after] at first
  cases eq : x d with
  | ok a d' =>
    rw [eq] at first
    exact first.trans (hf a d')
  | error e d' =>
    rw [eq] at first
    exact first

theorem growing_ofExcept (r : Except Malformed α) : (ofExcept r).Growing := by
  cases r with
  | ok value => exact growing_pure value
  | error cause => exact growing_fail cause

theorem growing_ofOption (cause : Malformed) (o : Option α) : (ofOption cause o).Growing := by
  cases o with
  | some value => exact growing_pure value
  | none => exact growing_fail cause

theorem growing_require (condition : Bool) (cause : Malformed) :
    (require condition cause).Growing := by
  cases condition with
  | true => exact growing_pure ()
  | false => exact growing_fail cause

theorem growing_record (e : Event) : (record e).Growing := fun d => .single (.report d _)

theorem growing_ofLogged (m : Logged α) : (ofLogged m).Growing := by
  intro d
  simp only [after, ofLogged]
  cases m d.log <;> exact .single (.report d _)

theorem growing_allocate {kind : Kind} (value : kind.Content) : (allocate value).Growing :=
  fun d => .single (.allocate d value)

theorem growing_create {kind : Kind} (value : kind.Content) : (create value).Growing :=
  fun d => .tail (.single (.allocate d value)) (.count _ _)

theorem growing_integerLiteral (value : Int64) : (integerLiteral value).Growing := fun d =>
  (@growing_create .integer value d).tail (.literal _ _ value
    (@Store.has_allocate d.store .integer value) (@Store.read_allocate_self d.store .integer value))

theorem growing_doubleLiteral (value : Float) : (doubleLiteral value).Growing :=
  (growing_create _).bind fun _ => growing_pure _

theorem growing_sequenceVariable (value : IndexSequence) : (sequenceVariable value).Growing :=
  (growing_create _).bind fun _ => growing_pure _

theorem growing_place (r : Except Malformed Recipe) : (place r).Growing :=
  (growing_ofExcept r).bind fun _ => (growing_create _).bind fun _ => growing_pure _

theorem growing_emit (op : Operation) : (emit op).Growing :=
  (growing_record _).bind fun _ => .bind (fun d => .single (.emit d op)) fun _ => growing_pure _

theorem growing_emitRecipe (r : Except Malformed Recipe) : (emitRecipe r).Growing :=
  (growing_place r).bind growing_emit

theorem growing_mapM {f : α → Build β} (xs : List α) (h : ∀ x ∈ xs, (f x).Growing) :
    (xs.mapM f).Growing := by
  induction xs with
  | nil => exact growing_pure _
  | cons x xs ih =>
    rw [List.mapM_cons]
    exact (h x (by simp)).bind fun _ =>
      (ih fun y mem => h y (by simp [mem])).bind fun _ => growing_pure _

end Build

open Build

/-! ### Items and operators -/

theorem Item.growing_operand (context : String) (item : Item) :
    (item.operand context).Growing := by
  cases item with
  | value v => exact growing_pure v
  | symbol | function => exact growing_get.bind fun _ => growing_fail _

theorem Item.growing_ofToken (scope : Bindings Variable) (t : Token) :
    (ofToken scope t).Growing := by
  cases t with
  | symbol s => exact growing_pure _
  | word name =>
    simp only [ofToken]
    split
    · exact growing_pure _
    · exact growing_pure _
    · split
      · exact growing_fail _
      · exact growing_throw _
  | integer n => exact (growing_integerLiteral n).bind fun _ => growing_pure _
  | double x => exact (growing_doubleLiteral x).bind fun _ => growing_pure _

theorem Item.growing_ofTokens (scope : Bindings Variable) (tokens : List Token) :
    (ofTokens scope tokens).Growing := by
  induction tokens with
  | nil => exact growing_pure _
  | cons t tokens ih =>
    exact (growing_ofToken scope t).bind fun _ => ih.bind fun _ => growing_pure _

namespace Tier

theorem growing_negate (times : Nat) (v : Variable) : (negate times v).Growing := by
  induction times generalizing v with
  | zero => exact growing_pure v
  | succ times ih => exact (growing_emitRecipe _).bind ih

theorem growing_transpositions (done items : List Item) : (transpositions done items).Growing := by
  induction items generalizing done with
  | nil => exact growing_pure _
  | cons item items ih =>
    simp only [transpositions]
    split
    · cases done with
      | nil => exact growing_fail _
      | cons left done =>
        exact (left.growing_operand _).bind fun _ => (growing_emitRecipe _).bind fun _ => ih _
    · exact ih _

theorem growing_resolve (p : Pending) (right : Item) : (p.resolve right).Growing := by
  unfold Pending.resolve
  split
  · exact (Item.growing_operand _ _).bind fun _ => (right.growing_operand _).bind fun _ =>
      growing_emitRecipe _
  · exact (right.growing_operand _).bind fun _ => (growing_negate _ _).bind fun _ =>
      (Item.growing_operand _ _).bind fun _ => growing_emitRecipe _

theorem growing_binaries (tier : List Symbol) (done : List Item) (p : Option Pending)
    (items : List Item) : (binaries tier done p items).Growing := by
  fun_induction binaries tier done p items with
  | case1 => exact growing_pure _
  | case2 | case7 | case8 => exact growing_fail _
  | case3 _ _ _ _ _ ih | case4 _ _ _ _ _ _ _ ih | case5 _ _ _ _ _ _ _ ih | case6 _ _ _ _ ih
  | case9 _ _ _ _ _ ih => exact ih
  | case10 _ p item _ _ ih => exact (growing_resolve p item).bind ih

theorem growing_negations (done : List Item) (signs : Nat) (items : List Item) :
    (negations done signs items).Growing := by
  fun_induction negations done signs items with
  | case1 => exact growing_pure _
  | case2 => exact growing_fail _
  | case3 _ _ _ _ _ ih | case4 _ _ _ _ ih => exact ih
  | case5 _ _ item _ _ _ ih =>
    exact (item.growing_operand _).bind fun _ => (growing_negate _ _).bind fun v => ih v

theorem growing_all (items : List Item) : (all items).Growing :=
  (growing_transpositions _ _).bind fun _ => (growing_binaries _ _ _ _).bind fun _ =>
    (growing_binaries _ _ _ _).bind fun _ => (growing_binaries _ _ _ _).bind fun _ =>
      (growing_negations _ _ _).bind fun _ => growing_binaries _ _ _ _

end Tier

/-! ### Ranges and groups -/

namespace Range

theorem growing_toVariable (r : Range) : r.toVariable.Growing := by
  cases r with
  | value v => exact growing_pure v
  | sequence s => exact growing_sequenceVariable s

theorem growing_handles (items : List Item) : (handles items).Growing :=
  growing_get.bind fun _ => (growing_ofExcept _).bind fun _ => (growing_ofExcept _).bind fun rs =>
    growing_mapM rs fun r _ => growing_toVariable r

theorem growing_join (items : List Variable) : (join items).Growing := by
  unfold join
  split
  · exact growing_pure _
  · exact growing_pure _
  · exact growing_get.bind fun _ => (growing_ofExcept _).bind fun _ =>
      (growing_sequenceVariable _).bind fun _ => growing_pure _

end Range

namespace Group

variable {block : Resolver} (h : ∀ items, (block items).Growing)
include h

theorem growing_single (items : List Item) : (single block items).Growing :=
  (h items).bind Range.growing_join

theorem growing_argument (f : Builtin) (items : List Item) : (argument block f items).Growing :=
  (growing_require _ _).bind fun _ => (growing_single h items).bind fun _ => growing_ofOption _ _

theorem growing_arguments (f : Builtin) (inside : List Item) :
    (arguments block f inside).Growing := by
  unfold arguments
  split
  · exact growing_pure _
  · exact growing_mapM _ fun piece _ => growing_argument h f piece

theorem growing_call (f : Builtin) (inside : List Item) : (call block f inside).Growing :=
  (growing_arguments h f inside).bind fun _ => growing_get.bind fun _ => growing_emitRecipe _

theorem growing_index (items : List Item) : (index block items).Growing :=
  (growing_single h items).bind fun _ => (growing_ofOption _ _).bind fun _ => growing_ofExcept _

theorem growing_address (inside : List Item) : (address block inside).Growing :=
  (growing_require _ _).bind fun _ =>
    (growing_mapM _ fun piece _ => growing_index h piece).bind fun _ => growing_ofExcept _

theorem growing_element (items : List Item) : (element block items).Growing :=
  (growing_require _ _).bind fun _ => h items

theorem growing_literalRow (items : List Item) : (literalRow block items).Growing :=
  (growing_require _ _).bind fun _ =>
    (growing_mapM _ fun piece _ => growing_element h piece).bind fun _ =>
      growing_get.bind fun _ => (growing_ofExcept _).bind fun _ => growing_pure _

theorem growing_literalRows (inside : List Item) : (literalRows block inside).Growing := by
  unfold literalRows
  split
  · exact growing_pure _
  · exact growing_mapM _ fun piece _ => growing_literalRow h piece

theorem growing_literal (inside : List Item) : (literal block inside).Growing :=
  (growing_literalRows h inside).bind fun _ => (growing_place _).bind fun op =>
    growing_get.bind fun _ => (growing_ofExcept _).bind fun _ => growing_emit op

theorem growing_resolve (opening : Symbol) (done inside : List Item) :
    (resolve block opening done inside).Growing := by
  unfold resolve
  split
  · exact (growing_literal h inside).bind fun _ => growing_pure _
  · exact (growing_call h _ inside).bind fun _ => growing_pure _
  · exact (growing_address h inside).bind fun _ => (growing_emitRecipe _).bind fun _ =>
      growing_pure _
  · exact (growing_single h inside).bind fun
      | some _ => growing_pure _
      | none => growing_pure _

theorem growing_resolveAll (done items : List Item) : (resolveAll block done items).Growing := by
  fun_induction resolveAll block done items with
  | case1 => exact growing_pure _
  | case2 | case4 => exact growing_fail _
  | case3 done _ _ opening _ _ inside _ _ _ ih =>
    exact (growing_resolve h opening done inside).bind ih
  | case5 _ _ _ _ _ ih => exact ih

end Group

theorem Group.growing_checkRest (items : List Item) : (checkRest items).Growing := by
  fun_induction checkRest items with
  | case1 => exact growing_pure _
  | case2 | case3 => exact growing_fail _
  | case4 _ _ _ ih | case5 _ _ ih => exact ih

theorem Group.growing_block (allowance : Nat) (items : List Item) :
    (block allowance items).Growing := by
  induction allowance generalizing items with
  | zero => exact growing_fail _
  | succ allowance ih =>
    exact (growing_resolveAll ih [] items).bind fun rest => (growing_checkRest rest).bind fun _ =>
      (Tier.growing_all rest).bind Range.growing_handles

/-! ### Statements -/

namespace Statement

variable (scope : Bindings Variable) (macros : Bindings Macro)

theorem growing_prepare (tokens : List Token) : (prepare scope macros tokens).Growing :=
  (growing_ofLogged _).bind fun _ => Item.growing_ofTokens scope _

theorem growing_value (tokens : List Token) : (value scope macros tokens).Growing :=
  (growing_prepare scope macros tokens).bind fun items =>
    (Group.growing_single (Group.growing_block maxNesting) items).bind fun _ =>
      growing_ofOption _ _

theorem growing_assignWhole (name : String) (v : Variable) :
    (assignWhole scope name v).Growing := by
  unfold assignWhole
  split
  · exact (growing_ofExcept _).bind fun _ => (growing_emit _).bind fun _ => growing_pure _
  · exact (growing_allocate _).bind fun _ => (growing_ofExcept _).bind fun _ =>
      (growing_emit _).bind fun _ => growing_pure _

theorem growing_assignPlaces (name : String) (target : List Token) (v : Variable) :
    (assignPlaces scope macros name target v).Growing := by
  unfold assignPlaces
  split
  · exact (growing_ofExcept _).bind fun _ => (growing_prepare scope macros _).bind fun _ =>
      (Group.growing_address (Group.growing_block maxNesting) _).bind fun _ =>
        (growing_ofExcept _).bind fun _ => (growing_emit _).bind fun _ => growing_pure _
  · exact growing_fail _
  · exact growing_throw _

theorem growing_target (left : List Token) : (target left).Growing := by
  unfold target
  split
  · exact growing_pure _
  · exact growing_throw _

theorem growing_assign (name : String) (left : List Token) (v : Variable) :
    (assign scope macros name left v).Growing := by
  unfold assign
  split
  · exact growing_assignWhole scope name v
  · exact (growing_assignPlaces scope macros name left v).bind fun _ => growing_pure _

theorem growing_finish (count : Nat) (declared : Option (String × Variable)) :
    (finish count declared).Growing :=
  growing_get.bind fun _ => (growing_record _).bind fun _ => (growing_record _).bind fun _ =>
    growing_pure _

/-- **Compiling a statement only adds to the draft**, whether it succeeds or not. -/
theorem growing_compile (tokens : List Token) : (compile scope macros tokens).Growing :=
  (growing_ofExcept _).bind fun (left, right) => (growing_require _ _).bind fun _ =>
    (growing_target left).bind fun name => (growing_value scope macros right).bind fun v =>
      (growing_assign scope macros name left v).bind fun _ => growing_finish _ _

end Statement

end MatrixCalc
