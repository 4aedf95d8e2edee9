import Mathlib
import MatrixCalc.Statement.Assignment

/-!
# Successful runs

A computation on a draft succeeds iff its parts do, one after the other.  The statements of this
file say so for each part of the compilation of a statement: they turn the equation
`m d = .ok a d'` into equations about the parts of `m`, and are used in both directions.

* `bind_eq_ok_iff` : a sequence of two computations.
* `Build.emitRecipe_eq_ok_iff` : emitting adds one blank cell to the store and one operation to the
  program.
* `Macro.oblivious_expand` : what has been recorded makes no difference to an expansion.
-/

namespace MatrixCalc

open EStateM (Result)

/-- The draft with an operation added that writes a new cell. -/
def Draft.emitting (d : Draft) (recipe : Recipe) : Draft :=
  { d with
    store := (d.store.allocate recipe.kind.blank).1
    temporaries := d.temporaries + 1
    program := d.program ++ [recipe.into (d.store.allocate recipe.kind.blank).2]
    log := d.log ++ [.emitted recipe.name] }

/-! ### Steps -/

section Steps

variable {ε σ α β : Type} {s s' : σ}

theorem bind_eq (x : EStateM ε σ α) (f : α → EStateM ε σ β) (s : σ) :
    (x >>= f) s = match x s with
      | .ok a s' => f a s'
      | .error e s' => .error e s' := by
  change EStateM.bind x f s = _
  unfold EStateM.bind
  cases x s <;> rfl

theorem bind_eq_ok_iff {x : EStateM ε σ α} {f : α → EStateM ε σ β} {b : β} :
    (x >>= f) s = .ok b s' ↔ ∃ a s₁, x s = .ok a s₁ ∧ f a s₁ = .ok b s' := by
  rw [bind_eq]
  cases x s <;> simp [and_assoc]

theorem bind_eq_error_iff {x : EStateM ε σ α} {f : α → EStateM ε σ β} {e : ε} :
    (x >>= f) s = .error e s' ↔
      x s = .error e s' ∨ ∃ a s₁, x s = .ok a s₁ ∧ f a s₁ = .error e s' := by
  rw [bind_eq]
  cases x s <;> simp [and_assoc]

theorem pure_eq_ok_iff {a b : α} : (pure a : EStateM ε σ α) s = .ok b s' ↔ a = b ∧ s = s' := by
  change Result.ok a s = .ok b s' ↔ _
  simp

theorem throw_ne_ok {e : ε} {a : α} : (throw e : EStateM ε σ α) s ≠ .ok a s' := by
  change Result.error e s ≠ .ok a s'
  simp

theorem except_bind_eq_ok_iff {x : Except ε α} {f : α → Except ε β} {b : β} :
    (x >>= f) = .ok b ↔ ∃ a, x = .ok a ∧ f a = .ok b := by
  cases x with
  | ok a => exact ⟨fun h => ⟨a, rfl, h⟩, fun ⟨_, eq, h⟩ => by cases eq; exact h⟩
  | error e => exact ⟨nofun, fun ⟨_, eq, _⟩ => by cases eq⟩

theorem except_bind_eq_error_iff {x : Except ε α} {f : α → Except ε β} {e : ε} :
    (x >>= f) = .error e ↔ x = .error e ∨ ∃ a, x = .ok a ∧ f a = .error e := by
  cases x with
  | ok a =>
    change f a = _ ↔ _
    simp
  | error e' =>
    change Except.error e' = _ ↔ _
    simp

theorem except_pure_eq_ok_iff {a b : α} : (pure a : Except ε α) = .ok b ↔ a = b :=
  ⟨fun h => by cases h; rfl, fun h => by rw [h]; rfl⟩

theorem except_mapError_eq_ok_iff {ε' : Type} {f : ε → ε'} {x : Except ε α} {a : α} :
    x.mapError f = .ok a ↔ x = .ok a := by
  cases x <;> simp [Except.mapError]

end Steps

theorem Logged.ofExcept_eq_ok_iff {α : Type} {r : Except Error α} {a : α} {log log' : List Event} :
    ofExcept r log = .ok a log' ↔ r = .ok a ∧ log = log' := by
  cases r with
  | ok value => simp [ofExcept, pure_eq_ok_iff]
  | error e => simp [ofExcept, throw_ne_ok]

theorem Logged.record_eq (e : Event) (log : List Event) : record e log = .ok () (log ++ [e]) := rfl

namespace Build

variable {α β : Type} {d d' : Draft}

theorem fail_ne_ok {cause : Malformed} {a : α} : (fail cause : Build α) d ≠ .ok a d' :=
  throw_ne_ok

theorem get_eq_ok_iff {a : Draft} : (get : Build Draft) d = .ok a d' ↔ a = d ∧ d = d' := by
  change Result.ok d d = .ok a d' ↔ _
  simp [eq_comm]

theorem ofExcept_eq_ok_iff {r : Except Malformed α} {a : α} :
    ofExcept r d = .ok a d' ↔ r = .ok a ∧ d = d' := by
  cases r with
  | ok value => simp [ofExcept, pure_eq_ok_iff]
  | error cause => simp [ofExcept, fail_ne_ok]

theorem ofOption_eq_ok_iff {cause : Malformed} {o : Option α} {a : α} :
    ofOption cause o d = .ok a d' ↔ o = some a ∧ d = d' := by
  cases o with
  | some value => simp [ofOption, pure_eq_ok_iff]
  | none => simp [ofOption, fail_ne_ok]

theorem require_eq_ok_iff {condition : Bool} {cause : Malformed} {u : Unit} :
    require condition cause d = .ok u d' ↔ condition = true ∧ d = d' := by
  cases condition <;> simp [require, pure_eq_ok_iff, fail_ne_ok]

theorem record_eq (e : Event) (d : Draft) : record e d = .ok () { d with log := d.log ++ [e] } :=
  rfl

theorem ofLogged_eq_ok_iff {m : Logged α} {a : α} :
    ofLogged m d = .ok a d' ↔ ∃ log, m d.log = .ok a log ∧ { d with log } = d' := by
  simp only [ofLogged]
  cases m d.log <;> simp [and_assoc]

/-! ### Cells and operations -/

theorem create_eq {kind : Kind} (value : kind.Content) (d : Draft) :
    create value d = .ok (d.store.allocate value).2
      { d with store := (d.store.allocate value).1, temporaries := d.temporaries + 1 } :=
  rfl

theorem allocate_eq {kind : Kind} (value : kind.Content) (d : Draft) :
    allocate value d = .ok (d.store.allocate value).2
      { d with store := (d.store.allocate value).1 } :=
  rfl

theorem integerLiteral_eq (value : Int64) (d : Draft) :
    integerLiteral value d = .ok ⟨.integer, (@Store.allocate d.store .integer value).2⟩
      { d with
        store := (@Store.allocate d.store .integer value).1
        temporaries := d.temporaries + 1
        constants := ((@Store.allocate d.store .integer value).2, value) :: d.constants } :=
  rfl

theorem doubleLiteral_eq (value : Float) (d : Draft) :
    doubleLiteral value d = .ok ⟨.double, (@Store.allocate d.store .double value).2⟩
      { d with
        store := (@Store.allocate d.store .double value).1
        temporaries := d.temporaries + 1 } :=
  rfl

theorem sequenceVariable_eq (value : IndexSequence) (d : Draft) :
    sequenceVariable value d = .ok ⟨.sequence, (@Store.allocate d.store .sequence value).2⟩
      { d with
        store := (@Store.allocate d.store .sequence value).1
        temporaries := d.temporaries + 1 } :=
  rfl

theorem emit_eq (op : Operation) (d : Draft) :
    emit op d = .ok op.output
      { d with program := d.program ++ [op], log := d.log ++ [.emitted op.name] } :=
  rfl

theorem place_eq_ok_iff {r : Except Malformed Recipe} {op : Operation} :
    place r d = .ok op d' ↔ ∃ recipe, r = .ok recipe ∧
      op = recipe.into (d.store.allocate recipe.kind.blank).2 ∧
      d' = { d with
        store := (d.store.allocate recipe.kind.blank).1
        temporaries := d.temporaries + 1 } := by
  simp only [place, bind_eq_ok_iff, ofExcept_eq_ok_iff, pure_eq_ok_iff, create_eq]
  constructor
  · rintro ⟨recipe, _, ⟨h, rfl⟩, _, _, h', rfl, rfl⟩
    cases h'
    exact ⟨recipe, h, rfl, rfl⟩
  · rintro ⟨recipe, h, rfl, rfl⟩
    exact ⟨recipe, d, ⟨h, rfl⟩, _, _, rfl, rfl, rfl⟩

theorem emitRecipe_eq_ok_iff {r : Except Malformed Recipe} {v : Variable} :
    emitRecipe r d = .ok v d' ↔ ∃ recipe, r = .ok recipe ∧
      v = ⟨recipe.kind, (d.store.allocate recipe.kind.blank).2⟩ ∧ d' = d.emitting recipe := by
  simp only [emitRecipe, bind_eq_ok_iff, place_eq_ok_iff, emit_eq]
  constructor
  · rintro ⟨_, _, ⟨recipe, h, rfl, rfl⟩, h'⟩
    cases h'
    exact ⟨recipe, h, rfl, rfl⟩
  · rintro ⟨recipe, h, rfl, rfl⟩
    exact ⟨_, _, ⟨recipe, h, rfl, rfl⟩, rfl⟩

end Build

/-! ### Expansion and events -/

namespace Logged

variable {α β : Type}

/-- The answer, or the failure, does not depend on the events recorded before. -/
def Oblivious (m : Logged α) : Prop :=
  (∃ a, ∀ log, ∃ log', m log = .ok a log') ∨ ∃ e, ∀ log, ∃ log', m log = .error e log'

theorem oblivious_pure (a : α) : (pure a : Logged α).Oblivious := .inl ⟨a, fun log => ⟨log, rfl⟩⟩

theorem oblivious_throw (e : Error) : (throw e : Logged α).Oblivious :=
  .inr ⟨e, fun log => ⟨log, rfl⟩⟩

theorem oblivious_record (e : Event) : (record e).Oblivious := .inl ⟨(), fun _ => ⟨_, rfl⟩⟩

theorem oblivious_ofExcept (x : Except Error α) : (ofExcept x).Oblivious := by
  cases x with
  | ok a => exact oblivious_pure a
  | error e => exact oblivious_throw e

theorem Oblivious.bind {m : Logged α} {f : α → Logged β} (h : m.Oblivious)
    (hf : ∀ a, (f a).Oblivious) : Oblivious (m >>= f) := by
  rcases h with ⟨a, runs⟩ | ⟨e, fails⟩
  · rcases hf a with ⟨b, more⟩ | ⟨e, fails⟩
    · refine .inl ⟨b, fun log => ?_⟩
      obtain ⟨between, first⟩ := runs log
      rw [bind_eq, first]
      exact more between
    · refine .inr ⟨e, fun log => ?_⟩
      obtain ⟨between, first⟩ := runs log
      rw [bind_eq, first]
      exact fails between
  · refine .inr ⟨e, fun log => ?_⟩
    obtain ⟨after, failed⟩ := fails log
    exact ⟨after, by rw [bind_eq, failed]⟩

end Logged

namespace Macro

open Logged

theorem oblivious_replaceCalls (table : Bindings Macro)
    {expandInner : List Token → Logged (List Token)} (h : ∀ tokens, (expandInner tokens).Oblivious)
    (tokens : List Token) : (replaceCalls table expandInner tokens).Oblivious := by
  fun_induction replaceCalls table expandInner tokens with
  | case1 => exact oblivious_pure _
  | case2 _ _ _ ih => exact ih.bind fun _ => oblivious_pure _
  | case3 => exact oblivious_throw _
  | case4 _ _ m _ inside _ rest _ ih =>
    exact (oblivious_ofExcept _).bind fun _ => (oblivious_record _).bind fun _ =>
      (h _).bind fun _ => ih.bind fun _ => oblivious_pure _
  | case5 _ _ _ ih => exact ih.bind fun _ => oblivious_pure _

/-- What tokens expand to does not depend on the events recorded before. -/
theorem oblivious_expand (table : Bindings Macro) (tokens : List Token) :
    (expand table tokens).Oblivious := by
  have within : ∀ allowance tokens, (expandWithin table allowance tokens).Oblivious := by
    intro allowance
    induction allowance with
    | zero => exact fun _ => oblivious_throw _
    | succ allowance ih => exact oblivious_replaceCalls table ih
  unfold expand
  split
  · exact oblivious_pure _
  · exact within _ _

end Macro

end MatrixCalc
