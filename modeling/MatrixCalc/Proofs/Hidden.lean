import MatrixCalc.Proofs.SingleAssignment

/-!
# What a statement cannot see

A statement sees what the names of its scope are bound to, and the cells of the sequences among
these.  A variable that was there before and that it cannot see is read by none of its operations,
neither directly nor through a sequence: the conservation law leaves no place for it.

* `Store.Hides` : no bound variable is the given one or a sequence that refers to it.
* `Draft.Blind.step` : a part of the compilation that takes nothing hidden finds nothing hidden.
* `Statement.unread_of_compile` : **a statement reads nothing that is hidden.**
* `Statement.kind_of_intermediate`, `Statement.blank_of_declared` : intermediate results are no
  sequences, and a new target is blank.
-/

namespace MatrixCalc

/-- No name of the scope is bound to the variable, or to a sequence that refers to it. -/
def Store.Hides (s : Store) (scope : Bindings Variable) (x : Variable) : Prop :=
  ∀ name v, scope.find? name = some v → x ∉ s.reach v

namespace Draft

variable {base : Store} {literals taken kept : List Variable} {d d' : Draft} {x : Variable}

/-- The operations so far do not read the variable, and what is held does not reach it. -/
structure Blind (d : Draft) (held : List Variable) (x : Variable) : Prop where
  /-- It is not read. -/
  unread : x ∉ d.store.readsOf d.program
  /-- It is not reached. -/
  unheld : ∀ v ∈ held, x ∉ d.store.reach v

theorem Sound.readsOf (sound : d.Sound base literals) {final : Store}
    (larger : d.store.Extends final) : final.readsOf d.program = d.store.readsOf d.program :=
  List.flatMap_congr fun _ mem => larger.reads fun _ operand => sound.has_operand mem operand

/-- A part of the compilation that takes nothing hidden finds nothing hidden. -/
theorem Blind.step {α : Type} {m : Build α} {given : α → List Variable} {a : α}
    (blind : d.Blind (taken ++ kept) x) (h : d.Progress base literals (taken ++ kept))
    (linear : m.Linear taken given) (run : m d = .ok a d') (old : base.Has x.cell)
    (kind : x.kind ≠ .sequence) : d'.Blind (given a ++ kept) x := by
  have leads := linear run h.sound fun v mem => h.available v (List.mem_append_left _ mem)
  have larger := leads.grows.extends
  -- all counts on the side of what is taken are zero
  have law := leads.balanced (.refl _) x (fun literal => (h.sound.literal x literal).2.1 old) kind
  have reads : (d'.store.readsOf d.program).count x = 0 := by
    rw [h.sound.readsOf larger]
    exact List.count_eq_zero.2 blind.unread
  have takes : (taken.flatMap d'.store.reach).count x = 0 := by
    refine List.count_eq_zero.2 fun mem => ?_
    obtain ⟨v, held, reached⟩ := List.mem_flatMap.1 mem
    have held := List.mem_append_left kept held
    rw [larger.reach (h.available v held).has] at reached
    exact blind.unheld v held reached
  have computes : d'.program.outputs.count x = 0 :=
    List.count_eq_zero.2 fun mem => (leads.sound.outputs x mem).2.1 old
  refine ⟨List.count_eq_zero.1 (by omega), fun v mem => ?_⟩
  rcases List.mem_append.1 mem with mem | mem
  · have gives : ((given a).flatMap d'.store.reach).count x = 0 := by omega
    exact fun reached => List.count_eq_zero.1 gives (List.mem_flatMap.2 ⟨v, mem, reached⟩)
  · have held := List.mem_append_right taken mem
    rw [larger.reach (h.available v held).has]
    exact blind.unheld v held

/-- Among the items there is nothing hidden if they are bound or new. -/
theorem Blind.prepare {held : List Variable} {tokens : List Token} {items : List Item}
    {new : List Variable} (blind : d.Blind held x) (h : d.Progress base literals held)
    (run : d.Prepares base literals tokens d' items new) (old : base.Has x.cell)
    (hidden : ∀ v ∈ Item.values items, base.Has v.cell → x ∉ base.reach v) :
    d'.Blind (Item.values items ++ held) x := by
  have larger := run.grows.extends
  constructor
  · rw [run.program, h.sound.readsOf larger]
    exact blind.unread
  · intro v mem
    rcases List.mem_append.1 mem with mem | mem
    · rcases run.values v mem with literal | has
      · -- a literal reaches itself only, and is new
        obtain ⟨-, created, scalar⟩ := run.sound.literal v (List.mem_append_right _ literal)
        rw [Store.reach_of_kind scalar]
        rintro reached
        obtain rfl := List.mem_singleton.1 reached
        exact created old
      · rw [run.sound.old.reach has]
        exact hidden v mem has
    · rw [larger.reach (h.available v mem).has]
      exact blind.unheld v mem

/-- An operation on what is held, and on what does not reach the variable, does not read it. -/
theorem Blind.finish {held : List Variable} (blind : d.Blind held x)
    (h : d.Progress base literals held) {op : Operation} {final : Store}
    (larger : d.store.Extends final)
    (operands : ∀ v ∈ op.term.operands, v ∈ held ∨ base.Has v.cell ∧ x ∉ base.reach v) :
    x ∉ final.readsOf (d.program ++ [op]) := by
  rw [Store.readsOf_append, h.sound.readsOf larger, List.mem_append]
  rintro (read | read)
  · exact blind.unread read
  · have last : final.readsOf [op] = op.term.operands.flatMap final.reach := List.append_nil _
    rw [last] at read
    obtain ⟨v, operand, reached⟩ := List.mem_flatMap.1 read
    rcases operands v operand with held | ⟨has, apart⟩
    · rw [larger.reach (h.available v held).has] at reached
      exact blind.unheld v held reached
    · rw [(h.sound.old.trans larger).reach has] at reached
      exact apart reached

end Draft

/-! ### Statements -/

section Statement

open Build

variable {scope : Bindings Variable} {macros : Bindings Macro} {base : Store}
  {literals held : List Variable} {d d' : Draft} {x : Variable}

theorem Item.bound_ofToken {t : Token} {item : Item} (run : ofToken scope t d = .ok item d') :
    ∀ v ∈ values [item], (∃ name, scope.find? name = some v) ∨ ¬ d.store.Has v.cell := by
  cases t with
  | symbol s =>
    obtain ⟨rfl, rfl⟩ := pure_eq_ok_iff.1 run
    simp
  | word name =>
    obtain ⟨rfl, ⟨v, found, rfl⟩ | ⟨-, f, -, rfl⟩⟩ := ofToken_word_eq_ok_iff.1 run
    · intro w mem
      obtain rfl := List.mem_singleton.1 mem
      exact .inl ⟨name, found⟩
    · simp
  | integer n =>
    simp only [ofToken, bind_eq_ok_iff, pure_eq_ok_iff] at run
    obtain ⟨v, _, made, rfl, rfl⟩ := run
    rw [integerLiteral_eq] at made
    cases made
    intro w mem
    obtain rfl := List.mem_singleton.1 mem
    exact .inr (@Store.not_has_allocate d.store .integer n)
  | double y =>
    simp only [ofToken, bind_eq_ok_iff, pure_eq_ok_iff] at run
    obtain ⟨v, _, made, rfl, rfl⟩ := run
    rw [doubleLiteral_eq] at made
    cases made
    intro w mem
    obtain rfl := List.mem_singleton.1 mem
    exact .inr (@Store.not_has_allocate d.store .double y)

/-- The variables among the items are bound, or new. -/
theorem Item.bound_ofTokens {tokens : List Token} {items : List Item}
    (run : ofTokens scope tokens d = .ok items d') :
    ∀ v ∈ values items, (∃ name, scope.find? name = some v) ∨ ¬ d.store.Has v.cell := by
  induction tokens generalizing d items with
  | nil =>
    obtain ⟨rfl, rfl⟩ := pure_eq_ok_iff.1 run
    simp
  | cons t tokens ih =>
    simp only [ofTokens, bind_eq_ok_iff, pure_eq_ok_iff] at run
    obtain ⟨item, d₁, first, rest, _, second, rfl, rfl⟩ := run
    have larger := ((growing_ofToken scope t).of_ok first).extends
    intro v mem
    rw [values_cons] at mem
    rcases List.mem_append.1 mem with mem | mem
    · exact bound_ofToken first v mem
    · exact (ih second v mem).imp_right fun new has => new (larger.has has)

namespace Statement

variable (bound : ∀ name v, scope.find? name = some v → base.Has v.cell) (closed : base.Closed)

section

variable (old : base.Has x.cell) (hidden : base.Hides scope x)
include bound closed old hidden

theorem blind_of_prepare {tokens : List Token} {items : List Item}
    (h : d.Progress base literals held) (blind : d.Blind held x)
    (run : prepare scope macros tokens d = .ok items d') :
    ∃ new, d'.Progress base (literals ++ new) (Item.values items ++ held) ∧
      d'.Blind (Item.values items ++ held) x := by
  obtain ⟨expanded, log, new, -, read, prepared, progress⟩ := exists_prepares bound closed h run
  have blind' : ({ d with log } : Draft).Blind held x := ⟨blind.unread, blind.unheld⟩
  refine ⟨new, progress, blind'.prepare (h.report log) prepared old ?_⟩
  intro v mem has
  rcases Item.bound_ofTokens read v mem with ⟨name, found⟩ | new
  · exact hidden name v found
  · exact absurd (h.sound.old.has has) new

variable (kind : x.kind ≠ .sequence)
include kind

theorem blind_of_value {tokens : List Token} {v : Variable}
    (run : value scope macros tokens { store := base } = .ok v d') :
    ∃ literals, d'.Progress base literals [v] ∧ d'.Blind [v] x := by
  obtain ⟨items, d₁, prepared, resolved⟩ := value_eq_ok_iff.1 run
  obtain ⟨literals, progress, blind⟩ := blind_of_prepare bound closed old hidden
    (Draft.Progress.start closed) ⟨nofun, nofun⟩ prepared
  have linear := Group.linear_single (Group.linear_block maxNesting) items
  exact ⟨_, progress.step linear resolved, blind.step progress linear resolved old kind⟩

/-- **A statement reads nothing that is hidden**, neither itself nor through a sequence. -/
theorem unread_of_compile {tokens : List Token} {compiled : Compiled}
    (run : compile scope macros tokens { store := base } = .ok compiled d') :
    x ∉ d'.store.readsOf compiled.program := by
  obtain ⟨left, right, name, v, d₁, declared, d₂, -, -, -, valued, assigned, rfl, rfl⟩ :=
    compile_eq_ok_iff.1 run
  obtain ⟨literals, progress, blind⟩ := blind_of_value bound closed old hidden kind valued
  have only : ∀ {op : Operation}, op.term.operands = [v] → ∀ w ∈ op.term.operands,
      w ∈ [v] ∨ base.Has w.cell ∧ x ∉ base.reach w := fun operands w mem => .inl (operands ▸ mem)
  rcases assign_eq_ok_iff.1 assigned with ⟨-, whole⟩ | ⟨-, -, places⟩
  · rcases assignWhole_eq_ok_iff.1 whole with ⟨target, op, -, copied, -, rfl⟩ |
      ⟨op, -, copied, -, rfl⟩
    · exact blind.finish progress (.refl _) (only (operands_of_copy copied).1)
    · exact blind.finish progress (d₁.store.extends_allocate v.kind.blank)
        (only (operands_of_copy copied).1)
  · obtain ⟨m, inside, items, e, address, e₁, op, found, -, prepared, addressed, inserted, rfl⟩ :=
      assignPlaces_eq_ok_iff.1 places
    obtain ⟨new, progress, blind⟩ :=
      blind_of_prepare bound closed old hidden progress blind prepared
    have linear := Group.linear_address (Group.linear_block maxNesting) items
    refine (blind.step progress linear addressed old kind).finish (progress.step linear addressed)
      (.refl _) fun w mem => ?_
    rw [(operands_of_insert inserted).1] at mem
    rcases List.mem_cons.1 mem with rfl | mem
    · exact .inr ⟨bound name _ found, hidden name _ found⟩
    · rw [← List.singleton_append] at mem
      exact .inl (List.mem_append.2 (List.mem_append.1 mem).symm)

end

include bound closed in
/-- Intermediate results are no sequences. -/
theorem kind_of_intermediate {tokens : List Token} {compiled : Compiled}
    (run : compile scope macros tokens { store := base } = .ok compiled d') :
    ∀ v ∈ Program.outputs compiled.program.dropLast, v.kind ≠ .sequence := by
  obtain ⟨left, right, name, v, d₁, declared, d₂, -, -, -, valued, assigned, rfl, rfl⟩ :=
    compile_eq_ok_iff.1 run
  obtain ⟨-, literals, -, progress, -⟩ := progress_of_value bound closed valued
  have first : ∀ {op : Operation}, ∀ w ∈ Program.outputs (d₁.program ++ [op]).dropLast,
      w.kind ≠ .sequence := by
    intro op w mem
    rw [List.dropLast_concat] at mem
    exact (progress.sound.outputs w mem).2.2.2
  rcases assign_eq_ok_iff.1 assigned with ⟨-, whole⟩ | ⟨-, -, places⟩
  · rcases assignWhole_eq_ok_iff.1 whole with ⟨_, _, _, _, -, rfl⟩ | ⟨_, _, _, -, rfl⟩ <;>
      exact first
  · obtain ⟨m, inside, items, e, address, e₁, op, -, -, prepared, addressed, -, rfl⟩ :=
      assignPlaces_eq_ok_iff.1 places
    obtain ⟨_, new, -, progress, -⟩ := progress_of_prepare bound closed progress prepared
    have done :=
      progress.step (Group.linear_address (Group.linear_block maxNesting) items) addressed
    intro w mem
    have init : (e₁.emitted op).program.dropLast = e₁.program := List.dropLast_concat
    have mem : w ∈ Program.outputs (e₁.emitted op).program.dropLast := mem
    rw [init] at mem
    exact (done.sound.outputs w mem).2.2.2

/-- What a statement introduces is blank. -/
theorem blank_of_declared {tokens : List Token} {compiled : Compiled} {name : String}
    {w : Variable} (run : compile scope macros tokens d = .ok compiled d')
    (declared : compiled.declared = some (name, w)) : d'.store.read w.cell = w.kind.blank := by
  obtain ⟨left, right, _, v, d₁, given, d₂, -, -, -, -, assigned, rfl, rfl⟩ :=
    compile_eq_ok_iff.1 run
  obtain rfl : given = some (name, w) := declared
  rcases assign_eq_ok_iff.1 assigned with ⟨-, whole⟩ | ⟨-, none, -⟩
  · rcases assignWhole_eq_ok_iff.1 whole with ⟨_, _, _, _, none, -⟩ | ⟨_, -, _, eq, rfl⟩
    · cases none
    · cases eq
      exact d₁.store.read_allocate_self v.kind.blank
  · cases none

end Statement

end Statement

end MatrixCalc
