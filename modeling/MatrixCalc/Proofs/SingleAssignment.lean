import MatrixCalc.Proofs.Compilation
import MatrixCalc.Proofs.Conservation

/-!
# Statements are linear single-assignment programs

The operations of a compiled statement, up to the last one, write different new variables, none of
them a literal.  An operation reads what was there before the statement, literals, sequences that
nothing writes, and what earlier operations have computed; and whatever is computed is read by
exactly one later operation.

* `Draft.Progress` : the invariant of a draft together with the variables that are still to be used.
* `Draft.Progress.singleAssignment` : the operation that uses what is left completes the program.
-/

namespace MatrixCalc

/-! ### Numerals -/

/-- The token is a number. -/
def Token.isNumeral : Token → Bool
  | integer _ | double _ => true
  | symbol _ | word _ => false

/-- The variable holds the number that a token is. -/
def Store.Holds (s : Store) : Variable → Token → Prop
  | ⟨.integer, cell⟩, .integer n => s.read cell = n
  | ⟨.double, cell⟩, .double x => s.read cell = x
  | _, _ => False

theorem Store.Holds.mono {s s' : Store} {v : Variable} {t : Token} (h : s.Holds v t)
    (has : s.Has v.cell) (larger : s.Extends s') : s'.Holds v t := by
  rcases v with ⟨_ | _ | _ | _, cell⟩ <;> cases t <;> first
    | exact (larger.read has).trans h
    | exact h

namespace Draft

variable {base : Store} {literals : List Variable} {d d' : Draft}

/-! ### Literals -/

theorem Defined.more_literals {done : Program} {v : Variable} (h : Defined base literals done v)
    (new : List Variable) : Defined base (literals ++ new) done v :=
  h.imp_right (.imp_left (List.mem_append_left _))

/-- A new scalar variable is one more literal. -/
theorem Sound.addLiteral (sound : d.Sound base literals) {k : Kind} (value : k.Content)
    (scalar : k ≠ .sequence) {constants : List (Cell .integer × Int64)}
    (noted : ∀ entry ∈ constants, entry ∈ d.constants ∨
      (⟨.integer, entry.1⟩ : Variable) = ⟨k, (d.store.allocate value).2⟩) :
    ({ d.create value with constants } : Draft).Sound base
      (literals ++ [⟨k, (d.store.allocate value).2⟩]) := by
  have wide : (d.create value).Sound base literals :=
    sound.widen (d.grows_create value).extends
      (sound.closed.allocate fun c mem => by
        rw [Kind.cellsOf_of_ne scalar] at mem
        cases mem) rfl rfl
  generalize new : (⟨k, (d.store.allocate value).2⟩ : Variable) = v at noted ⊢
  have has : (d.create value).store.Has v.cell := by
    rw [← new]
    exact d.store.has_allocate value
  have fresh : ¬ d.store.Has v.cell := by
    rw [← new]
    exact d.store.not_has_allocate value
  refine ⟨wide.old, wide.closed, ?_, ?_, wide.nodup, ?_, ?_⟩
  · intro w mem
    rcases List.mem_append.1 mem with mem | last
    · exact wide.literal w mem
    · obtain rfl := List.mem_singleton.1 last
      refine ⟨has, fun old => fresh (sound.old.has old), ?_⟩
      rwa [← new]
  · intro entry mem
    rcases noted entry mem with old | eq
    · exact List.mem_append_left _ (sound.constants entry old)
    · exact List.mem_append_right _ (List.mem_singleton.2 eq)
  · -- no operation of the draft has written it, since it is new
    intro w mem
    obtain ⟨has', created, other, kind'⟩ := wide.outputs w mem
    refine ⟨has', created, fun literal => ?_, kind'⟩
    rcases List.mem_append.1 literal with literal | last
    · exact other literal
    · obtain rfl := List.mem_singleton.1 last
      exact fresh (sound.outputs w mem).1
  · intro done op rest cut w mem
    obtain ⟨has', defined⟩ := wide.ordered done op rest cut w mem
    exact ⟨has', defined.more_literals _⟩

/-! ### Progress -/

/-- A sound draft with the variables `held` that are still to be used: every new variable that is
neither a literal nor a sequence has been computed as often as it has been read or is held. -/
structure Progress (base : Store) (literals : List Variable) (d : Draft) (held : List Variable) :
    Prop where
  /-- The draft is sound. -/
  sound : d.Sound base literals
  /-- What is held can be read. -/
  available : ∀ v ∈ held, d.Available base literals v
  /-- What has been computed is to be used once. -/
  settled : ∀ ⦃final : Store⦄, d.store.Extends final → ∀ x : Variable, x ∉ literals →
    x.kind ≠ .sequence → ¬ base.Has x.cell →
    (final.readsOf d.program).count x + (held.flatMap final.reach).count x =
      d.program.outputs.count x

variable {held kept : List Variable}

theorem Progress.start (closed : base.Closed) : Progress base [] { store := base } [] where
  sound := {
    old := .refl _
    closed := closed
    literal := by simp
    constants := by simp
    nodup := List.nodup_nil
    outputs := nofun
    ordered := by simp }
  available := by simp
  settled _ _ _ _ _ _ := rfl

/-- What is reported is no part of a program. -/
theorem Progress.report (h : d.Progress base literals held) (log : List Event) :
    ({ d with log } : Draft).Progress base literals held :=
  ⟨h.sound.widen (.refl _) h.sound.closed rfl rfl, h.available, h.settled⟩

/-- A linear computation uses some of what is held. -/
theorem Progress.step {α : Type} {m : Build α} {taken : List Variable} {given : α → List Variable}
    {a : α} (h : d.Progress base literals (taken ++ kept)) (linear : m.Linear taken given)
    (run : m d = .ok a d') : d'.Progress base literals (given a ++ kept) := by
  have leads := linear run h.sound fun v mem => h.available v (List.mem_append_left _ mem)
  refine ⟨leads.sound, fun v mem => ?_, fun final ext x new kind created => ?_⟩
  · rcases List.mem_append.1 mem with mem | mem
    · exact leads.available v mem
    · exact (h.available v (List.mem_append_right _ mem)).mono leads.grows
  · have law := leads.balanced ext x new kind
    have before := h.settled (leads.grows.extends.trans ext) x new kind created
    simp only [List.flatMap_append, List.count_append] at before ⊢
    omega

/-- What the first variables and the literals reach is none of the computed variables. -/
theorem available_of_old (sound : d.Sound base literals) (closed : base.Closed) {v : Variable}
    (h : v ∈ literals ∨ base.Has v.cell) : d.Available base literals v ∧
      ∀ w ∈ d.store.reach v, w ∈ literals ∨ base.Has w.cell := by
  have reached : ∀ w ∈ d.store.reach v, w ∈ literals ∨ base.Has w.cell := by
    intro w mem
    rcases h with literal | old
    · rw [Store.reach_of_kind (sound.literal v literal).2.2] at mem
      obtain rfl := List.mem_singleton.1 mem
      exact .inl literal
    · rw [sound.old.reach old] at mem
      exact .inr (closed.has_of_mem_reach old mem)
  refine ⟨fun w mem => ?_, reached⟩
  rcases reached w mem with literal | old
  · exact ⟨(sound.literal w literal).1, .inr (.inl literal)⟩
  · exact ⟨sound.old.has old, .inl old⟩

end Draft

/-! ### Preparing tokens -/

section Prepare

open Build Item

variable {base : Store} {literals : List Variable} {d d' : Draft} {scope : Bindings Variable}

/-- The literals of some tokens are new, and hold the numbers among them. -/
structure Draft.Prepares (base : Store) (literals : List Variable) (d : Draft)
    (tokens : List Token) (d' : Draft) (items : List Item) (new : List Variable) : Prop where
  grows : d.Grows d'
  program : d'.program = d.program
  sound : d'.Sound base (literals ++ new)
  values : ∀ v ∈ values items, v ∈ new ∨ base.Has v.cell
  created : ∀ v : Variable, d'.store.Has v.cell → d.store.Has v.cell ∨ v ∈ new
  holds : List.Forall₂ d'.store.Holds new (tokens.filter Token.isNumeral)

theorem Item.prepares_ofToken (bound : ∀ name v, scope.find? name = some v → base.Has v.cell)
    {t : Token} {item : Item} (sound : d.Sound base literals)
    (run : ofToken scope t d = .ok item d') :
    ∃ new, d.Prepares base literals [t] d' [item] new := by
  cases t with
  | symbol s =>
    obtain ⟨rfl, rfl⟩ := pure_eq_ok_iff.1 run
    exact ⟨[], .refl, rfl, by rwa [List.append_nil], by simp, fun _ => .inl, .nil⟩
  | word name =>
    obtain ⟨rfl, ⟨v, found, rfl⟩ | ⟨-, f, -, rfl⟩⟩ := ofToken_word_eq_ok_iff.1 run
    · refine ⟨[], .refl, rfl, by rwa [List.append_nil], fun w mem => .inr ?_, fun _ => .inl, .nil⟩
      obtain rfl := List.mem_singleton.1 mem
      exact bound name w found
    · exact ⟨[], .refl, rfl, by rwa [List.append_nil], by simp, fun _ => .inl, .nil⟩
  | integer n =>
    simp only [ofToken, bind_eq_ok_iff, pure_eq_ok_iff] at run
    obtain ⟨v, _, made, rfl, rfl⟩ := run
    have grows := (growing_integerLiteral n).of_ok made
    rw [integerLiteral_eq] at made
    cases made
    refine ⟨[⟨.integer, (@Store.allocate d.store .integer n).2⟩], grows, rfl,
      sound.addLiteral (k := .integer) n Kind.noConfusion fun entry mem => ?_,
      fun w mem => .inl mem, fun w has => ?_,
      .cons (@Store.read_allocate_self d.store .integer n) .nil⟩
    · rcases List.mem_cons.1 mem with rfl | old
      · exact .inr rfl
      · exact .inl old
    · exact (@Store.has_or_eq_of_allocate d.store .integer _ n _ has).imp_right List.mem_singleton.2
  | double x =>
    simp only [ofToken, bind_eq_ok_iff, pure_eq_ok_iff] at run
    obtain ⟨v, _, made, rfl, rfl⟩ := run
    have grows := (growing_doubleLiteral x).of_ok made
    rw [doubleLiteral_eq] at made
    cases made
    exact ⟨[⟨.double, (@Store.allocate d.store .double x).2⟩], grows, rfl,
      sound.addLiteral (k := .double) x Kind.noConfusion fun entry mem => .inl mem,
      fun w mem => .inl mem,
      fun w has => (@Store.has_or_eq_of_allocate d.store .double _ x _ has).imp_right
        List.mem_singleton.2,
      .cons (@Store.read_allocate_self d.store .double x) .nil⟩

theorem Item.prepares_ofTokens (bound : ∀ name v, scope.find? name = some v → base.Has v.cell)
    {tokens : List Token} {items : List Item} (sound : d.Sound base literals)
    (run : ofTokens scope tokens d = .ok items d') :
    ∃ new, d.Prepares base literals tokens d' items new := by
  induction tokens generalizing d literals items with
  | nil =>
    obtain ⟨rfl, rfl⟩ := pure_eq_ok_iff.1 run
    exact ⟨[], .refl, rfl, by rwa [List.append_nil], by simp, fun _ => .inl, .nil⟩
  | cons t tokens ih =>
    simp only [ofTokens, bind_eq_ok_iff, pure_eq_ok_iff] at run
    obtain ⟨item, d₁, first, rest, _, second, rfl, rfl⟩ := run
    obtain ⟨new₁, one⟩ := prepares_ofToken bound sound first
    obtain ⟨new₂, two⟩ := ih one.sound second
    refine ⟨new₁ ++ new₂, one.grows.trans two.grows, two.program.trans one.program, ?_, ?_,
      fun v has => ?_, ?_⟩
    · rw [← List.append_assoc]
      exact two.sound
    · intro v mem
      rw [values_cons] at mem
      rcases List.mem_append.1 mem with mem | mem
      · exact (one.values v mem).imp_left (List.mem_append_left _)
      · exact (two.values v mem).imp_left (List.mem_append_right _)
    · rcases two.created v has with before | mem
      · exact (one.created v before).imp_right (List.mem_append_left _)
      · exact .inr (List.mem_append_right _ mem)
    · have has : ∀ v ∈ new₁, d₁.store.Has v.cell := fun v mem =>
        (one.sound.literal v (List.mem_append_right _ mem)).1
      have kept := ((List.forall₂_and_left _ _).2 ⟨has, one.holds⟩).imp fun v t both =>
        both.2.mono both.1 two.grows.extends
      rw [← List.singleton_append, List.filter_append]
      exact List.rel_append kept two.holds

/-- Prepared tokens are held: their variables are old, or new literals. -/
theorem Draft.Progress.prepare {held : List Variable} {tokens : List Token} {items : List Item}
    {new : List Variable} (h : d.Progress base literals held) (closed : base.Closed)
    (run : d.Prepares base literals tokens d' items new) :
    d'.Progress base (literals ++ new) (values items ++ held) := by
  have old : ∀ v ∈ values items, d'.Available base (literals ++ new) v ∧
      ∀ w ∈ d'.store.reach v, w ∈ literals ++ new ∨ base.Has w.cell := fun v mem =>
    available_of_old run.sound closed ((run.values v mem).imp_left (List.mem_append_right _))
  refine ⟨run.sound, fun v mem => ?_, fun final ext x other kind created => ?_⟩
  · rcases List.mem_append.1 mem with mem | mem
    · exact (old v mem).1
    · intro w reached
      obtain ⟨has, defined⟩ := (h.available v mem).mono run.grows w reached
      exact ⟨has, defined.more_literals new⟩
  · have none : ((values items).flatMap final.reach).count x = 0 := by
      refine List.count_eq_zero.2 fun mem => ?_
      obtain ⟨v, value, reached⟩ := List.mem_flatMap.1 mem
      rw [ext.reach (old v value).1.has] at reached
      rcases (old v value).2 x reached with literal | has
      · exact other literal
      · exact created has
    have law := h.settled (run.grows.extends.trans ext) x
      (fun literal => other (List.mem_append_left _ literal)) kind created
    rw [run.program, List.flatMap_append, List.count_append, none, Nat.zero_add]
    exact law

end Prepare

/-! ### The last operation -/

/-- What is counted once in all is counted in one place. -/
theorem countP_mem_of_count_flatMap {α β : Type} [DecidableEq β] {f : α → List β} {xs : List α}
    {x : β} (h : (xs.flatMap f).count x = 1) : xs.countP (fun a => decide (x ∈ f a)) = 1 := by
  induction xs with
  | nil => cases h
  | cons a xs ih =>
    rw [List.flatMap_cons, List.count_append] at h
    by_cases here : x ∈ f a
    · have some : 0 < (f a).count x := List.count_pos_iff.2 here
      have none : x ∉ xs.flatMap f := List.count_eq_zero.1 (by omega)
      rw [List.countP_cons_of_pos (by simpa using here), List.countP_eq_zero.2 fun b mem => ?_]
      simpa using fun there => none (List.mem_flatMap.2 ⟨b, mem, there⟩)
    · rw [List.count_eq_zero.2 here, Nat.zero_add] at h
      rw [List.countP_cons_of_neg (by simpa using here), ih h]

/-- **A linear single-assignment program**, compiled from the store `before` to the store `after`,
in which the cells of `literals` hold the literals of the statement.  A variable is new if it is not
in the store `before`. -/
structure SingleAssignment (before after : Store) (literals : List Variable) (program : Program) :
    Prop where
  /-- Literals have new cells. -/
  literals_new : ∀ v ∈ literals, after.Has v.cell ∧ ¬ before.Has v.cell
  /-- No operation writes a literal. -/
  literals_kept : ∀ op ∈ program, op.output ∉ literals
  /-- No two operations but the last write the same variable. -/
  outputs_nodup : (Program.outputs program.dropLast).Nodup
  /-- All operations but the last write new variables. -/
  outputs_new : ∀ op ∈ program.dropLast, after.Has op.target ∧ ¬ before.Has op.target
  /-- A new variable that an operation reads is a literal, a sequence that is never written, or the
  output of an earlier operation. -/
  reads_defined : ∀ done op rest, program = done ++ op :: rest → ∀ v ∈ after.reads op.term,
    ¬ before.Has v.cell → v ∈ literals ∨
      (v.kind = .sequence ∧ v ∉ Program.outputs program) ∨ v ∈ Program.outputs done
  /-- The output of an operation that is not the last is read once, by one later operation. -/
  outputs_used : ∀ done op rest, program = done ++ op :: rest → rest ≠ [] →
    (after.readsOf rest).count op.output = 1 ∧
      rest.countP (fun later => decide (op.output ∈ after.reads later.term)) = 1

/-- What the program reads exists. -/
def Store.HasReads (s : Store) (program : Program) : Prop :=
  ∀ op ∈ program, ∀ v ∈ s.reads op.term, s.Has v.cell

namespace Draft

variable {base after : Store} {literals held old : List Variable} {d : Draft} {op : Operation}

/-- An operation whose operands are held or old reads what is defined. -/
theorem Progress.reads_defined (h : d.Progress base literals held) (closed : base.Closed)
    (larger : d.store.Extends after) (operands : op.term.operands.Perm (held ++ old))
    (olds : ∀ v ∈ old, base.Has v.cell) : ∀ v ∈ after.reads op.term,
      d.store.Has v.cell ∧ Defined base literals d.program v := by
  intro v mem
  obtain ⟨w, operand, reached⟩ := List.mem_flatMap.1 mem
  have usable : d.Available base literals w := by
    rcases List.mem_append.1 (operands.mem_iff.1 operand) with mem | mem
    · exact h.available w mem
    · exact (available_of_old h.sound closed (.inr (olds w mem))).1
  rw [larger.reach usable.has] at reached
  exact usable v reached

/-- The same of the operations before it. -/
theorem Progress.all_reads_defined (h : d.Progress base literals held) (closed : base.Closed)
    (larger : d.store.Extends after) (operands : op.term.operands.Perm (held ++ old))
    (olds : ∀ v ∈ old, base.Has v.cell) {done rest : Program} {o : Operation}
    (cut : d.program ++ [op] = done ++ o :: rest) : ∀ v ∈ after.reads o.term,
      d.store.Has v.cell ∧ Defined base literals done v := by
  intro v mem
  rcases append_singleton_eq_iff.1 cut with ⟨-, rfl, rfl⟩ | ⟨rest, -, cut⟩
  · exact h.reads_defined closed larger operands olds v mem
  · rw [larger.reads fun w operand => h.sound.has_operand (by rw [cut]; simp) operand] at mem
    exact h.sound.ordered done o rest cut v mem

/-- With an operation that uses all that is held, what has been computed is read once. -/
theorem Progress.count_reads (h : d.Progress base literals held) (closed : base.Closed)
    (larger : d.store.Extends after) (operands : op.term.operands.Perm (held ++ old))
    (olds : ∀ v ∈ old, base.Has v.cell) {x : Variable} (mem : x ∈ d.program.outputs) :
    (after.readsOf (d.program ++ [op])).count x = 1 := by
  obtain ⟨has, new, other, kind⟩ := h.sound.outputs x mem
  have none : (old.flatMap after.reach).count x = 0 := by
    refine List.count_eq_zero.2 fun reached => ?_
    obtain ⟨w, mem, reached⟩ := List.mem_flatMap.1 reached
    rw [larger.reach (h.sound.old.has (olds w mem)), h.sound.old.reach (olds w mem)] at reached
    exact new (closed.has_of_mem_reach (olds w mem) reached)
  have last : (after.readsOf [op]).count x = (held.flatMap after.reach).count x := by
    have all : after.readsOf [op] = op.term.operands.flatMap after.reach :=
      List.flatMap_singleton _ _
    rw [all, (operands.flatMap_right _).count_eq, List.flatMap_append, List.count_append, none]
    rfl
  have law := h.settled larger x other kind new
  rw [List.count_eq_one_of_mem h.sound.nodup mem] at law
  rw [Store.readsOf_append, List.count_append, last]
  exact law

/-- Nothing up to an operation reads its output: it would have been written twice. -/
theorem Progress.not_read_before (h : d.Progress base literals held) (closed : base.Closed)
    (larger : d.store.Extends after) (operands : op.term.operands.Perm (held ++ old))
    (olds : ∀ v ∈ old, base.Has v.cell) {done rest : Program} {o : Operation}
    (cut : d.program = done ++ o :: rest) : o.output ∉ after.readsOf (done ++ [o]) := by
  obtain ⟨-, new, other, kind⟩ := h.sound.outputs o.output (by rw [cut]; simp [Program.outputs])
  intro reached
  obtain ⟨p, member, reached⟩ := List.mem_flatMap.1 reached
  obtain ⟨first, middle, split⟩ := List.append_of_mem member
  have cut' : d.program ++ [op] = first ++ p :: (middle ++ (rest ++ [op])) := by
    rw [cut, List.append_assoc, List.cons_append, List.append_cons done, split]
    simp
  obtain ⟨-, was | literal | sequence | earlier⟩ :=
    h.all_reads_defined closed larger operands olds cut' _ reached
  · exact new was
  · exact other literal
  · exact kind sequence
  · have within : o.output ∈ Program.outputs done := by
      rcases append_singleton_eq_iff.1 split with ⟨-, rfl, -⟩ | ⟨_, -, rfl⟩
      · exact earlier
      · rw [Program.outputs_append]
        exact List.mem_append_left _ earlier
    have nodup := h.sound.nodup
    rw [cut, Program.outputs_append] at nodup
    exact (List.nodup_append.1 nodup).2.2 _ within _ (by simp [Program.outputs]) rfl

theorem Progress.hasReads (h : d.Progress base literals held) (closed : base.Closed)
    (larger : d.store.Extends after) (operands : op.term.operands.Perm (held ++ old))
    (olds : ∀ v ∈ old, base.Has v.cell) : after.HasReads (d.program ++ [op]) := by
  intro o mem v reads
  obtain ⟨done, rest, cut⟩ := List.append_of_mem mem
  exact larger.has (h.all_reads_defined closed larger operands olds cut v reads).1

/-- An operation that uses all that is held, and writes an old variable or one that is newer than
the draft, completes the program. -/
theorem Progress.singleAssignment (h : d.Progress base literals held) (closed : base.Closed)
    (larger : d.store.Extends after) (operands : op.term.operands.Perm (held ++ old))
    (olds : ∀ v ∈ old, base.Has v.cell) (target : base.Has op.target ∨ ¬ d.store.Has op.target) :
    SingleAssignment base after literals (d.program ++ [op]) := by
  have sound := h.sound
  have written : ∀ o ∈ d.program, o.output ∈ d.program.outputs := fun o mem =>
    List.mem_map_of_mem mem
  refine ⟨fun v mem => ?_, fun o mem => ?_, ?_, fun o mem => ?_,
    fun done o rest cut v mem new => ?_, fun done o rest cut behind => ?_⟩
  · exact ⟨larger.has (sound.literal v mem).1, (sound.literal v mem).2.1⟩
  · rcases List.mem_append.1 mem with mem | mem
    · exact (sound.outputs _ (written o mem)).2.2.1
    · obtain rfl := List.mem_singleton.1 mem
      intro literal
      rcases target with was | new
      · exact (sound.literal _ literal).2.1 was
      · exact new (sound.literal _ literal).1
  · rw [List.dropLast_concat]
    exact sound.nodup
  · rw [List.dropLast_concat] at mem
    obtain ⟨has, new, -⟩ := sound.outputs _ (written o mem)
    exact ⟨larger.has has, new⟩
  · obtain ⟨has, was | literal | kind | computed⟩ :=
      h.all_reads_defined closed larger operands olds cut v mem
    · exact absurd was new
    · exact .inl literal
    · -- no operation before writes a sequence, and the last writes an old or a newer variable
      refine .inr (.inl ⟨kind, fun mem => ?_⟩)
      rw [Program.outputs_append] at mem
      rcases List.mem_append.1 mem with mem | mem
      · exact (sound.outputs v mem).2.2.2 kind
      · obtain rfl := List.mem_singleton.1 mem
        rcases target with was | newer
        · exact new was
        · exact newer has
    · exact .inr (.inr computed)
  · -- the operation is one of the draft
    rcases append_singleton_eq_iff.1 cut with ⟨rfl, -, -⟩ | ⟨rest', rfl, cut'⟩
    · exact absurd rfl behind
    have once := h.count_reads closed larger operands olds (written o (by rw [cut']; simp))
    rw [cut, List.append_cons, Store.readsOf_append, List.count_append, List.count_eq_zero.2
      (h.not_read_before closed larger operands olds cut'), Nat.zero_add] at once
    exact ⟨once, countP_mem_of_count_flatMap once⟩

end Draft

/-! ### Statements -/

namespace Statement

open Build Item

variable {scope : Bindings Variable} {macros : Bindings Macro} {base : Store}
  {literals held : List Variable} {d d' : Draft}

/-- What tokens become when their macros are expanded. -/
def Expands (macros : Bindings Macro) (tokens expanded : List Token) : Prop :=
  ∃ log log', Macro.expand macros tokens log = .ok expanded log'

/-- The variables hold the numbers of a statement: those of its right side, then those between the
brackets of its target, with macros expanded. -/
def Literals (macros : Bindings Macro) (tokens : List Token) (after : Store)
    (literals : List Variable) : Prop :=
  ∃ left right expanded indices, splitAssignment tokens = .ok (left, right) ∧
    Expands macros right expanded ∧
    (left.length = 1 ∧ indices = [] ∨
      ∃ inside, targetIndices left = .ok inside ∧ Expands macros inside indices) ∧
    List.Forall₂ after.Holds literals ((expanded ++ indices).filter Token.isNumeral)

/-- Preparing tokens expands their macros, reports it, and reads what has come out. -/
theorem exists_prepares (bound : ∀ name v, scope.find? name = some v → base.Has v.cell)
    (closed : base.Closed) {tokens : List Token} {items : List Item}
    (h : d.Progress base literals held) (run : prepare scope macros tokens d = .ok items d') :
    ∃ expanded log new, Expands macros tokens expanded ∧
      ofTokens scope expanded { d with log } = .ok items d' ∧
      ({ d with log } : Draft).Prepares base literals expanded d' items new ∧
      d'.Progress base (literals ++ new) (values items ++ held) := by
  obtain ⟨expanded, log, expands, read⟩ := prepare_eq_ok_iff.1 run
  obtain ⟨new, prepared⟩ := prepares_ofTokens bound (h.report log).sound read
  exact ⟨expanded, log, new, ⟨_, _, expands⟩, read, prepared,
    (h.report log).prepare closed prepared⟩

theorem progress_of_prepare (bound : ∀ name v, scope.find? name = some v → base.Has v.cell)
    (closed : base.Closed) {tokens : List Token} {items : List Item}
    (h : d.Progress base literals held) (run : prepare scope macros tokens d = .ok items d') :
    ∃ expanded new, Expands macros tokens expanded ∧
      d'.Progress base (literals ++ new) (values items ++ held) ∧
      List.Forall₂ d'.store.Holds new (expanded.filter Token.isNumeral) := by
  obtain ⟨expanded, log, new, expands, -, prepared, progress⟩ := exists_prepares bound closed h run
  exact ⟨expanded, new, expands, progress, prepared.holds⟩

theorem progress_of_value (bound : ∀ name v, scope.find? name = some v → base.Has v.cell)
    (closed : base.Closed) {tokens : List Token} {v : Variable}
    (run : value scope macros tokens { store := base } = .ok v d') :
    ∃ expanded literals, Expands macros tokens expanded ∧ d'.Progress base literals [v] ∧
      List.Forall₂ d'.store.Holds literals (expanded.filter Token.isNumeral) := by
  obtain ⟨items, d₁, prepared, resolved⟩ := value_eq_ok_iff.1 run
  obtain ⟨expanded, literals, expands, progress, holds⟩ :=
    progress_of_prepare bound closed (Draft.Progress.start closed) prepared
  have grows := (Group.growing_single (Group.growing_block maxNesting) items).of_ok resolved
  have has : ∀ w ∈ literals, d₁.store.Has w.cell := fun w mem => (progress.sound.literal w mem).1
  exact ⟨expanded, literals, expands,
    progress.step (Group.linear_single (Group.linear_block maxNesting) items) resolved,
    ((List.forall₂_and_left _ _).2 ⟨has, holds⟩).imp fun _ _ both =>
      both.2.mono both.1 grows.extends⟩

theorem operands_of_copy {v target : Variable} {op : Operation}
    (h : Operation.copy v target = .ok op) : op.term.operands = [v] ∧ op.output = target := by
  rcases v with ⟨_ | _ | _ | _, x⟩ <;> rcases target with ⟨_ | _ | _ | _, y⟩ <;> cases h <;>
    exact ⟨rfl, rfl⟩

theorem operands_of_insert {v : Variable} {m : Cell .matrix} {address : Address} {op : Operation}
    (h : Operation.insert v m address = .ok op) :
    op.term.operands = ⟨.matrix, m⟩ :: v :: address.variables ∧ op.output = ⟨.matrix, m⟩ := by
  rcases v with ⟨_ | _ | _ | _, x⟩ <;> cases h <;> exact ⟨rfl, rfl⟩

/-- Assigning to a whole variable completes the program of the value. -/
theorem singleAssignment_of_assignWhole
    (bound : ∀ name v, scope.find? name = some v → base.Has v.cell) (closed : base.Closed)
    {name : String} {v : Variable} {declared : Option (String × Variable)}
    (h : d.Progress base literals [v])
    (run : assignWhole scope name v d = .ok declared d') :
    d'.store.Closed ∧ d'.store.HasReads d'.program ∧
      SingleAssignment base d'.store literals d'.program := by
  have operands : ∀ {op : Operation}, op.term.operands = [v] →
      op.term.operands.Perm ([v] ++ []) := fun h => by rw [h, List.append_nil]
  rcases assignWhole_eq_ok_iff.1 run with ⟨target, op, found, copied, -, rfl⟩ |
    ⟨op, -, copied, -, rfl⟩
  · obtain ⟨reads, rfl⟩ := operands_of_copy copied
    exact ⟨h.sound.closed, h.hasReads closed (.refl _) (operands reads) (by simp),
      h.singleAssignment closed (.refl _) (operands reads) (by simp) (.inl (bound name _ found))⟩
  · obtain ⟨reads, output⟩ := operands_of_copy copied
    have new : ¬ d.store.Has op.output.cell := by
      rw [output]
      exact d.store.not_has_allocate v.kind.blank
    have larger := d.store.extends_allocate v.kind.blank
    exact ⟨h.sound.closed.allocate_blank v.kind,
      h.hasReads closed larger (operands reads) (by simp),
      h.singleAssignment closed larger (operands reads) (by simp) (.inr new)⟩

/-- Assigning to places of a matrix completes the program of the value and of the indices. -/
theorem singleAssignment_of_assignPlaces
    (bound : ∀ name v, scope.find? name = some v → base.Has v.cell) (closed : base.Closed)
    {name : String} {left : List Token} {v : Variable} (h : d.Progress base literals [v])
    (run : assignPlaces scope macros name left v d = .ok () d') :
    ∃ inside indices new, targetIndices left = .ok inside ∧ Expands macros inside indices ∧
      List.Forall₂ d'.store.Holds new (indices.filter Token.isNumeral) ∧ d'.store.Closed ∧
      d'.store.HasReads d'.program ∧
      SingleAssignment base d'.store (literals ++ new) d'.program := by
  obtain ⟨m, inside, items, d₁, address, d₂, op, found, cut, prepared, addressed, inserted, rfl⟩ :=
    assignPlaces_eq_ok_iff.1 run
  obtain ⟨indices, new, expands, progress, holds⟩ := progress_of_prepare bound closed h prepared
  have grows := (Group.growing_address (Group.growing_block maxNesting) items).of_ok addressed
  have has : ∀ w ∈ new, d₁.store.Has w.cell := fun w mem =>
    (progress.sound.literal w (List.mem_append_right _ mem)).1
  have done := progress.step (Group.linear_address (Group.linear_block maxNesting) items) addressed
  obtain ⟨reads, output⟩ := operands_of_insert inserted
  have old : base.Has op.target := by
    have := bound name _ found
    rwa [← output] at this
  have operands : op.term.operands.Perm ((address.variables ++ [v]) ++ [⟨.matrix, m⟩]) := by
    rw [reads]
    refine List.perm_iff_count.2 fun x => ?_
    simp only [List.count_append, List.count_cons, List.count_nil]
    omega
  have olds : ∀ w ∈ [(⟨.matrix, m⟩ : Variable)], base.Has w.cell := by
    intro w mem
    obtain rfl := List.mem_singleton.1 mem
    exact bound name _ found
  refine ⟨inside, indices, new, cut, expands, ?_, done.sound.closed,
    done.hasReads closed (.refl _) operands olds,
    done.singleAssignment closed (.refl _) operands olds (.inl old)⟩
  exact ((List.forall₂_and_left _ _).2 ⟨has, holds⟩).imp fun _ _ both =>
    both.2.mono both.1 grows.extends

/-- **A statement compiles to a linear single-assignment program.** -/
theorem singleAssignment_of_compile
    (bound : ∀ name v, scope.find? name = some v → base.Has v.cell) (closed : base.Closed)
    {tokens : List Token} {compiled : Compiled}
    (run : compile scope macros tokens { store := base } = .ok compiled d') :
    d'.store.Closed ∧ d'.store.HasReads compiled.program ∧
      ∃ literals, Literals macros tokens d'.store literals ∧
        SingleAssignment base d'.store literals compiled.program := by
  obtain ⟨left, right, name, v, d₁, declared, d₂, cut, -, -, valued, assigned, rfl, rfl⟩ :=
    compile_eq_ok_iff.1 run
  obtain ⟨expanded, literals, expands, progress, holds⟩ := progress_of_value bound closed valued
  have grows := (growing_assign scope macros name left v).of_ok assigned
  have has : ∀ w ∈ literals, d₁.store.Has w.cell := fun w mem => (progress.sound.literal w mem).1
  have kept := ((List.forall₂_and_left _ _).2 ⟨has, holds⟩).imp fun _ _ both =>
    both.2.mono both.1 grows.extends
  rcases assign_eq_ok_iff.1 assigned with ⟨whole, run⟩ | ⟨-, -, run⟩
  · obtain ⟨closed', reads, program⟩ := singleAssignment_of_assignWhole bound closed progress run
    refine ⟨closed', reads, literals,
      ⟨left, right, expanded, [], cut, expands, .inl ⟨whole, rfl⟩, ?_⟩, program⟩
    rwa [List.append_nil]
  · obtain ⟨inside, indices, new, between, expands', holds', closed', reads, program⟩ :=
      singleAssignment_of_assignPlaces bound closed progress run
    refine ⟨closed', reads, literals ++ new, ⟨left, right, expanded, indices, cut, expands,
      .inr ⟨inside, between, expands'⟩, ?_⟩, program⟩
    rw [List.filter_append]
    exact List.rel_append kept holds'

end Statement

end MatrixCalc
