import MatrixCalc.Proofs.Reachable

/-!
# What only one program can change

The intermediate results, literals and lists of a compiled statement live in cells that no name is
bound to and that no other program writes.  Whatever is done with a session, this stays so, and what
the statement does not compute itself keeps its content.

* `Statement.outputs_of_compile` : what the operations of a statement write.
* `History.Private.step` : a step leaves private variables private, and keeps what they hold unless
  the program writes them.
* `History.Private.later` : **the same of any number of steps**.
-/

namespace MatrixCalc

/-! ### What programs write -/

/-- Performing keeps what the program does not write. -/
theorem Program.read_perform {program : Program} {s : Store} {v : Variable}
    (h : v ∉ program.outputs) : (program.perform s).1.read v.cell = s.read v.cell := by
  induction program generalizing s with
  | nil => rfl
  | cons op program ih =>
    obtain ⟨other, rest⟩ := not_or.1 (mt List.mem_cons.2 h)
    rw [perform_cons]
    cases run : op.perform s with
    | ok s' =>
      obtain ⟨value, -, rfl⟩ := Operation.perform_eq_ok_iff.1 run
      exact (ih rest).trans (s.read_write_of_ne other value)
    | error e => rfl

theorem Program.read_of_perform {program : Program} {s final : Store} {stop : Option Error}
    (run : program.perform s = (final, stop)) {v : Variable} (h : v ∉ program.outputs) :
    final.read v.cell = s.read v.cell := by
  obtain rfl : (program.perform s).1 = final := congrArg Prod.fst run
  exact read_perform h

namespace Statement

variable {scope : Bindings Variable} {macros : Bindings Macro} {base : Store} {d : Draft}

/-- The last operation of a statement writes a bound variable, or the one that it introduces.  The
operations before write other variables, which are new. -/
theorem outputs_of_compile (bound : ∀ name v, scope.find? name = some v → base.Has v.cell)
    (closed : base.Closed) {tokens : List Token} {compiled : Compiled}
    (run : compile scope macros tokens { store := base } = .ok compiled d) :
    ∃ init op, compiled.program = init ++ [op] ∧
      (∀ v ∈ Program.outputs init, d.store.Has v.cell ∧ ¬ base.Has v.cell ∧ v ≠ op.output) ∧
      ((compiled.declared = none ∧ ∃ name, scope.find? name = some op.output) ∨
        (¬ base.Has op.target ∧ d.store.Has op.target ∧
          ∃ name, compiled.declared = some (name, op.output))) := by
  obtain ⟨-, -, literals, -, program⟩ := singleAssignment_of_compile bound closed run
  obtain ⟨left, right, name, v, d₁, declared, d₂, -, -, -, valued, assigned, rfl, rfl⟩ :=
    compile_eq_ok_iff.1 run
  -- what is new is none of the bound variables
  have new : ∀ {init op}, d₂.program = init ++ [op] → base.Has op.target →
      ∀ v ∈ Program.outputs init, d₂.store.Has v.cell ∧ ¬ base.Has v.cell ∧ v ≠ op.output := by
    intro init op split old v mem
    have fresh := program.outputs_new
    rw [split, List.dropLast_concat] at fresh
    obtain ⟨o, member, rfl⟩ := List.mem_map.1 mem
    refine ⟨(fresh o member).1, (fresh o member).2, fun same => (fresh o member).2 ?_⟩
    change base.Has o.output.cell
    rw [same]
    exact old
  rcases assign_eq_ok_iff.1 assigned with ⟨-, whole⟩ | ⟨-, rfl, places⟩
  · rcases assignWhole_eq_ok_iff.1 whole with ⟨target, op, found, copied, rfl, rfl⟩ |
      ⟨op, free, copied, rfl, rfl⟩
    · obtain ⟨-, rfl⟩ := operands_of_copy copied
      exact ⟨d₁.program, op, rfl, new rfl (bound name _ found), .inl ⟨rfl, name, found⟩⟩
    · obtain ⟨_, _, -, progress, -⟩ := progress_of_value bound closed valued
      have sound := progress.sound
      have output := (operands_of_copy copied).2
      have fresh : ¬ d₁.store.Has op.output.cell := by
        rw [output]
        exact d₁.store.not_has_allocate v.kind.blank
      have has : (d₁.allocated v.kind).store.Has op.output.cell := by
        rw [output]
        exact d₁.store.has_allocate v.kind.blank
      refine ⟨d₁.program, op, rfl, fun w mem => ?_, .inr ⟨fun old => fresh (sound.old.has old), has,
        name, by rw [output]⟩⟩
      obtain ⟨there, created, -⟩ := sound.outputs w mem
      refine ⟨(d₁.store.extends_allocate v.kind.blank).has there, created, ?_⟩
      rintro rfl
      exact fresh there
  · obtain ⟨m, inside, items, e, address, e₁, op, found, -, -, -, inserted, rfl⟩ :=
      assignPlaces_eq_ok_iff.1 places
    have output := (operands_of_insert inserted).2
    have found' : scope.find? name = some op.output := by rw [output, found]
    exact ⟨e₁.program, op, rfl, new rfl (bound name op.output found'), .inl ⟨rfl, name, found'⟩⟩

end Statement

/-- Compiling adds cells, and its program writes new cells and bound variables. -/
theorem Session.outputs_of_compile {s : Session} (wellFormed : s.WellFormed) {source : String}
    {program : Program} (ok : (s.compile source).result = .ok program) :
    ∀ v ∈ program.outputs, (s.compile source).session.store.Has v.cell ∧
      (¬ s.store.Has v.cell ∨ ∃ name, s.scope.find? name = some v) := by
  cases compilesTo_of_ok ok with
  | declaration => nofun
  | @statement tokens compiled d _ _ run session =>
    have grown : s.store.Extends d.store :=
      ((Statement.growing_compile s.scope s.macros tokens).of_ok run).extends
    obtain ⟨init, op, split, before, last⟩ :=
      Statement.outputs_of_compile wellFormed.bound wellFormed.closed run
    rw [session, split, Program.outputs_append]
    intro v mem
    rcases List.mem_append.1 mem with mem | mem
    · exact ⟨(before v mem).1, .inl (before v mem).2.1⟩
    · obtain rfl := List.mem_singleton.1 mem
      rcases last with ⟨-, name, found⟩ | ⟨new, has, -⟩
      · exact ⟨grown.has (wellFormed.bound name _ found), .inr ⟨name, found⟩⟩
      · exact ⟨has, .inl new⟩

/-- All operations but the last write new cells. -/
theorem Session.new_of_compile {s : Session} (wellFormed : s.WellFormed) {source : String}
    {program : Program} (ok : (s.compile source).result = .ok program) :
    ∀ v ∈ Program.outputs program.dropLast, ¬ s.store.Has v.cell := by
  cases compilesTo_of_ok ok with
  | declaration => nofun
  | statement _ _ run =>
    obtain ⟨init, op, split, before, -⟩ :=
      Statement.outputs_of_compile wellFormed.bound wellFormed.closed run
    rw [split, List.dropLast_concat]
    exact fun v mem => (before v mem).2.1

/-- A name is bound after a compilation as it was, or to a new cell. -/
theorem Session.scope_of_compile {s : Session} {source : String} {name : String} {v : Variable}
    (found : (s.compile source).session.scope.find? name = some v) :
    s.scope.find? name = some v ∨ ¬ s.store.Has v.cell := by
  cases result : (s.compile source).result with
  | error e =>
    rw [compile_of_error result] at found
    exact .inl found
  | ok program =>
    obtain ⟨tokens, read⟩ := tokenize_of_compile result
    rcases exactlyOne_of_compile read result with ⟨keeps, -⟩ | ⟨-, declares, -⟩ | ⟨-, -, enters⟩
    · rw [keeps.2.1] at found
      exact .inl found
    · obtain ⟨target, w, _, _, _, _, _, _, _, new, _, scope, -⟩ := declares
      rw [scope, Bindings.find?_insert] at found
      split at found
      · cases found
        exact .inr new
      · exact .inl found
    · obtain ⟨-, m, -, scope, -⟩ := enters
      rw [scope] at found
      exact .inl found

namespace History

/-! ### Cells stay -/

variable {h h' : History}

theorem compile_session (h : History) (source : String) :
    (h.compile source).session = (h.session.compile source).session := by
  unfold History.compile
  split
  · rfl
  · rename_i result
    exact (Session.compile_of_error result).symm

theorem compile_of_ok {source : String} {program : Program}
    (ok : (h.session.compile source).result = .ok program) :
    h.compile source = ⟨(h.session.compile source).session, program :: h.programs⟩ := by
  simp only [History.compile, ok]

theorem Step.has (step : h.Step h') {kind : Kind} {c : Cell kind} (has : h.session.store.Has c) :
    h'.session.store.Has c := by
  cases step with
  | allocate value => exact (h.session.store.extends_allocate value).has has
  | write value => exact (Store.has_write _ _).2 has
  | define _ ok =>
    obtain ⟨-, ⟨cell, -, rfl⟩ | ⟨-, rfl⟩⟩ := Session.define_eq_ok_iff.1 ok
    · exact (Store.has_write _ _).2 has
    · exact (h.session.store.extends_allocate _).has has
  | bind _ ok =>
    obtain ⟨-, rfl⟩ := Session.bind_eq_ok_iff.1 ok
    exact has
  | remove => exact has
  | compile source =>
    rw [compile_session]
    exact (h.session.extends_compile source).has has
  | perform =>
    rw [Session.perform_store]
    exact Program.has_perform.2 has

theorem has_of_steps (steps : Relation.ReflTransGen Step h h') {kind : Kind} {c : Cell kind}
    (has : h.session.store.Has c) : h'.session.store.Has c := by
  induction steps with
  | refl => exact has
  | tail _ step ih => exact step.has ih

/-- A program that is known after a step was known before, or has been compiled. -/
theorem Step.programs (step : h.Step h') {program : Program} (mem : program ∈ h'.programs) :
    program ∈ h.programs ∨ ∃ source, (h.session.compile source).result = .ok program ∧
      h'.session = (h.session.compile source).session := by
  cases step with
  | compile source =>
    unfold History.compile at mem ⊢
    split at mem
    · rename_i compiled result
      rcases List.mem_cons.1 mem with rfl | mem
      · exact .inr ⟨source, result, rfl⟩
      · exact .inl mem
    · exact .inl mem
  | allocate | write | define | bind | remove | perform => exact .inl mem

/-- Programs write cells that exist. -/
theorem Reachable.has_outputs (reachable : h.Reachable) :
    ∀ program ∈ h.programs, ∀ v ∈ program.outputs, h.session.store.Has v.cell := by
  induction reachable with
  | refl => nofun
  | @tail h₁ h₂ before step ih =>
    intro program known v mem
    rcases step.programs known with known | ⟨source, ok, session⟩
    · exact step.has (ih program known v mem)
    · have wellFormed := Reachable.wellFormed before
      rw [session]
      exact (Session.outputs_of_compile wellFormed ok v mem).1

/-! ### Private variables -/

/-- A variable that only one program may write: it exists, no name is bound to it, and no other
program writes it. -/
structure Private (program : Program) (v : Variable) (h : History) : Prop where
  /-- It exists. -/
  has : h.session.store.Has v.cell
  /-- No name is bound to it. -/
  unbound : ∀ name, h.session.scope.find? name ≠ some v
  /-- Only the program writes it. -/
  writers : ∀ p ∈ h.programs, v ∈ p.outputs → p = program

variable {program : Program} {v : Variable}

/-- What a compilation creates is private, unless it is the target that it binds. -/
theorem Reachable.private_of_compile (reachable : h.Reachable) {source : String}
    (ok : (h.session.compile source).result = .ok program)
    (has : (h.session.compile source).session.store.Has v.cell) (new : ¬ h.session.store.Has v.cell)
    (unbound : ∀ name, (h.session.compile source).session.scope.find? name ≠ some v) :
    (h.compile source).Private program v where
  has := by rwa [compile_session]
  unbound := by rwa [compile_session]
  writers p known mem := by
    rw [compile_of_ok ok] at known
    rcases List.mem_cons.1 known with rfl | known
    · rfl
    · exact absurd (reachable.has_outputs p known v mem) new

theorem Private.scope_step (h₀ : h.Private program v) (step : h.Step h') (name : String) :
    h'.session.scope.find? name ≠ some v := by
  intro found
  -- names are bound to new cells, or to what another name is bound to
  cases step with
  | allocate | write => exact h₀.unbound name found
  | @define _ _ value _ _ ok =>
    obtain ⟨-, ⟨cell, -, rfl⟩ | ⟨-, rfl⟩⟩ := Session.define_eq_ok_iff.1 ok
    · exact h₀.unbound name found
    · rw [Bindings.find?_insert] at found
      split at found
      · cases found
        exact h.session.store.not_has_allocate value h₀.has
      · exact h₀.unbound name found
  | @bind _ other _ _ bound ok =>
    obtain ⟨-, rfl⟩ := Session.bind_eq_ok_iff.1 ok
    rw [Bindings.find?_insert] at found
    split at found
    · cases found
      exact h₀.unbound other bound
    · exact h₀.unbound name found
  | remove other =>
    simp only [Session.remove, Bindings.find?_erase] at found
    split at found
    · cases found
    · exact h₀.unbound name found
  | compile source =>
    rw [compile_session] at found
    rcases Session.scope_of_compile found with before | new
    · exact h₀.unbound name before
    · exact new h₀.has
  | perform =>
    rw [Session.perform_scope] at found
    exact h₀.unbound name found

/-- **A step leaves private variables private.** -/
theorem Private.step (h₀ : h.Private program v) (wellFormed : h.session.WellFormed)
    (step : h.Step h') : h'.Private program v where
  has := step.has h₀.has
  unbound := h₀.scope_step step
  writers p known mem := by
    rcases step.programs known with known | ⟨source, ok, -⟩
    · exact h₀.writers p known mem
    · rcases (Session.outputs_of_compile wellFormed ok v mem).2 with new | ⟨name, found⟩
      · exact absurd h₀.has new
      · exact absurd found (h₀.unbound name)

/-- A private variable that its program does not write keeps its content. -/
theorem Private.read_step (h₀ : h.Private program v) (unwritten : v ∉ program.outputs)
    (step : h.Step h') : h'.session.store.read v.cell = h.session.store.read v.cell := by
  -- contents change under a bound name, or because a program writes them
  cases step with
  | allocate value => exact h.session.store.read_allocate_of_has value h₀.has
  | @write name w value bound =>
    refine h.session.store.read_write_of_ne (fun same => ?_) value
    obtain rfl : v = w := same
    exact h₀.unbound name bound
  | @define _ name _ _ _ ok =>
    obtain ⟨-, ⟨cell, found, rfl⟩ | ⟨-, rfl⟩⟩ := Session.define_eq_ok_iff.1 ok
    · refine h.session.store.read_write_of_ne (fun same => ?_) _
      rw [← same] at found
      exact h₀.unbound name found
    · exact h.session.store.read_allocate_of_has _ h₀.has
  | bind _ ok =>
    obtain ⟨-, rfl⟩ := Session.bind_eq_ok_iff.1 ok
    rfl
  | remove => rfl
  | compile source =>
    rw [compile_session]
    exact (h.session.extends_compile source).read h₀.has
  | @perform p known =>
    rw [Session.perform_store]
    refine Program.read_perform fun mem => unwritten ?_
    rwa [← h₀.writers p known mem]

/-- **Private variables stay private**, and keep what they hold unless their program writes them. -/
theorem Private.later (reachable : h.Reachable) (h₀ : h.Private program v)
    (steps : Relation.ReflTransGen Step h h') : h'.Private program v ∧
      (v ∉ program.outputs → h'.session.store.read v.cell = h.session.store.read v.cell) := by
  induction steps with
  | refl => exact ⟨h₀, fun _ => rfl⟩
  | @tail h₁ h₂ before step ih =>
    have wellFormed := Reachable.wellFormed (reachable.trans before)
    exact ⟨ih.1.step wellFormed step, fun unwritten =>
      (ih.1.read_step unwritten step).trans (ih.2 unwritten)⟩

end History

end MatrixCalc
