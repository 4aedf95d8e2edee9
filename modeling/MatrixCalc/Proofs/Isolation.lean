import MatrixCalc.Proofs.Framed
import MatrixCalc.Proofs.Hidden
import MatrixCalc.Proofs.Recompilation.Later

/-!
# Sequences and intermediate results

A sequence variable refers to integer cells, and copying it copies these references.  So the bounds
that a statement has computed for its target are shared with whatever the target is copied to, and
performing the statement again changes them there.  A sequence that refers to no intermediate result
of a program means the same after performing it, and as long as a program has not handed out its
intermediate results no bound sequence refers to them.

* `Program.intermediates` : what a program computes on the way.
* `Session.Isolated` : which sequences keep their meaning when a program is performed.
* `History.Sparing` : steps that do not hand out the intermediate results of a program.
* `History.Spared.step` : no such step makes a live sequence refer to them.
* `Session.perform_isolated` : **performing is isolated** from sequences that share no intermediate
  result.
-/

namespace MatrixCalc

/-- What a program computes before its last operation. -/
def Program.intermediates (program : Program) : List Variable := Program.outputs program.dropLast

/-- The sequence in a cell refers to none of the variables. -/
def Store.Apart (s : Store) (c : Cell .sequence) (vs : List Variable) : Prop :=
  ∀ x ∈ (s.read c).cells, (⟨.integer, x⟩ : Variable) ∉ vs

theorem Store.apart_of_read {s : Store} {c : Cell .sequence} {vs : List Variable}
    {value : IndexSequence} (read : s.read c = value)
    (apart : ∀ x ∈ value.cells, (⟨.integer, x⟩ : Variable) ∉ vs) : s.Apart c vs := by
  intro x mem
  rw [read] at mem
  exact apart x mem

/-- Sequences with the same content mean the same if their cells hold the same. -/
theorem Store.meaning_of_read {s s' : Store} {c : Cell .sequence} (same : s'.read c = s.read c)
    (cells : ∀ x ∈ (s.read c).cells, s'.read x = s.read x) : s'.meaning c = s.meaning c := by
  rw [Store.meaning, Store.meaning, same]
  exact Kind.meaning_congr _ cells

/-! ### Performing once -/

namespace Session

/-- **Performing a program is isolated** from the sequences that refer to none of its intermediate
results: those that are not its target, nor refer to it, mean what they meant, for every size; and
if it fails, the target does too. -/
structure Isolated (s : Session) (program : Program) (target : Variable) : Prop where
  /-- A bound sequence keeps its meaning, unless it is the target or refers to it. -/
  meaning : ∀ name (c : Cell .sequence), s.scope.find? name = some ⟨.sequence, c⟩ →
    s.store.Apart c program.intermediates → ⟨.sequence, c⟩ ≠ target →
    (∀ x ∈ (s.store.read c).cells, ⟨.integer, x⟩ ≠ target) →
    (s.perform program).session.store.meaning c = s.store.meaning c
  /-- After a failure all bound sequences have kept their meaning. -/
  failure : ∀ e, (s.perform program).result = .error e → ∀ name (c : Cell .sequence),
    s.scope.find? name = some ⟨.sequence, c⟩ → s.store.Apart c program.intermediates →
    (s.perform program).session.store.meaning c = s.store.meaning c

/-- A program whose intermediate results are bound to no name is isolated. -/
theorem isolated_of_unbound {s : Session} {init : Program} {op : Operation}
    (unbound : ∀ v ∈ Program.outputs init, ∀ name, s.scope.find? name ≠ some v) :
    s.Isolated (init ++ [op]) op.output := by
  have first : Program.intermediates (init ++ [op]) = Program.outputs init := by
    rw [Program.intermediates, List.dropLast_concat]
  constructor
  · intro name c found apart other cells
    rw [first] at apart
    rw [perform_store]
    have unwritten : ∀ v, v ∉ Program.outputs init → v ≠ op.output →
        v ∉ Program.outputs (init ++ [op]) := by
      intro v before last mem
      rw [Program.outputs_append] at mem
      rcases List.mem_append.1 mem with mem | mem
      · exact before mem
      · exact last (List.mem_singleton.1 mem)
    exact Store.meaning_of_read
      (@Program.read_perform _ _ ⟨.sequence, c⟩
        (unwritten _ (fun mem => unbound _ mem name found) other))
      fun x mem => @Program.read_perform _ _ ⟨.integer, x⟩ (unwritten _ (apart x mem) (cells x mem))
  · intro e failed name c found apart
    rw [first] at apart
    rw [perform_store, Program.perform_concat_of_error (perform_eq_error_iff.1 failed)]
    exact Store.meaning_of_read
      (@Program.read_perform _ _ ⟨.sequence, c⟩ fun mem => unbound _ mem name found)
      fun x mem => @Program.read_perform _ _ ⟨.integer, x⟩ (apart x mem)

end Session

/-! ### Handing out intermediate results -/

namespace History

variable {h h' : History} {program : Program}

/-- What can be done with a session without handing out the intermediate results of a program:
values that come from outside do not refer to them, and if the program assigns to a sequence, it is
performed only where it fails. -/
inductive Sparing (program : Program) (h : History) : History → Prop
  /-- A cell is created. -/
  | allocate {kind : Kind} (value : kind.Content)
      (cells : ∀ c ∈ kind.cellsOf value, h.session.store.Has c)
      (apart : ∀ c ∈ kind.cellsOf value, (⟨.integer, c⟩ : Variable) ∉ program.intermediates) :
      Sparing program h { h with session.store := (h.session.store.allocate value).1 }
  /-- A bound variable is given a value. -/
  | write {name : String} {v : Variable} (value : v.kind.Content)
      (bound : h.session.scope.find? name = some v)
      (cells : ∀ c ∈ v.kind.cellsOf value, h.session.store.Has c)
      (apart : ∀ c ∈ v.kind.cellsOf value, (⟨.integer, c⟩ : Variable) ∉ program.intermediates) :
      Sparing program h { h with session.store := h.session.store.write v.cell value }
  /-- A name is given a value, and a variable if it has none of that kind. -/
  | define {kind : Kind} {name : String} {value : kind.Content} {s : Session}
      (cells : ∀ c ∈ kind.cellsOf value, h.session.store.Has c)
      (apart : ∀ c ∈ kind.cellsOf value, (⟨.integer, c⟩ : Variable) ∉ program.intermediates)
      (ok : h.session.define name value = .ok s) : Sparing program h { h with session := s }
  /-- A name is bound to the variable of another name. -/
  | bind {name other : String} {v : Variable} {s : Session}
      (bound : h.session.scope.find? other = some v) (ok : h.session.bind name v = .ok s) :
      Sparing program h { h with session := s }
  /-- A name is removed. -/
  | remove (name : String) : Sparing program h { h with session := h.session.remove name }
  /-- A text is compiled. -/
  | compile (source : String) : Sparing program h (h.compile source)
  /-- A program that has been compiled is performed. -/
  | perform {p : Program} (mem : p ∈ h.programs)
      (spares : p = program → (p.perform h.session.store).2 = none →
        ∀ op ∈ p.getLast?, op.kind ≠ .sequence) :
      Sparing program h { h with session := (h.session.perform p).session }

theorem Sparing.step (sparing : h.Sparing program h') : h.Step h' := by
  cases sparing with
  | allocate value cells => exact .allocate value cells
  | write value bound cells => exact .write value bound cells
  | define cells _ ok => exact .define cells ok
  | bind bound ok => exact .bind bound ok
  | remove name => exact .remove name
  | compile source => exact .compile source
  | perform mem => exact .perform mem

/-- No live sequence refers to the intermediate results of a program: none that a name is bound to,
and none that another program has as an operand. -/
structure Spared (program : Program) (h : History) : Prop where
  /-- Bound sequences are apart. -/
  bound : ∀ name (c : Cell .sequence), h.session.scope.find? name = some ⟨.sequence, c⟩ →
    h.session.store.Apart c program.intermediates
  /-- Operands of other programs are apart. -/
  operands : ∀ p ∈ h.programs, p ≠ program → ∀ op ∈ p, ∀ c : Cell .sequence,
    ⟨.sequence, c⟩ ∈ op.term.operands → h.session.store.Apart c program.intermediates

end History

/-! ### Performing other programs -/

section Perform

variable {s s' : Store} {vs : List Variable} {live : Cell .sequence → Prop}

theorem Store.read_write_cases (s : Store) {kind : Kind} (cell : Cell kind) (value : kind.Content) :
    (s.write cell value).read cell = value ∨ (s.write cell value).read cell = s.read cell := by
  by_cases has : s.Has cell
  · exact .inl (s.read_write_self has value)
  · have missing : ¬ (s.write cell value).Has cell := mt (Store.has_write cell value).1 has
    refine .inr ?_
    show ((s.write cell value).contents kind).getD cell.id kind.blank =
      (s.contents kind).getD cell.id kind.blank
    have missing : ¬ cell.id < ((s.write cell value).contents kind).size := missing
    have has : ¬ cell.id < (s.contents kind).size := has
    simp [missing, has]

/-- Writing a content that is apart leaves sequences apart. -/
theorem Store.Apart.write {c : Cell .sequence} (h : s.Apart c vs) {v : Variable}
    {value : v.kind.Content}
    (apart : ∀ x ∈ v.kind.cellsOf value, (⟨.integer, x⟩ : Variable) ∉ vs) :
    (s.write v.cell value).Apart c vs := by
  by_cases same : ⟨.sequence, c⟩ = v
  · subst same
    rcases s.read_write_cases c value with new | old
    · exact Store.apart_of_read new apart
    · exact Store.apart_of_read old h
  · exact Store.apart_of_read (s.read_write_of_ne same value) h

/-- A program whose sequence operands are live, and apart, leaves all live sequences apart. -/
theorem Program.apart_perform {program : Program}
    (operands : ∀ op ∈ program, ∀ c : Cell .sequence, ⟨.sequence, c⟩ ∈ op.term.operands → live c)
    (apart : ∀ c, live c → s.Apart c vs) : ∀ c, live c → (program.perform s).1.Apart c vs := by
  induction program generalizing s with
  | nil => exact apart
  | cons op program ih =>
    rw [perform_cons]
    cases run : op.perform s with
    | error e => exact apart
    | ok s' =>
      obtain ⟨value, eval, rfl⟩ := Operation.perform_eq_ok_iff.1 run
      -- only copying writes a sequence, and what it copies is live
      have copied : ∀ x ∈ op.kind.cellsOf value, (⟨.integer, x⟩ : Variable) ∉ vs := by
        have sources := operands op List.mem_cons_self
        obtain ⟨name, target, term⟩ := op
        rename_i kind
        cases kind with
        | sequence =>
          cases term with
          | sequence a =>
            cases eval
            exact apart a (sources a (List.mem_singleton.2 rfl))
        | matrix | double | integer => nofun
      exact ih (fun o mem => operands o (List.mem_cons_of_mem _ mem))
        fun c mem => @Store.Apart.write _ _ _ (apart c mem) op.output value copied

end Perform

/-! ### Live sequences -/

namespace Session

variable {s : Session} {source : String} {program : Program}

/-- What a compiled program reads exists. -/
theorem hasReads_of_compile (wellFormed : s.WellFormed)
    (ok : (s.compile source).result = .ok program) :
    (s.compile source).session.store.HasReads program := by
  cases compilesTo_of_ok ok with
  | declaration => nofun
  | statement _ _ run session =>
    rw [session]
    exact (Statement.singleAssignment_of_compile wellFormed.bound wellFormed.closed run).2.1

/-- What is bound after a compilation was bound before and holds what it held, or is blank. -/
theorem read_of_compile (wellFormed : s.WellFormed)
    (ok : (s.compile source).result = .ok program) {name : String} {v : Variable}
    (found : (s.compile source).session.scope.find? name = some v) :
    s.scope.find? name = some v ∧
        (s.compile source).session.store.read v.cell = s.store.read v.cell ∨
      (s.compile source).session.store.read v.cell = v.kind.blank := by
  have old : s.scope.find? name = some v →
      (s.compile source).session.store.read v.cell = s.store.read v.cell := fun found =>
    (s.extends_compile source).read (wellFormed.bound name v found)
  cases compilesTo_of_ok ok with
  | declaration _ _ _ _ session =>
    have same : (s.compile source).session.scope = s.scope := by rw [session]
    rw [same] at found
    exact .inl ⟨found, old found⟩
  | @statement _ compiled d _ _ run session =>
    have scope : (s.compile source).session.scope = s.scopeWith compiled.declared := by rw [session]
    rw [scope] at found
    cases declared : compiled.declared with
    | none =>
      rw [declared] at found
      exact .inl ⟨found, old found⟩
    | some entry =>
      obtain ⟨target, w⟩ := entry
      rw [declared] at found
      have found : (s.scope.insert target w).find? name = some v := found
      rw [Bindings.find?_insert] at found
      by_cases same : name = target
      · rw [if_pos same] at found
        obtain rfl := Option.some.inj found
        rw [session]
        exact .inr (Statement.blank_of_declared run declared)
      · rw [if_neg same] at found
        exact .inl ⟨found, old found⟩

/-- What no name is bound to, and no bound sequence refers to, is read by no program compiled
then. -/
theorem unread_of_compile (wellFormed : s.WellFormed)
    (ok : (s.compile source).result = .ok program) {x : Variable} (old : s.store.Has x.cell)
    (kind : x.kind ≠ .sequence) (hidden : s.store.Hides s.scope x) :
    x ∉ (s.compile source).session.store.readsOf program := by
  cases compilesTo_of_ok ok with
  | declaration => nofun
  | statement _ _ run session =>
    rw [session]
    exact Statement.unread_of_compile wellFormed.bound wellFormed.closed old hidden kind run

end Session

namespace History

variable {h h' : History} {program : Program}

/-- The operands of programs exist. -/
theorem Reachable.has_operands (reachable : h.Reachable) : ∀ p ∈ h.programs, ∀ op ∈ p,
    ∀ v ∈ op.term.operands, h.session.store.Has v.cell := by
  induction reachable with
  | refl => nofun
  | @tail h₁ h₂ before step ih =>
    intro p known op mem v operand
    rcases step.programs known with known | ⟨source, ok, session⟩
    · exact step.has (ih p known op mem v operand)
    · rw [session]
      exact Session.hasReads_of_compile (Reachable.wellFormed before) ok op mem v
        (Store.mem_reads_of_operand _ operand)

namespace Spared

/-- A live sequence: one that a name is bound to, or an operand of another program. -/
def Live (program : Program) (h : History) (c : Cell .sequence) : Prop :=
  (∃ name, h.session.scope.find? name = some ⟨.sequence, c⟩) ∨
    ∃ p ∈ h.programs, p ≠ program ∧ ∃ op ∈ p, ⟨.sequence, c⟩ ∈ op.term.operands

theorem live (spared : Spared program h) {c : Cell .sequence} (live : Live program h c) :
    h.session.store.Apart c program.intermediates := by
  rcases live with ⟨name, found⟩ | ⟨p, known, other, op, mem, operand⟩
  · exact spared.bound name c found
  · exact spared.operands p known other op mem c operand

theorem has_of_live (reachable : h.Reachable) {c : Cell .sequence} (live : Live program h c) :
    h.session.store.Has c := by
  rcases live with ⟨name, found⟩ | ⟨p, known, -, op, mem, operand⟩
  · exact reachable.wellFormed.bound name _ found
  · exact reachable.has_operands p known op mem _ operand

/-- No sequence is live after a step that was not live before or is apart, and what was live is
apart. -/
theorem of_live {session : Session}
    (bound : ∀ name (c : Cell .sequence), session.scope.find? name = some ⟨.sequence, c⟩ →
      Live program h c ∨ session.store.Apart c program.intermediates)
    (apart : ∀ c, Live program h c → session.store.Apart c program.intermediates) :
    Spared program { h with session } where
  bound name c found := (bound name c found).elim (apart c) id
  operands p known other op mem c operand := apart c (.inr ⟨p, known, other, op, mem, operand⟩)

/-- What a compilation adds is apart: sequences that it binds are blank, and those that it reads do
not refer to intermediate results, as nothing that it can see does. -/
theorem compile (spared : Spared program h) (reachable : h.Reachable)
    (own : ∀ v ∈ program.intermediates, h.Private program v)
    (kinds : ∀ v ∈ program.intermediates, v.kind ≠ .sequence) (source : String) :
    Spared program (h.compile source) := by
  have wellFormed := reachable.wellFormed
  cases result : (h.session.compile source).result with
  | error e =>
    have same : h.compile source = h := by
      unfold History.compile
      rw [result]
    rwa [same]
  | ok p =>
    have larger := h.session.extends_compile source
    have old : ∀ c, Live program h c →
        (h.session.compile source).session.store.Apart c program.intermediates := by
      intro c live
      exact Store.apart_of_read (larger.read (has_of_live reachable live)) (spared.live live)
    rw [compile_of_ok result]
    constructor
    · intro name c found
      rcases Session.read_of_compile wellFormed result found with ⟨before, -⟩ | blank
      · exact old c (.inl ⟨name, before⟩)
      · exact Store.apart_of_read blank nofun
    · intro p' known other op mem c operand
      rcases List.mem_cons.1 known with rfl | known
      · intro x reached shared
        have hidden : h.session.store.Hides h.session.scope ⟨.integer, x⟩ := by
          rintro name ⟨kind, cell⟩ found reached
          rcases List.mem_cons.1 reached with same | reached
          · exact (own _ shared).unbound name (same ▸ found)
          · obtain ⟨y, mem, same⟩ := List.mem_map.1 reached
            cases same
            cases kind with
            | sequence => exact spared.bound name cell found x mem shared
            | matrix | double | integer => cases mem
        refine Session.unread_of_compile wellFormed result (own _ shared).has (kinds _ shared)
          hidden (List.mem_flatMap.2 ⟨op, mem, List.mem_flatMap.2 ⟨_, operand, ?_⟩⟩)
        exact List.mem_cons_of_mem _ (List.mem_map.2 ⟨x, reached, rfl⟩)
      · exact old c (.inr ⟨p', known, other, op, mem, operand⟩)

/-- Performing leaves live sequences apart: only copying writes sequences, other programs copy live
ones, and the program itself copies none. -/
theorem perform (spared : Spared program h)
    (kinds : ∀ v ∈ program.intermediates, v.kind ≠ .sequence) {p : Program} (mem : p ∈ h.programs)
    (spares : p = program → (p.perform h.session.store).2 = none →
      ∀ op ∈ p.getLast?, op.kind ≠ .sequence) :
    Spared program { h with session := (h.session.perform p).session } := by
  refine of_live (fun name c found => .inl (.inl ⟨name, ?_⟩)) fun c live => ?_
  · rwa [Session.perform_scope] at found
  rw [Session.perform_store]
  by_cases same : p = program
  · subst same
    have kept : (p.perform h.session.store).1.read c = h.session.store.read c := by
      rcases p.eq_nil_or_concat' with rfl | ⟨init, op, rfl⟩
      · rfl
      have first : Program.intermediates (init ++ [op]) = Program.outputs init := by
        rw [Program.intermediates, List.dropLast_concat]
      have before : (⟨.sequence, c⟩ : Variable) ∉ Program.outputs init := fun mem =>
        kinds _ (first ▸ mem) rfl
      cases run : (Program.perform (init ++ [op]) h.session.store).2 with
      | some e =>
        rw [Program.perform_concat_of_error run]
        exact Program.read_perform (v := ⟨.sequence, c⟩) before
      | none =>
        refine Program.read_perform (v := ⟨.sequence, c⟩) fun mem => ?_
        rw [Program.outputs_append] at mem
        rcases List.mem_append.1 mem with mem | mem
        · exact before mem
        · have last := List.mem_singleton.1 mem
          exact spares rfl run op (by simp) (congrArg Variable.kind last).symm
    exact Store.apart_of_read kept (spared.live live)
  · exact Program.apart_perform
      (fun op operation c operand => .inr ⟨p, mem, same, op, operation, operand⟩)
      (fun c => spared.live) c live

/-- **No step that spares a program hands out its intermediate results.** -/
theorem step (spared : Spared program h) (reachable : h.Reachable)
    (own : ∀ v ∈ program.intermediates, h.Private program v)
    (kinds : ∀ v ∈ program.intermediates, v.kind ≠ .sequence) (sparing : h.Sparing program h') :
    Spared program h' := by
  have allocated : ∀ {kind : Kind} (value : kind.Content) c, Live program h c →
      (h.session.store.allocate value).1.Apart c program.intermediates := by
    intro kind value c live
    have kept := h.session.store.read_allocate_of_has value (has_of_live reachable live)
    exact Store.apart_of_read kept (spared.live live)
  cases sparing with
  | allocate value cells apart =>
    refine of_live ?_ (allocated value)
    exact fun name c found => .inl (.inl ⟨name, found⟩)
  | write value bound cells apart =>
    refine of_live ?_ fun c live => (spared.live live).write apart
    exact fun name c found => .inl (.inl ⟨name, found⟩)
  | @define kind name value s cells apart ok =>
    obtain ⟨-, ⟨cell, found, rfl⟩ | ⟨-, rfl⟩⟩ := Session.define_eq_ok_iff.1 ok
    · exact of_live (fun name c found => .inl (.inl ⟨name, found⟩))
        fun c live => @Store.Apart.write _ _ _ (spared.live live) ⟨kind, cell⟩ value apart
    · refine of_live (fun other c found => ?_) (allocated value)
      rw [Bindings.find?_insert] at found
      split at found
      · cases found
        exact .inr (Store.apart_of_read (h.session.store.read_allocate_self value) apart)
      · exact .inl (.inl ⟨other, found⟩)
  | @bind name other v s bound ok =>
    obtain ⟨-, rfl⟩ := Session.bind_eq_ok_iff.1 ok
    refine of_live (fun bound' c found => ?_) fun c => spared.live
    rw [Bindings.find?_insert] at found
    split at found
    · cases found
      exact .inl (.inl ⟨other, bound⟩)
    · exact .inl (.inl ⟨bound', found⟩)
  | remove name =>
    refine of_live (fun other c found => ?_) fun c => spared.live
    have found : (h.session.scope.erase name).find? other = some ⟨.sequence, c⟩ := found
    rw [Bindings.find?_erase] at found
    split at found
    · cases found
    · exact .inl (.inl ⟨other, found⟩)
  | compile source => exact spared.compile reachable own kinds source
  | perform mem spares => exact spared.perform kinds mem spares

end Spared

section Statement

variable {h₀ : History} {source : String} {tokens : List Token}

/-- When a text has been compiled, no sequence refers to its intermediate results: they are new. -/
theorem Reachable.spared_of_compile (reachable : h₀.Reachable)
    (ok : (h₀.session.compile source).result = .ok program) :
    Spared program (h₀.compile source) := by
  have wellFormed := reachable.wellFormed
  have larger := h₀.session.extends_compile source
  have old : ∀ c : Cell .sequence, h₀.session.store.Has c →
      (h₀.session.compile source).session.store.Apart c program.intermediates := by
    intro c has
    refine Store.apart_of_read (larger.read has) fun x mem shared => ?_
    exact Session.new_of_compile wellFormed ok _ shared (wellFormed.closed ⟨.sequence, c⟩ has x mem)
  rw [compile_of_ok ok]
  constructor
  · intro name c found
    rcases Session.read_of_compile wellFormed ok found with ⟨before, -⟩ | blank
    · exact old c (wellFormed.bound name _ before)
    · exact Store.apart_of_read blank nofun
  · intro p known other op mem c operand
    rcases List.mem_cons.1 known with rfl | known
    · exact absurd rfl other
    · exact old c (reachable.has_operands p known op mem _ operand)

/-- The intermediate results of a statement are no sequences, and stay private. -/
theorem Reachable.intermediates (reachable : h₀.Reachable)
    (read : Token.tokenize source = .ok tokens) (notMacro : Token.declareMacro tokens = false)
    (ok : (h₀.session.compile source).result = .ok program)
    (steps : Relation.ReflTransGen Step (h₀.compile source) h) :
    ∀ v ∈ program.intermediates, v.kind ≠ .sequence ∧ h.Private program v := by
  have wellFormed := reachable.wellFormed
  have later := fun {init op} =>
    @private_of_steps _ _ _ _ _ reachable read notMacro ok steps init op
  obtain ⟨compiled, d, run, rfl, session⟩ := Session.compile_of_statement read notMacro ok
  obtain ⟨init, op, split, before, -⟩ :=
    Statement.outputs_of_compile wellFormed.bound wellFormed.closed run
  intro v mem
  have kind := Statement.kind_of_intermediate wellFormed.bound wellFormed.closed run v mem
  have first : compiled.program.intermediates = Program.outputs init := by
    rw [Program.intermediates, split, List.dropLast_concat]
  obtain ⟨has, new, other⟩ := before v (first ▸ mem)
  exact ⟨kind, (later split (by rwa [session]) new other).1⟩

theorem steps_of_sparing (sparing : Relation.ReflTransGen (Sparing program) h h') :
    Relation.ReflTransGen Step h h' :=
  Relation.ReflTransGen.mono (fun _ _ => Sparing.step) _ _ sparing

/-- **As long as a program is spared, no bound sequence refers to its intermediate results.** -/
theorem Reachable.spared_of_sparing (reachable : h₀.Reachable)
    (read : Token.tokenize source = .ok tokens) (notMacro : Token.declareMacro tokens = false)
    (ok : (h₀.session.compile source).result = .ok program)
    (sparing : Relation.ReflTransGen (Sparing program) (h₀.compile source) h) :
    Spared program h := by
  induction sparing with
  | refl => exact reachable.spared_of_compile ok
  | tail before step ih =>
    have steps := steps_of_sparing before
    have own := reachable.intermediates read notMacro ok steps
    exact ih.step ((reachable.tail (.compile source)).trans steps) (fun v mem => (own v mem).2)
      (fun v mem => (own v mem).1) step

end Statement

end History

theorem History.programs_process {h : History} {source : String}
    (compiles : (h.session.compile source).result.toOption.isSome = true) :
    (h.process source).programs = h.session.programOf source :: h.programs := by
  show (h.compile source).programs = _
  rw [History.compile_of_ok (Session.result_eq_programOf compiles)]

/-! ### Performing later -/

namespace Session

/-- **Performing is isolated** from the sequences that refer to none of the intermediate results of
the program.  Whatever has been done since a statement was compiled, performing it leaves the
meaning of these as it was, unless they are its target or refer to it; if it fails, the meaning of
the target too.  As long as the intermediate results have not been handed out, all bound sequences
are such ones. -/
theorem perform_isolated {h₀ h : History} (reachable : h₀.Reachable) {source : String}
    {program : Program} (ok : (h₀.session.compile source).result = .ok program)
    (steps : Relation.ReflTransGen History.Step (h₀.compile source) h) :
    ∃ tokens, Token.tokenize source = .ok tokens ∧
      (Token.declareMacro tokens = true ∧ program = [] ∨
        Token.declareMacro tokens = false ∧ ∃ left right name target,
          Statement.splitAssignment tokens = .ok (left, right) ∧
          Statement.targetName left = .ok name ∧
          (h₀.session.compile source).session.scope.find? name = some target ∧
          h.session.Isolated program target ∧
          (Relation.ReflTransGen (History.Sparing program) (h₀.compile source) h →
            ∀ other (c : Cell .sequence), h.session.scope.find? other = some ⟨.sequence, c⟩ →
              h.session.store.Apart c program.intermediates)) := by
  have wellFormed := reachable.wellFormed
  obtain ⟨tokens, read⟩ := tokenize_of_compile ok
  refine ⟨tokens, read, ?_⟩
  cases isMacro : Token.declareMacro tokens with
  | true =>
    obtain ⟨_, -, -, empty, -⟩ := compile_of_declaration read isMacro ok
    exact .inl ⟨rfl, empty⟩
  | false =>
    have own := reachable.intermediates read isMacro ok steps
    have spared := fun sparing => reachable.spared_of_sparing (h := h) read isMacro ok sparing
    obtain ⟨compiled, d, run, rfl, session⟩ := compile_of_statement read isMacro ok
    obtain ⟨left, right, name, init, op, cut, named, split, found⟩ := target_of_statement run
    have found : (h₀.session.compile source).session.scope.find? name = some op.output := by
      rw [session]
      exact found
    refine .inr ⟨rfl, left, right, name, op.output, cut, named, found, ?_,
      fun sparing => (spared sparing).bound⟩
    have first : compiled.program.intermediates = Program.outputs init := by
      rw [Program.intermediates, split, List.dropLast_concat]
    rw [split]
    exact isolated_of_unbound fun v mem => (own v (first ▸ mem)).2.unbound

/-- What `perform_isolated` says of a statement that is performed again after `n` has been given
another value, while its target `q` has been copied to nothing. -/
theorem perform_isolated_of_range : ∃ (h₀ h : History) (program : Program), h₀.Reachable ∧
    (h₀.session.compile "q = n*2:8/n").result = .ok program ∧
    program.names = ["multiply-ii", "divide-ii", "copy-is-is"] ∧
    Relation.ReflTransGen History.Step (h₀.compile "q = n*2:8/n") h ∧
    (h.session.perform program).result = .ok () ∧
    ∃ tokens, Token.tokenize "q = n*2:8/n" = .ok tokens ∧
      (Token.declareMacro tokens = true ∧ program = [] ∨
        Token.declareMacro tokens = false ∧ ∃ left right name target,
          Statement.splitAssignment tokens = .ok (left, right) ∧
          Statement.targetName left = .ok name ∧
          (h₀.session.compile "q = n*2:8/n").session.scope.find? name = some target ∧
          h.session.Isolated program target ∧
          (Relation.ReflTransGen (History.Sparing program) (h₀.compile "q = n*2:8/n") h →
            ∀ other (c : Cell .sequence), h.session.scope.find? other = some ⟨.sequence, c⟩ →
              h.session.store.Apart c program.intermediates)) := by
  let h₀ : History := { session := sample 1 (.listed [⟨0⟩]) }
  let h : History := h₀.revise "q = n*2:8/n" ⟨.integer, ⟨0⟩⟩ (2 : Int64)
  have reachable : h₀.Reachable := reachable_sample 1 (by simp [IndexSequence.cells])
  have ok := @result_eq_programOf h₀.session "q = n*2:8/n" (by decide +kernel)
  have steps : Relation.ReflTransGen History.Step (h₀.compile "q = n*2:8/n") h :=
    @History.steps_revise _ _ _ _ "n" (find?_of_compile rfl) (List.forall_mem_nil _)
  have succeeds :
      ((h₀.session.programOf "q = n*2:8/n").perform h.session.store).2.isNone = true := by
    decide +kernel
  exact ⟨h₀, h, _, reachable, ok, by decide +kernel, steps,
    perform_eq_ok_iff.2 (Option.isNone_iff_eq_none.1 succeeds),
    perform_isolated reachable ok steps⟩

/-- **Copies of a sequence share its intermediate results.**  Where `q` has been copied to `r`,
performing the statement of `q` again changes what `r` means; and where this fails half-way, it
changes what `q` means. -/
theorem not_isolated : ∃ (h h' : History) (program : Program) (q r : Cell .sequence),
    h.Reachable ∧ h'.Reachable ∧ program ∈ h.programs ∧ program ∈ h'.programs ∧
    program.outputs.getLast? = some ⟨.sequence, q⟩ ∧
    h.session.scope.find? "r" = some ⟨.sequence, r⟩ ∧ r ≠ q ∧
    (h.session.perform program).result = .ok () ∧
    (h.session.perform program).session.store.meaning r ≠ h.session.store.meaning r ∧
    h'.session.scope.find? "q" = some ⟨.sequence, q⟩ ∧
    (∃ e, (h'.session.perform program).result = .error e) ∧
    (h'.session.perform program).session.store.meaning q ≠ h'.session.store.meaning q := by
  let h₀ : History := { session := sample 1 (.listed [⟨0⟩]) }
  let h₁ : History := h₀.process "q = n*2:8/n"
  let h₂ : History := h₁.process "r = q"
  let revised : Int64 → History := fun n =>
    { h₂ with session.store := h₂.session.store.write (⟨0⟩ : Cell .integer) n }
  let program : Program := h₀.session.programOf "q = n*2:8/n"
  have compiles : (h₀.session.compile "q = n*2:8/n").result.toOption.isSome = true := by
    decide +kernel
  have compiles' : (h₁.session.compile "r = q").result.toOption.isSome = true := by decide +kernel
  have bound : h₂.session.scope.find? "n" = some ⟨.integer, ⟨0⟩⟩ := by decide +kernel
  have reachable : h₂.Reachable :=
    ((((reachable_sample 1 (by simp [IndexSequence.cells])).tail (.compile "q = n*2:8/n")).tail
      (History.step_process compiles)).tail (.compile "r = q")).tail
      (History.step_process compiles')
  have revises : ∀ n, (revised n).Reachable := fun n =>
    reachable.tail (@History.Step.write _ _ _ (n : Int64) bound (List.forall_mem_nil _))
  have known : program ∈ h₂.programs := by
    rw [History.programs_process compiles', History.programs_process compiles]
    exact List.mem_cons_of_mem _ List.mem_cons_self
  have succeeds : (program.perform (revised 2).session.store).2.isNone = true := by decide +kernel
  have fails : (program.perform (revised 0).session.store).2 =
      some (.numeric (.integerDivision 8 0)) := by
    decide +kernel
  refine ⟨revised 2, revised 0, program, ⟨2⟩, ⟨3⟩, revises 2, revises 0, known, known,
    by decide +kernel, by decide +kernel, by decide,
    perform_eq_ok_iff.2 (Option.isNone_iff_eq_none.1 succeeds), fun same => ?_, by decide +kernel,
    ⟨_, perform_eq_error_iff.2 fails⟩, fun same => ?_⟩
  · -- `r` has the indices from 2 to 8, and then only 4
    have indices := congrArg Except.toOption (congrFun same 0)
    revert indices
    decide +kernel
  · -- `q` has the indices from 2 to 8, and then those from 0 to 8
    have indices := congrArg Except.toOption (congrFun same 0)
    revert indices
    decide +kernel

end Session

end MatrixCalc
