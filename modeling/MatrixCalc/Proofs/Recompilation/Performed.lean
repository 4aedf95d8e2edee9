import MatrixCalc.Proofs.Private
import MatrixCalc.Proofs.Recompilation.Whole

/-!
# Two programs performed side by side

The program of a statement is performed, and beside it the program that the same statement has when
it is compiled anew.  Operation by operation both do the same, under the other names.

* `Program.ListsAgree`, `Program.Detached` : what this takes.
* `Recompilation.Rerun.listsAgree` : lists agree if the sequences that the statement reads hold what
  they held.
* `Recompilation.Rerun.perform_step` : an operation fails in both runs with the same error, or
  succeeds in both and keeps them synchronous.
* `Recompilation.Rerun.perform` : **both runs have the same result**, and what names are bound to
  means the same after them.
-/

namespace MatrixCalc

/-! ### Lists and intermediate results -/

namespace Program

/-- The lists that a program put together when it was compiled, after the cells of `before`, mean
what the lists `after` a new compilation mean, whatever the program computes.  Both are read with
the integers as they are `now`; only cells that the program computes, and the cells of the list that
it created, may hold something else, and these hold the same under both names. -/
def ListsAgree (program : Program) (ρ : Renaming) (before now after : Store) : Prop :=
  ∀ op ∈ program, ∀ c : Cell .sequence, ⟨.sequence, c⟩ ∈ op.term.operands → ¬ before.Has c →
    ∀ read read' : Cell .integer → Int64,
      (∀ x, now.Has x → ⟨.integer, x⟩ ∉ outputs program.dropLast →
        read x = now.read x ∧ read' x = now.read x) →
      (∀ x ∈ (now.read c).cells, ¬ before.Has x → read' (ρ .integer x) = read x) →
      ∀ size, (after.read (ρ .sequence c)).indices read' size = (now.read c).indices read size

/-- No sequence depends on an intermediate result of the program, if the program reads it and it was
there before, or if a name is bound to it and the program does not overwrite it. -/
structure Detached (program : Program) (before : Store) (s : Session) : Prop where
  /-- Sequences that the program reads. -/
  read : ∀ op ∈ program, ∀ c : Cell .sequence, ⟨.sequence, c⟩ ∈ op.term.operands → before.Has c →
    ∀ x ∈ (s.store.read c).cells, ⟨.integer, x⟩ ∉ outputs program.dropLast
  /-- Sequences that outlast the program. -/
  bound : ∀ name (c : Cell .sequence), s.scope.find? name = some ⟨.sequence, c⟩ →
    ⟨.sequence, c⟩ ∉ program.outputs →
      ∀ x ∈ (s.store.read c).cells, ⟨.integer, x⟩ ∉ outputs program.dropLast

end Program

namespace Recompilation

variable (r : Recompilation)

/-- The program `init` and then `op`, compiled to the store `made`, is performed when the store is
`r.new`; compiled anew, the store is `made'`. -/
structure Rerun (made made' : Store) (literals : List Variable) (init : Program) (op : Operation)
    (program' : Program) : Prop where
  /-- The cells that were there are still there. -/
  inherits : r.Inherits
  /-- The program is a single-assignment program. -/
  linear : SingleAssignment r.old made literals (init ++ [op])
  /-- What it reads exists. -/
  reads : made.HasReads (init ++ [op])
  /-- The new program. -/
  renamed : r.Renamed init op program' made made'
  /-- Compiling has only added cells. -/
  later : r.new.Extends made'
  /-- Cells that were made are still there. -/
  there : ∀ {kind : Kind} (c : Cell kind), made.Has c → r.new.Has c
  /-- Only the last operation may have a sequence as its target. -/
  kinds : ∀ v ∈ Program.outputs init, v.kind ≠ .sequence
  /-- The last operation writes none of the intermediate results. -/
  apart : op.output ∉ Program.outputs init
  /-- The sequences have cells that exist. -/
  closed : r.new.Closed
  /-- What the program does not write holds what it held. -/
  kept : ∀ v : Variable, made.Has v.cell → ¬ r.old.Has v.cell →
    v ∉ Program.outputs (init ++ [op]) → r.new.read v.cell = made.read v.cell

/-- The sequences that the program reads mean the same in both runs. -/
structure Faithful (made' : Store) (init : Program) (op : Operation) : Prop where
  /-- Lists mean the same. -/
  lists : Program.ListsAgree (init ++ [op]) r.rename r.old r.new made'
  /-- Sequences that were there before do not depend on intermediate results. -/
  detached : ∀ o ∈ init ++ [op], ∀ c : Cell .sequence, ⟨.sequence, c⟩ ∈ o.term.operands →
    r.old.Has c → ∀ x ∈ (r.new.read c).cells, ⟨.integer, x⟩ ∉ Program.outputs init

/-- The two runs after the operations `done`. -/
structure Synchronous (made' : Store) (done : Program) (s s' : Store) : Prop where
  /-- The first run has written the outputs of the operations. -/
  first : ∀ v : Variable, v ∉ done.outputs → s.read v.cell = r.new.read v.cell
  /-- The second run has written them under their other names. -/
  second : ∀ v : Variable, (∀ w ∈ done.outputs, w.rename r.rename ≠ v) →
    s'.read v.cell = made'.read v.cell
  /-- They hold the same. -/
  same : ∀ v ∈ done.outputs, s'.read (r.rename v.kind v.cell) = s.read v.cell
  /-- Cells stay. -/
  has : ∀ {kind : Kind} {c : Cell kind}, s.Has c ↔ r.new.Has c
  has' : ∀ {kind : Kind} {c : Cell kind}, s'.Has c ↔ made'.Has c

variable {r} {made made' : Store} {literals : List Variable} {init : Program} {op : Operation}
  {program' : Program}

/-- What the program does not write is in both runs what it was. -/
theorem Synchronous.read_unwritten (inherits : r.Inherits) {done : Program} {s s' : Store}
    (sync : r.Synchronous made' done s s') (sub : ∀ v ∈ done.outputs, v ∈ Program.outputs init)
    {v : Variable} (unwritten : v ∉ Program.outputs (init ++ [op])) :
    s.read v.cell = r.new.read v.cell ∧
      s'.read (r.rename v.kind v.cell) = made'.read (r.rename v.kind v.cell) := by
  rw [Program.outputs_append] at unwritten
  have free : v ∉ done.outputs := fun mem => unwritten (List.mem_append_left _ (sub v mem))
  refine ⟨sync.first v free, sync.second (v.rename r.rename) fun w mem eq => ?_⟩
  rw [inherits.rename_injective eq] at mem
  exact free mem

namespace Rerun

variable (h : r.Rerun made made' literals init op program')
include h

/-- Intermediate results are new. -/
theorem new_of_mem {v : Variable} (mem : v ∈ Program.outputs init) : ¬ r.old.Has v.cell := by
  have fresh := h.linear.outputs_new
  rw [List.dropLast_concat] at fresh
  obtain ⟨o, member, rfl⟩ := List.mem_map.1 mem
  exact (fresh o member).2

section Lists

variable {o : Operation} (member : o ∈ init ++ [op]) {c : Cell .sequence} (new : ¬ r.old.Has c)
  (operand : ⟨.sequence, c⟩ ∈ o.term.operands)
include member new operand

/-- No operation writes a list that the program put together and that an operation reads. -/
theorem list_unwritten : (⟨.sequence, c⟩ : Variable) ∉ Program.outputs (init ++ [op]) := by
  obtain ⟨done, rest, cut⟩ := List.append_of_mem member
  have reads := made.mem_reads_of_operand operand
  rcases h.linear.reads_defined done o rest cut _ reads new with literal | ⟨-, unwritten⟩ | computed
  · intro mem
    obtain ⟨p, earlier, eq⟩ := List.mem_map.1 mem
    rw [← eq] at literal
    exact h.linear.literals_kept p earlier literal
  · exact unwritten
  · -- the operations before are those of `init`, and none of them has a sequence as its target
    obtain ⟨p, earlier, eq⟩ := List.mem_map.1 computed
    have first : init = done ++ (o :: rest).dropLast := by
      rw [← List.dropLast_append_cons, ← cut, List.dropLast_concat]
    have inside : p ∈ init := by
      rw [first]
      exact List.mem_append_left _ earlier
    exact absurd (congrArg Variable.kind eq) (h.kinds _ (List.mem_map_of_mem inside))

/-- A list that the program put together still holds what it held then. -/
theorem read_list : r.new.read c = made.read c :=
  h.kept ⟨.sequence, c⟩ (h.reads o member _ (made.mem_reads_of_operand operand)) new
    (h.list_unwritten member new operand)

end Lists

/-- **Lists agree** if the sequences that the statement reads hold what they held. -/
theorem listsAgree (agree : r.agree) :
    Program.ListsAgree (init ++ [op]) r.rename r.old r.new made' := by
  intro o member c operand new read read' now same size
  have unwritten := h.list_unwritten member new operand
  have other : (⟨.sequence, c⟩ : Variable) ≠ op.output := fun eq =>
    unwritten (by simp [eq, Program.outputs])
  rw [h.renamed.contents c new other fun _ => agree, ← h.read_list member new operand]
  refine IndexSequence.indices_rename size _ fun x mem => ?_
  by_cases old : r.old.Has x
  · have has : r.new.Has x := h.inherits.has old
    obtain ⟨one, two⟩ := now x has fun mem => by
      rw [List.dropLast_concat] at mem
      exact h.new_of_mem mem old
    rw [h.inherits.rename_of_has old, one, two]
  · exact same x mem old

section Operands

variable {done rest : Program} {s s' : Store} (sync : r.Synchronous made' done s s')
  (sub : ∀ v ∈ done.outputs, v ∈ Program.outputs init)
include sync sub

/-- What exists now is read alike in both runs, unless it is an intermediate result. -/
theorem read_now {v : Variable} (has : r.new.Has v.cell) (free : v ∉ done.outputs) :
    s.read v.cell = r.new.read v.cell ∧ s'.read v.cell = r.new.read v.cell := by
  refine ⟨sync.first v free, (sync.second v fun w mem eq => ?_).trans (h.later.read has)⟩
  subst eq
  exact r.not_has_rename (h.new_of_mem (sub w mem)) has

/-- What an operation reads that is no sequence holds the same in both runs. -/
theorem read_operand {o : Operation} (cut : init ++ [op] = done ++ o :: rest) {v : Variable}
    (kind : v.kind ≠ .sequence) (reads : v ∈ made.reads o.term) :
    s'.read (r.rename v.kind v.cell) = s.read v.cell := by
  by_cases old : r.old.Has v.cell
  · have has : r.new.Has v.cell := h.inherits.has old
    have free : v ∉ done.outputs := fun mem => h.new_of_mem (sub v mem) old
    obtain ⟨one, two⟩ := h.read_now sync sub has free
    rw [h.inherits.rename_of_has old, one, two]
  · rcases h.linear.reads_defined done o rest cut v reads old with
      literal | ⟨isSequence, -⟩ | computed
    · have unwritten : v ∉ Program.outputs (init ++ [op]) := fun mem => by
        obtain ⟨o, member, rfl⟩ := List.mem_map.1 mem
        exact h.linear.literals_kept o member literal
      obtain ⟨first, second⟩ := sync.read_unwritten h.inherits sub unwritten
      rw [first, second, h.kept v (h.linear.literals_new v literal).1 old unwritten]
      have other : v ≠ op.output := fun eq => unwritten (by simp [eq, Program.outputs])
      rw [h.renamed.contents v.cell old other fun eq => absurd eq kind,
        Kind.renameContent_of_ne kind]
    · exact absurd isSequence kind
    · exact sync.same v computed

/-- **What an operation reads means the same in both runs.** -/
theorem matches_operands (faithful : r.Faithful made' init op) {o : Operation}
    (cut : init ++ [op] = done ++ o :: rest) : s.Matches r.rename s' o.term.operands := by
  intro v operand
  -- sequences may hold other contents in the second run, so only their indices are compared
  by_cases kind : v.kind = .sequence
  case neg =>
    exact (Store.meaning_eq_iff kind).2
      (h.read_operand sync sub cut kind (made.mem_reads_of_operand operand))
  obtain ⟨_, c⟩ := v
  obtain rfl : _ = Kind.sequence := kind
  have member : o ∈ init ++ [op] := by
    rw [cut]
    simp
  by_cases old : r.old.Has c
  · have has : r.new.Has c := h.inherits.has old
    obtain ⟨one, two⟩ := h.read_now sync sub (v := ⟨.sequence, c⟩) has fun mem =>
      h.new_of_mem (sub _ mem) old
    dsimp only
    rw [h.inherits.rename_of_has old, Store.meaning, Store.meaning, one, two]
    -- both runs read the same sequence, and its cells are no intermediate results
    refine Kind.meaning_congr _ fun x mem => ?_
    have free := faithful.detached o member c operand old x mem
    obtain ⟨one, two⟩ := h.read_now sync sub (v := ⟨.integer, x⟩)
      (h.closed ⟨.sequence, c⟩ has x mem) fun mem => free (sub _ mem)
    rw [one, two]
  · have unwritten := h.list_unwritten member old operand
    obtain ⟨first, second⟩ := sync.read_unwritten h.inherits sub unwritten
    dsimp only
    rw [Store.meaning, Store.meaning, first, second]
    funext size
    refine faithful.lists o member c operand old s.read s'.read (fun x has free => ?_)
      (fun x mem _ => ?_) size
    · rw [List.dropLast_concat] at free
      exact h.read_now sync sub (v := ⟨.integer, x⟩) has fun mem => free (sub _ mem)
    · rw [h.read_list member old operand] at mem
      refine h.read_operand sync sub cut (v := ⟨.integer, x⟩) (by simp) ?_
      exact List.mem_flatMap.2 ⟨_, operand, List.mem_cons_of_mem _ (List.mem_map_of_mem mem)⟩

end Operands

/-! ### Performing -/

section Perform

variable {done rest : Program} {s s' : Store}

/-- Both runs write the output of an operation. -/
theorem synchronous_write {o : Operation} (cut : init = done ++ o :: rest)
    (sync : r.Synchronous made' done s s') (value : o.kind.Content) :
    r.Synchronous made' (done ++ [o]) (s.write o.target value)
      (s'.write (r.rename o.kind o.target) value) := by
  have member : o ∈ init := by
    rw [cut]
    simp
  have fresh := h.linear.outputs_new
  rw [List.dropLast_concat] at fresh
  obtain ⟨made, new⟩ := fresh o member
  have other : o.output ≠ op.output := fun eq => h.apart (eq ▸ List.mem_map_of_mem member)
  have has : s.Has o.target := sync.has.2 (h.there _ made)
  have has' : s'.Has (r.rename o.kind o.target) := sync.has'.2 (h.renamed.has _ new other made)
  have outputs : Program.outputs (done ++ [o]) = done.outputs ++ [o.output] :=
    Program.outputs_append _ _
  refine ⟨fun v free => ?_, fun v free => ?_, fun v mem => ?_, ?_, ?_⟩
  · rw [outputs, List.mem_append, List.mem_singleton, not_or] at free
    rw [s.read_write_of_ne free.2]
    exact sync.first v free.1
  · rw [outputs] at free
    have differ : (⟨v.kind, v.cell⟩ : Variable) ≠ ⟨o.kind, r.rename o.kind o.target⟩ := fun eq =>
      free o.output (by simp) eq.symm
    rw [s'.read_write_of_ne differ]
    exact sync.second v fun w mem => free w (List.mem_append_left _ mem)
  · by_cases last : v = o.output
    · subst last
      exact (s'.read_write_self has' value).trans (s.read_write_self has value).symm
    · rw [outputs, List.mem_append, List.mem_singleton] at mem
      have differ : (⟨v.kind, r.rename v.kind v.cell⟩ : Variable) ≠
          ⟨o.kind, r.rename o.kind o.target⟩ := fun eq => last (h.inherits.rename_injective eq)
      rw [s.read_write_of_ne last, s'.read_write_of_ne differ]
      exact sync.same v (mem.resolve_right last)
  · exact (Store.has_write _ _).trans sync.has
  · exact (Store.has_write _ _).trans sync.has'

/-- **An operation** fails in both runs with the same error, or keeps them synchronous. -/
theorem perform_step (faithful : r.Faithful made' init op) {o : Operation}
    (cut : init = done ++ o :: rest) (sync : r.Synchronous made' done s s') :
    (∃ e, o.perform s = .error e ∧ (o.rename r.rename).perform s' = .error e) ∨
      ∃ s₁ s₁', o.perform s = .ok s₁ ∧ (o.rename r.rename).perform s' = .ok s₁' ∧
        r.Synchronous made' (done ++ [o]) s₁ s₁' := by
  have sub : ∀ v ∈ done.outputs, v ∈ Program.outputs init := fun v mem => by
    rw [cut, Program.outputs_append]
    exact List.mem_append_left _ mem
  have cut' : init ++ [op] = done ++ o :: (rest ++ [op]) := by
    rw [cut, List.append_assoc, List.cons_append]
  have kind : o.kind ≠ .sequence := h.kinds o.output (List.mem_map_of_mem (by rw [cut]; simp))
  have same := o.term.eval_rename kind (h.matches_operands sync sub faithful cut')
  cases value : o.term.eval s with
  | error e =>
    exact .inl ⟨e, Operation.perform_eq_error_iff.2 value,
      Operation.perform_eq_error_iff.2 (same.trans value)⟩
  | ok x =>
    exact .inr ⟨_, _, Operation.perform_eq_ok_iff.2 ⟨x, value, rfl⟩,
      Operation.perform_eq_ok_iff.2 ⟨x, same.trans value, rfl⟩, h.synchronous_write cut sync x⟩

/-- All operations but the last fail in both runs with the same error, or leave them synchronous. -/
theorem perform_init (faithful : r.Faithful made' init op) (cut : init = done ++ rest)
    (sync : r.Synchronous made' done s s') :
    (∃ e s₁ s₁', rest.perform s = (s₁, some e) ∧
      Program.perform (rest.map (Operation.rename r.rename)) s' = (s₁', some e)) ∨
    ∃ s₁ s₁', rest.perform s = (s₁, none) ∧
      Program.perform (rest.map (Operation.rename r.rename)) s' = (s₁', none) ∧
      r.Synchronous made' init s₁ s₁' := by
  induction rest generalizing done s s' with
  | nil =>
    rw [List.append_nil] at cut
    subst cut
    exact .inr ⟨s, s', rfl, rfl, sync⟩
  | cons o rest ih =>
    rw [List.map_cons]
    rcases h.perform_step faithful cut sync with ⟨e, one, two⟩ | ⟨s₁, s₁', one, two, sync⟩
    · exact .inl ⟨e, s, s', by rw [Program.perform_cons, one], by rw [Program.perform_cons, two]⟩
    · rw [Program.perform_cons, one, Program.perform_cons, two]
      exact ih (by rw [cut, List.append_assoc]; rfl) sync

/-- The last operation fails in both runs with the same error, or writes what means the same. -/
theorem perform_last (faithful : r.Faithful made' init op)
    (sync : r.Synchronous made' init s s') :
    (∃ e, op.perform s = .error e ∧ (op.renameTerm r.rename).perform s' = .error e) ∨
      ∃ x x', op.perform s = .ok (s.write op.target x) ∧
        (op.renameTerm r.rename).perform s' = .ok (s'.write op.target x') ∧
        op.kind.meaning s'.read x' = op.kind.meaning s.read x := by
  have same := op.term.meaning_eval_rename (h.matches_operands sync (fun _ mem => mem) faithful rfl)
  cases value : op.term.eval s with
  | error e =>
    rw [value] at same
    obtain value' : (op.term.rename r.rename).eval s' = .error e := by
      cases made : (op.term.rename r.rename).eval s' <;> rw [made] at same <;> cases same
      rfl
    exact .inl ⟨e, Operation.perform_eq_error_iff.2 value, Operation.perform_eq_error_iff.2 value'⟩
  | ok x =>
    rw [value] at same
    obtain ⟨x', value', mean⟩ : ∃ x', (op.term.rename r.rename).eval s' = .ok x' ∧
        op.kind.meaning s'.read x' = op.kind.meaning s.read x := by
      cases made : (op.term.rename r.rename).eval s' with
      | error e =>
        rw [made] at same
        cases same
      | ok x' =>
        rw [made] at same
        exact ⟨x', rfl, Except.ok.inj same⟩
    exact .inr ⟨x, x', Operation.perform_eq_ok_iff.2 ⟨x, value, rfl⟩,
      Operation.perform_eq_ok_iff.2 ⟨x', value', rfl⟩, mean⟩

omit h in
/-- Writing a cell does not change what is written means. -/
theorem meaning_write {kind : Kind} {cell : Cell kind} (has : s.Has cell) (x : kind.Content) :
    (s.write cell x).meaning cell = kind.meaning s.read x := by
  rw [Store.meaning, s.read_write_self has]
  refine Kind.meaning_congr x fun c mem => s.read_write_of_ne (fun eq => ?_) x
  obtain rfl : Kind.integer = kind := congrArg Variable.kind eq
  cases mem

/-- After both runs every variable that is no intermediate result, and does not refer to any, means
the same. -/
theorem meaning_after (sync : r.Synchronous made' init s s') {x x' : op.kind.Content}
    (mean : op.kind.meaning s'.read x' = op.kind.meaning s.read x) {v : Variable}
    (has : r.new.Has v.cell) (free : v ∉ Program.outputs init)
    (cells : v ≠ op.output → ∀ c ∈ v.kind.cellsOf (r.new.read v.cell),
      (⟨.integer, c⟩ : Variable) ∉ Program.outputs init) :
    (s'.write op.target x').meaning v.cell = (s.write op.target x).meaning v.cell := by
  -- first the target of the last operation, then the variables that it does not write
  have target : ∀ {w : Variable}, r.new.Has w.cell → w = op.output →
      (s'.write op.target x').meaning w.cell = (s.write op.target x).meaning w.cell := by
    rintro w there rfl
    have one : s.Has op.target := sync.has.2 there
    have two : s'.Has op.target := sync.has'.2 (h.later.has there)
    exact (meaning_write two x').trans (mean.trans (meaning_write one x).symm)
  have others : ∀ {w : Variable}, r.new.Has w.cell → w ∉ Program.outputs init → w ≠ op.output →
      (s'.write op.target x').read w.cell = r.new.read w.cell ∧
        (s.write op.target x).read w.cell = r.new.read w.cell := by
    intro w there unwritten other
    obtain ⟨one, two⟩ := h.read_now sync (fun _ mem => mem) there unwritten
    rw [s'.read_write_of_ne other, s.read_write_of_ne other]
    exact ⟨two, one⟩
  by_cases written : v = op.output
  · exact target has written
  · obtain ⟨two, one⟩ := others has free written
    rw [Store.meaning, Store.meaning, one, two]
    refine Kind.meaning_congr _ fun c mem => ?_
    have there : r.new.Has c := h.closed v has c mem
    by_cases last : (⟨.integer, c⟩ : Variable) = op.output
    · exact target there last
    · obtain ⟨two, one⟩ := others there (cells written c mem) last
      exact two.trans one.symm

/-- **Both runs have the same result**, and every variable that is no intermediate result, and does
not refer to any, means the same after them. -/
theorem perform (faithful : r.Faithful made' init op) :
    (Program.perform (init ++ [op]) r.new).2 = (program'.perform made').2 ∧
    ((Program.perform (init ++ [op]) r.new).2 = none → ∀ v : Variable, r.new.Has v.cell →
      v ∉ Program.outputs init →
      (v ≠ op.output → ∀ c ∈ v.kind.cellsOf (r.new.read v.cell),
        (⟨.integer, c⟩ : Variable) ∉ Program.outputs init) →
      (program'.perform made').1.meaning v.cell =
        (Program.perform (init ++ [op]) r.new).1.meaning v.cell) := by
  have start : r.Synchronous made' [] r.new made' :=
    ⟨fun _ _ => rfl, fun _ _ => rfl, nofun, .rfl, .rfl⟩
  -- the last operation keeps its target, so it is not one of the renamed ones
  rw [h.renamed.program, Program.perform_append, Program.perform_append]
  rcases h.perform_init faithful rfl start with ⟨e, s₁, s₁', one, two⟩ | ⟨s₁, s₁', one, two, sync⟩
  · rw [one, two]
    exact ⟨rfl, nofun⟩
  · rw [one, two]
    dsimp only
    rw [Program.perform_cons, Program.perform_cons]
    rcases h.perform_last faithful sync with ⟨e, one, two⟩ | ⟨x, x', one, two, mean⟩
    · rw [one, two]
      exact ⟨rfl, nofun⟩
    · rw [one, two]
      exact ⟨rfl, fun _ v has free cells => h.meaning_after sync mean has free cells⟩

end Perform

end Rerun

end Recompilation

end MatrixCalc
