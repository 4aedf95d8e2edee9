import MatrixCalc.Proofs.Invocation.Values
import MatrixCalc.Proofs.Recompilation.Later

/-!
# Statements that have been performed

A text is processed: its statement is compiled, and then performed, and both succeed.  What this
consists of is its value, resolved from the tokens on its right side, and one last operation that
assigns the value.  When the last operation is performed, every operation before it has left the
value of its term, and no literal has been overwritten.

* `Program.computed_of_perform` : what the operations of a program have left.
* `Statement.Performed` : a statement that has been performed, in parts.
* `Statement.Valued` : its right side, compiled to a value.
* `Session.performed_of_process` : every text that is processed and declares no macro is one.
-/

namespace MatrixCalc

open Build MatrixCalc.Group

/-! ### Performing a program -/

/-- A term with its own names. -/
theorem Term.rename_id {kind : Kind} (t : Term kind) : t.rename (fun _ c => c) = t := by
  have scalar : ∀ x : Scalar, x.rename (fun _ c => c) = x := by
    rintro (_ | _) <;> rfl
  have index : ∀ x : Index, x.rename (fun _ c => c) = x := by
    rintro (_ | _) <;> rfl
  have address : ∀ x : Address, x.rename (fun _ c => c) = x := by
    rintro (_ | _) <;> simp only [Address.rename, index]
  have source : ∀ x : Source, x.rename (fun _ c => c) = x := by
    rintro (_ | _) <;> simp only [Source.rename, scalar]
  cases t with
  | literal rows =>
    have row : ∀ vs : List Variable, vs.map (Variable.rename fun _ c => c) = vs := List.map_id
    simp only [rename, row, List.map_id']
  | _ => simp only [rename, scalar, address, source]

/-- A term has the same value in two stores that agree on what it reads. -/
theorem Term.eval_eq_of_reads {kind : Kind} (t : Term kind) (scalar : kind ≠ .sequence)
    {s s' : Store} (h : ∀ v ∈ s.reads t, s'.read v.cell = s.read v.cell) :
    t.eval s' = t.eval s := by
  have same : s.Matches (fun _ c => c) s' t.operands := by
    intro v operand
    show s'.meaning v.cell = s.meaning v.cell
    rw [Store.meaning, Store.meaning, h v (s.mem_reads_of_operand operand)]
    exact Kind.meaning_congr _ fun c cell => h ⟨.integer, c⟩ (List.mem_flatMap.2
      ⟨v, operand, List.mem_cons_of_mem _ (List.mem_map_of_mem cell)⟩)
  have equal := t.eval_rename scalar same
  rwa [t.rename_id] at equal

namespace Program

/-- A program that writes no sequence does not change what terms read. -/
theorem reads_perform {program : Program} (h : ∀ v ∈ program.outputs, v.kind ≠ .sequence)
    (s : Store) {kind : Kind} (t : Term kind) : (program.perform s).1.reads t = s.reads t := by
  refine List.flatMap_congr fun v _ => ?_
  by_cases sequence : v.kind = .sequence
  · rw [Store.reach, Store.reach, read_perform fun mem => h v mem sequence]
  · rw [Store.reach_of_kind sequence, Store.reach_of_kind sequence]

/-- **What the operations of a program have left** are the values of their terms, if no operation
writes what it or an earlier one reads. -/
theorem computed_of_perform {program : Program} {s final : Store}
    (run : program.perform s = (final, none)) (nodup : program.outputs.Nodup)
    (has : ∀ v ∈ program.outputs, s.Has v.cell ∧ v.kind ≠ .sequence)
    (reads : ∀ done op rest, program = done ++ op :: rest → ∀ v ∈ s.reads op.term,
      v ∉ outputs (op :: rest)) :
    ∀ op ∈ program, op.term.eval final = .ok (final.read op.target) := by
  intro op mem
  obtain ⟨done, rest, rfl⟩ := List.append_of_mem mem
  have unwritten := reads done op rest rfl
  simp only [outputs_append, List.mem_append] at has
  obtain ⟨between, before, later⟩ := perform_append_eq_none_iff.1 run
  obtain ⟨value, eval, after⟩ := perform_cons_eq_none_iff.1 later
  obtain ⟨there, kind⟩ := has op.output (.inr List.mem_cons_self)
  -- the target is written once
  have once : op.output ∉ outputs rest := by
    rw [outputs_append] at nodup
    exact (List.nodup_cons.1 (List.nodup_append.1 nodup).2.1).1
  have holds : final.read op.target = value :=
    (read_of_perform after once).trans
      (between.read_write_self ((has_of_perform before).2 there) value)
  -- what the operation reads is not written from then on
  have kept : ∀ v ∈ between.reads op.term, final.read v.cell = between.read v.cell := by
    intro v read
    obtain rfl : (perform done s).1 = between := congrArg Prod.fst before
    rw [reads_perform fun w mem => (has w (.inl mem)).2] at read
    exact read_of_perform later (unwritten v read)
  rw [op.term.eval_eq_of_reads kind kept, eval, holds]

end Program

namespace Draft

variable {base after final : Store} {literals : List Variable} {d d' : Draft}

/-- The operations of a sound draft have been performed. -/
theorem Sound.exists_side (sound : d.Sound base literals) (closed : base.Closed)
    (larger : d.store.Extends after) (run : d.program.perform after = (final, none)) :
    ∃ x : Side, x.start = base ∧ x.draft = d ∧ x.store = final ∧
      ∀ v ∈ literals, x.store.read v.cell = d.store.read v.cell := by
  have kept : ∀ v : Variable, d.store.Has v.cell → v ∉ d.program.outputs →
      final.read v.cell = d.store.read v.cell := fun v has unwritten =>
    (Program.read_of_perform run unwritten).trans (larger.read has)
  have computed : ∀ op ∈ d.program, op.term.eval final = .ok (final.read op.target) := by
    refine Program.computed_of_perform run sound.nodup (fun v mem => ?_) ?_
    · exact ⟨larger.has (sound.outputs v mem).1, (sound.outputs v mem).2.2.2⟩
    · intro done op rest cut v read written
      rw [larger.reads fun w operand => sound.has_operand (by rw [cut]; simp) operand] at read
      have output : v ∈ d.program.outputs := by
        rw [cut, Program.outputs_append]
        exact List.mem_append_right _ written
      obtain ⟨-, new, other, kind⟩ := sound.outputs v output
      rcases (sound.ordered done op rest cut v read).2 with old | literal | sequence | computed
      · exact new old
      · exact other literal
      · exact kind sequence
      · have nodup := sound.nodup
        rw [cut, Program.outputs_append] at nodup
        exact (List.nodup_append.1 nodup).2.2 v computed v written rfl
  have old : base.Extends final := fun kind c has =>
    ⟨(Program.has_of_perform run).2 (larger.has (sound.old.has has)),
      (kept ⟨kind, c⟩ (sound.old.has has) fun mem =>
        (sound.outputs _ mem).2.1 has).trans (sound.old.read has)⟩
  have sequences : ∀ c : Cell .sequence, d.store.Has c → final.read c = d.store.read c :=
    fun c has => kept ⟨.sequence, c⟩ has fun mem => (sound.outputs _ mem).2.2.2 rfl
  exact ⟨⟨base, d, final, closed, old, computed, sequences⟩, rfl, rfl, rfl, fun v mem =>
    kept v (sound.literal v mem).1 fun written => (sound.outputs v written).2.2.1 mem⟩

/-- Tokens that were read on the way, and whose literals are literals of the draft. -/
theorem Prepares.reading {x : Side} {scope : Bindings Variable} {ts : List Token}
    {items : List Item} {before new : List Variable} (h : d.Prepares x.start before ts d' items new)
    (larger : x.start.Extends d.store) (run : Item.ofTokens scope ts d = .ok items d')
    (grows : d'.store.Extends x.draft.store)
    (literals : ∀ v ∈ new, x.store.read v.cell = x.draft.store.read v.cell) :
    x.Reading scope ts d items d' := by
  refine ⟨larger, run, fun v has fresh => ?_⟩
  rcases h.created v has with old | mem
  · exact absurd old fresh
  · exact (literals v mem).trans (grows.read has)

end Draft

/-! ### Statements in parts -/

namespace Statement

/-- No `=` stands among the tokens. -/
def Whole (tokens : List Token) : Prop := ∀ t ∈ tokens, isSymbol .assign t = false

/-- A statement is cut at its only `=`. -/
theorem parts_of_splitAssignment {tokens left right : List Token}
    (cut : splitAssignment tokens = .ok (left, right)) :
    tokens = left ++ .symbol .assign :: right ∧ Whole left ∧ Whole right := by
  unfold splitAssignment at cut
  split at cut
  · cases cut
  · rename_i single
    cases cut
    have left_whole : Whole (tokens.takeWhile (!isSymbol .assign ·)) := fun t mem => by
      simpa using List.mem_takeWhile_imp mem
    have join := List.takeWhile_append_dropWhile (p := (!isSymbol .assign ·)) (l := tokens)
    have none : (tokens.takeWhile (!isSymbol .assign ·)).countP (isSymbol .assign) = 0 :=
      List.countP_eq_zero.2 fun t mem => by simp [left_whole t mem]
    rw [← join, List.countP_append, none, Nat.zero_add] at single
    cases rest : tokens.dropWhile (!isSymbol .assign ·) with
    | nil =>
      rw [rest] at single
      cases single
    | cons t right =>
      have head := List.head?_dropWhile_not (!isSymbol .assign ·) tokens
      rw [rest] at head single
      have separates : isSymbol .assign t = true := by simpa using head
      rw [rest, Token.isSymbol_iff.1 separates] at join
      refine ⟨join.symm, left_whole, fun u mem => ?_⟩
      rw [List.countP_cons, separates, if_pos rfl] at single
      have no := List.countP_eq_zero.1 (Nat.succ.inj single) u mem
      simpa using no
  · cases cut

/-- Wherever an `=` stands, the statement is cut. -/
theorem splitAssignment_unique {tokens left right before behind : List Token}
    (cut : splitAssignment tokens = .ok (left, right))
    (eq : tokens = before ++ .symbol .assign :: behind) : left = before ∧ right = behind := by
  obtain ⟨join, wholeLeft, wholeRight⟩ := parts_of_splitAssignment cut
  have no : ∀ {ts : List Token}, Whole ts → .symbol .assign ∉ ts := fun whole mem => by
    cases whole _ mem
  rcases List.append_eq_append_iff.1 (join.symm.trans eq) with
    ⟨more, rfl, split⟩ | ⟨more, rfl, split⟩
  · cases more with
    | nil =>
      rw [List.append_nil]
      exact ⟨rfl, (List.cons.inj split).2⟩
    | cons t more =>
      obtain ⟨rfl, rfl⟩ := List.cons.inj split
      exact absurd (by simp) (no wholeRight)
  · cases more with
    | nil =>
      rw [List.append_nil]
      exact ⟨rfl, (List.cons.inj split).2.symm⟩
    | cons t more =>
      obtain ⟨rfl, rfl⟩ := List.cons.inj split
      exact absurd (by simp) (no wholeLeft)

/-- How the value `v`, compiled to the draft `d`, is assigned to the target `left` by the last
operation `op`. -/
inductive Assigned (s : Session) (x : Side) (name : String) (left : List Token) (v : Variable)
    (d : Draft) (op : Operation) : Prop
  /-- A variable is overwritten, or a new one of the kind of the value is bound to the name. -/
  | whole {target : Variable} (one : left.length = 1) (last : x.draft = d)
      (found : s.scope.find? name = some target ∨ s.scope.find? name = none ∧
        target.kind = v.kind ∧ ¬ s.store.Has target.cell)
      (copied : Operation.copy v target = .ok op)
  /-- Places of a matrix are overwritten. -/
  | places {m : Cell .matrix} {inside expanded : List Token} {before read : Draft}
      {items : List Item} {address : Address} (many : left.length ≠ 1)
      (found : s.scope.find? name = some ⟨.matrix, m⟩) (indices : targetIndices left = .ok inside)
      (expands : Expands s.macros inside expanded) (resolves : d.Resolves before)
      (reading : x.Reading s.scope expanded before items read)
      (addressed : Group.address (block maxNesting) items read = .ok address x.draft)
      (inserted : Operation.insert v m address = .ok op)

/-- A statement that has been compiled and performed, from the session `s` to the session `s'`. -/
structure Performed (s : Session) (tokens : List Token) (s' : Session) where
  /-- The statement up to its last operation. -/
  side : Side
  /-- The target and the right side. -/
  left : List Token
  right : List Token
  /-- The name that the target starts with. -/
  name : String
  /-- The right side with macros expanded, and its items. -/
  expanded : List Token
  items : List Item
  /-- The drafts before the right side, with its items, and with its value. -/
  before : Draft
  read : Draft
  valued : Draft
  /-- The value. -/
  value : Variable
  /-- The operation that assigns the value, and what it writes. -/
  last : Operation
  result : last.kind.Content
  start : side.start = s.store
  cut : splitAssignment tokens = .ok (left, right)
  named : targetName left = .ok name
  expands : Expands s.macros right expanded
  empty : before.constants = []
  reading : side.Reading s.scope expanded before items read
  resolved : single (block maxNesting) items read = .ok (some value) valued
  grows : valued.Grows side.draft
  assigned : Assigned s side name left value valued last
  computed : last.term.eval side.store = .ok result
  has : side.store.Has last.target
  store : s'.store = side.store.write last.target result
  found : s'.scope.find? name = some last.output
  others : ∀ other, other ≠ name → s'.scope.find? other = s.scope.find? other
  macros : s'.macros = s.macros

/-- Literals that are noted are what they were. -/
theorem Performed.honest {s s' : Session} {tokens : List Token} (p : Performed s tokens s') :
    p.side.Honest p.read := by
  refine p.reading.honest fun entry mem => ?_
  rw [p.empty] at mem
  cases mem

end Statement

/-- A program and its last operation have been performed. -/
theorem Draft.Sound.exists_side_of_last {base after final : Store} {literals : List Variable}
    {d : Draft} {op : Operation} (sound : d.Sound base literals) (closed : base.Closed)
    (larger : d.store.Extends after) (has : after.Has op.target)
    (run : Program.perform (d.program ++ [op]) after = (final, none)) :
    ∃ x : Side, x.start = base ∧ x.draft = d ∧
      (∀ v ∈ literals, x.store.read v.cell = d.store.read v.cell) ∧ x.store.Has op.target ∧
      ∃ value, op.term.eval x.store = .ok value ∧ final = x.store.write op.target value := by
  obtain ⟨between, first, last⟩ := Program.perform_append_eq_none_iff.1 run
  obtain ⟨x, start, draft, rfl, kept⟩ := sound.exists_side closed larger first
  obtain ⟨value, eval, rest⟩ := Program.perform_cons_eq_none_iff.1 last
  exact ⟨x, start, draft, kept, (Program.has_of_perform first).2 has, value, eval,
    (congrArg Prod.fst rest).symm⟩

namespace Statement

/-- A value that was compiled in a session, from the right side of a statement. -/
structure Valued (s : Session) (right : List Token) (v : Variable) (d : Draft) where
  /-- The right side with macros expanded, its items, and its literals. -/
  expanded : List Token
  items : List Item
  new : List Variable
  /-- What has been reported in front of the items, and the draft with them. -/
  log : List Event
  read : Draft
  expands : Expands s.macros right expanded
  tokens : Item.ofTokens s.scope expanded { s.draft with log } = .ok items read
  prepares : ({ s.draft with log } : Draft).Prepares s.store [] expanded read items new
  resolved : single (block maxNesting) items read = .ok (some v) d
  progress : d.Progress s.store new [v]

theorem nonempty_valued {s : Session} {right : List Token} {v : Variable} {d : Draft}
    (wellFormed : s.WellFormed) (run : value s.scope s.macros right s.draft = .ok v d) :
    Nonempty (Valued s right v d) := by
  obtain ⟨items, read, prepared, resolved⟩ := value_eq_ok_iff.1 run
  have closed := wellFormed.closed
  obtain ⟨expanded, log, new, expands, tokens, prepares, progress⟩ :=
    exists_prepares wellFormed.bound closed (Draft.Progress.start closed) prepared
  exact ⟨{
    expanded, items, new, log, read, expands, tokens, prepares, resolved
    progress := progress.step (linear_single (linear_block maxNesting) items) resolved }⟩

namespace Valued

variable {s s' : Session} {tokens left right : List Token} {name : String} {v : Variable}
  {d D d' : Draft} {op : Operation} {literals : List Variable} {after : Store}
  {declared : Option (String × Variable)}

/-- The value has been assigned, and the program with its last operation performed. -/
theorem performed (c : Valued s right v d) (closed : s.store.Closed)
    (cut : splitAssignment tokens = .ok (left, right)) (named : targetName left = .ok name)
    (sound : D.Sound s.store literals) (sub : ∀ w ∈ c.new, w ∈ literals) (grows : d.Grows D)
    (larger : D.store.Extends after) (has : after.Has op.target)
    (run : Program.perform (D.program ++ [op]) after = (s'.store, none))
    (assigned : ∀ x : Side, x.start = s.store → x.draft = D →
      (∀ w ∈ literals, x.store.read w.cell = D.store.read w.cell) →
      Assigned s x name left v d op)
    (found : s'.scope.find? name = some op.output)
    (others : ∀ other, other ≠ name → s'.scope.find? other = s.scope.find? other)
    (macros : s'.macros = s.macros) : Nonempty (Performed s tokens s') := by
  obtain ⟨x, start, rfl, kept, there, value, eval, final⟩ :=
    sound.exists_side_of_last closed larger has run
  have prepares := c.prepares
  rw [← start] at prepares
  have grown := (growing_single (growing_block maxNesting) c.items).of_ok c.resolved
  have reading := prepares.reading (start ▸ .refl _) c.tokens (grown.extends.trans grows.extends)
    fun w mem => kept w (sub w mem)
  exact ⟨{
    side := x, left, right, name, expanded := c.expanded, items := c.items
    before := { s.draft with log := c.log }, read := c.read, valued := d, value := v, last := op
    result := value, start, cut, named, expands := c.expands, empty := rfl, reading
    resolved := c.resolved, grows, assigned := assigned x start rfl kept, computed := eval
    has := there, store := final, found, others, macros }⟩

/-- The value has been assigned to a whole variable. -/
theorem performed_whole (c : Valued s right v d) (wellFormed : s.WellFormed)
    (cut : splitAssignment tokens = .ok (left, right)) (named : targetName left = .ok name)
    (one : left.length = 1) (assigned : assignWhole s.scope name v d = .ok declared d')
    (run : d'.program.perform d'.store = (s'.store, none))
    (scope : s'.scope = s.scopeWith declared) (macros : s'.macros = s.macros) :
    Nonempty (Performed s tokens s') := by
  have sound := c.progress.sound
  rcases assignWhole_eq_ok_iff.1 assigned with ⟨target, op, found, copied, rfl, rfl⟩ |
    ⟨op, free, copied, rfl, rfl⟩
  · obtain ⟨-, rfl⟩ := operands_of_copy copied
    have has := sound.old.has (wellFormed.bound name _ found)
    refine c.performed wellFormed.closed cut named sound (fun _ => id) .refl (.refl _) has run
      (fun x _ last _ => .whole one last (.inl found) copied) ?_ (fun other _ => ?_) macros
    · rw [scope]
      exact found
    · rw [scope]
      rfl
  · have output := (operands_of_copy copied).2
    have has : (d.allocated v.kind).store.Has op.output.cell := by
      rw [output]
      exact d.store.has_allocate v.kind.blank
    have fresh : ¬ s.store.Has (d.fresh v.kind).cell := fun old =>
      d.store.not_has_allocate v.kind.blank (sound.old.has old)
    have kind : (d.fresh v.kind).kind = v.kind := rfl
    refine c.performed wellFormed.closed cut named sound (fun _ => id) .refl
      (d.store.extends_allocate v.kind.blank) has run
      (fun x _ last _ => .whole one last (.inr ⟨free, kind, fresh⟩) copied) ?_
      (fun other differs => ?_) macros
    · rw [scope, output]
      exact (Bindings.find?_insert _ _ _ _).trans (if_pos rfl)
    · rw [scope]
      exact (Bindings.find?_insert _ _ _ _).trans (if_neg differs)

/-- The value has been assigned to places of a matrix. -/
theorem performed_places (c : Valued s right v d) (wellFormed : s.WellFormed)
    (cut : splitAssignment tokens = .ok (left, right)) (named : targetName left = .ok name)
    (many : left.length ≠ 1) (assigned : assignPlaces s.scope s.macros name left v d = .ok () d')
    (run : d'.program.perform d'.store = (s'.store, none)) (scope : s'.scope = s.scope)
    (macros : s'.macros = s.macros) : Nonempty (Performed s tokens s') := by
  obtain ⟨m, inside, items, read, address, d₁, op, found, indices, prepared, addressed, inserted,
    rfl⟩ := assignPlaces_eq_ok_iff.1 assigned
  obtain ⟨expanded, log, new, expands, readTokens, prepares, progress⟩ :=
    exists_prepares wellFormed.bound wellFormed.closed c.progress prepared
  have done := progress.step (linear_address (linear_block maxNesting) items) addressed
  have grows := (growing_address (growing_block maxNesting) items).of_ok addressed
  have resolves : d.Resolves { d with log } := ⟨.single (.report _ _), rfl⟩
  have output := (operands_of_insert inserted).2
  have has : d₁.store.Has op.output.cell := by
    rw [output]
    exact done.sound.old.has (wellFormed.bound name _ found)
  refine c.performed wellFormed.closed cut named done.sound
    (fun w mem => List.mem_append_left _ mem) (resolves.grows.trans (prepares.grows.trans grows))
    (.refl _) has run (fun x start last kept => ?_) ?_ (fun other _ => by rw [scope]) macros
  · subst last
    rw [← start] at prepares
    have reading := prepares.reading (start ▸ c.progress.sound.old) readTokens grows.extends
      fun w mem => kept w (List.mem_append_right _ mem)
    exact .places many found indices expands resolves reading addressed inserted
  · rw [scope, output]
    exact found

end Valued

end Statement

namespace Session

variable {s : Session} {source : String} {tokens : List Token} {program : Program}

/-- Processing is compiling and then performing. -/
theorem process_eq_ok (ok : (s.process source).result = .ok program) :
    (s.compile source).result = .ok program ∧
      program.perform (s.compile source).session.store =
        ((s.process source).session.store, none) ∧
      (s.process source).session.scope = (s.compile source).session.scope ∧
      (s.process source).session.macros = (s.compile source).session.macros := by
  obtain ⟨compiles, succeeds⟩ := process_eq_ok_iff.1 ok
  rw [process_session compiles, perform_store, perform_scope, perform_macros]
  exact ⟨compiles, Prod.ext rfl succeeds, rfl, rfl⟩

/-- **A text that is processed** and declares no macro is a statement that has been performed. -/
theorem performed_of_process (wellFormed : s.WellFormed) (read : Token.tokenize source = .ok tokens)
    (notMacro : Token.declareMacro tokens = false) (ok : (s.process source).result = .ok program) :
    Nonempty (Statement.Performed s tokens (s.process source).session) := by
  obtain ⟨compiles, performed, scope, macros⟩ := process_eq_ok ok
  obtain ⟨compiled, d, run, rfl, session⟩ := compile_of_statement read notMacro compiles
  rw [session] at performed scope macros
  obtain ⟨left, right, name, v, d₁, declared, d₂, cut, -, named, valued, assigned, rfl, rfl⟩ :=
    Statement.compile_eq_ok_iff.1 run
  obtain ⟨c⟩ := Statement.nonempty_valued wellFormed valued
  rcases Statement.assign_eq_ok_iff.1 assigned with ⟨one, whole⟩ | ⟨many, rfl, places⟩
  · exact c.performed_whole wellFormed cut named one whole performed scope macros
  · exact c.performed_places wellFormed cut named many places performed scope macros

end Session

end MatrixCalc
