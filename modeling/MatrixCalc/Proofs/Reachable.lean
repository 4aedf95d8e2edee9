import MatrixCalc.Proofs.Effect
import MatrixCalc.Proofs.SingleAssignment

/-!
# Sessions that come about

A session starts empty.  Its steps create and write cells, bind and remove names, and compile and
perform statements; a `History` keeps the programs that have been compiled on the way.  In every
session that comes about so, the bound variables exist, so do the cells that sequences refer to, and
the bound names are identifiers without a meaning of their own.

* `History.Step`, `History.Reachable` : what can be done with a session.
* `History.Reachable.wellFormed` : the invariant.
-/

namespace MatrixCalc

/-! ### Words -/

theorem Numeral.isNumeral_of_read {first : Char} {cs rest : List Char} {t : Token}
    (h : read first cs = .ok (t, rest)) : t.isNumeral = true := by
  simp only [read, except_bind_eq_ok_iff, except_pure_eq_ok_iff] at h
  obtain ⟨_, -, ⟨n, _⟩, -, -, -, found, token, eq⟩ := h
  cases eq
  unfold Numeral.token at token
  split at token
  · dsimp only at token
    split at token <;> cases token
    rfl
  · cases token
    rfl

theorem Numeral.read_ne_word {first : Char} {cs rest : List Char} {name : String} :
    read first cs ≠ .ok (.word name, rest) := fun read =>
  nomatch isNumeral_of_read read

namespace Token

theorem map_eq_ok_iff {ε α β : Type} {x : Except ε α} {f : α → β} {b : β} :
    x.map f = .ok b ↔ ∃ a, x = .ok a ∧ f a = b := by
  cases x <;> simp [Except.map]

theorem readMinus_ne_word {before : Preceding} {cs rest : List Char} {name : String} :
    readMinus before cs ≠ .ok (word name, rest) := by
  intro h
  unfold readMinus at h
  split at h
  · cases h
  · split at h
    · obtain ⟨⟨t, _⟩, read, eq⟩ := map_eq_ok_iff.1 h
      cases t <;> cases eq
      exact Numeral.read_ne_word read
    · cases h
  · cases h

theorem readPoint_ne_word {cs rest : List Char} {name : String} :
    readPoint cs ≠ .ok (word name, rest) := by
  intro h
  unfold readPoint at h
  split at h
  case h_4 =>
    split at h
    · exact Numeral.read_ne_word h
    · cases h
  all_goals cases h

/-- A word is read only at a letter or an underscore, and it is an identifier. -/
theorem isIdentifier_of_step {before : Preceding} {opened opened' : List Symbol} {c : Char}
    {cs rest : List Char} {name : String}
    (h : step before opened c cs = .ok (word name, rest, opened')) : isIdentifier name = true := by
  unfold step at h
  split at h
  · obtain ⟨⟨_, _⟩, read, eq⟩ := map_eq_ok_iff.1 h
    cases eq
    exact absurd read readMinus_ne_word
  split at h
  · obtain ⟨⟨_, _⟩, read, eq⟩ := map_eq_ok_iff.1 h
    cases eq
    exact absurd read readPoint_ne_word
  -- a quote, and the four brackets
  split at h
  · split at h <;> cases h
  split at h
  · cases h
  split at h
  · cases h
  split at h
  · obtain ⟨_, -, eq⟩ := map_eq_ok_iff.1 h
    cases eq
  split at h
  · obtain ⟨_, -, eq⟩ := map_eq_ok_iff.1 h
    cases eq
  split at h
  · obtain ⟨⟨_, _⟩, read, eq⟩ := map_eq_ok_iff.1 h
    cases eq
    exact absurd read Numeral.read_ne_word
  split at h
  · rename_i start
    cases h
    have part : (cs.takeWhile isWordPart).all isWordPart = true := List.all_takeWhile
    simp [isIdentifier, start, part]
  · split at h <;> cases h

theorem isIdentifier_of_readFrom {before : Preceding} {opened : List Symbol} {cs : List Char}
    {tokens : List Token} (h : readFrom before opened cs = .ok tokens) {name : String}
    (mem : word name ∈ tokens) : isIdentifier name = true := by
  fun_induction readFrom before opened cs generalizing tokens with
  | case1 =>
    cases h
    cases mem
  | case2 | case4 => cases h
  | case3 _ _ _ _ _ ih => exact ih h mem
  | case5 _ _ _ _ _ _ _ _ used ih =>
    obtain ⟨more, read, rfl⟩ := map_eq_ok_iff.1 h
    rcases List.mem_cons.1 mem with rfl | mem
    · exact isIdentifier_of_step used
    · exact ih read mem

/-- **The words of a text are identifiers.** -/
theorem isIdentifier_of_tokenize {text : String} {tokens : List Token}
    (h : tokenize text = .ok tokens) {name : String} (mem : word name ∈ tokens) :
    isIdentifier name = true := by
  unfold tokenize at h
  split at h
  · rename_i read
    cases h
    exact isIdentifier_of_readFrom read mem
  · cases h

end Token

theorem Statement.bindable_of_targetName {text : String} {tokens left right : List Token}
    {name : String} (read : Token.tokenize text = .ok tokens)
    (cut : splitAssignment tokens = .ok (left, right)) (named : targetName left = .ok name) :
    bindable name = true := by
  have sub : ∀ t ∈ left, t ∈ tokens := by
    unfold splitAssignment at cut
    split at cut <;> cases cut
    exact fun t mem => (List.takeWhile_sublist _).subset mem
  obtain ⟨free, rest, rfl⟩ := targetName_eq_ok_iff.1 named
  rw [bindable, Token.isIdentifier_of_tokenize read (sub _ List.mem_cons_self), free]
  rfl

/-! ### Stores -/

namespace Store

variable {s : Store}

theorem has_write {kind other : Kind} (cell : Cell kind) (value : kind.Content)
    {cell' : Cell other} : (s.write cell value).Has cell' ↔ s.Has cell' := by
  unfold Has
  rw [count_write]

/-- Writing a content whose cells exist keeps the store closed. -/
theorem Closed.write (closed : s.Closed) {kind : Kind} {cell : Cell kind} {value : kind.Content}
    (h : ∀ c ∈ kind.cellsOf value, s.Has c) : (s.write cell value).Closed := by
  intro v has c mem
  rw [has_write] at has ⊢
  by_cases same : v = ⟨kind, cell⟩
  · subst same
    rw [read_write_self s has] at mem
    exact h c mem
  · rw [read_write_of_ne s same] at mem
    exact closed v has c mem

/-- The value of a term refers to cells that exist. -/
theorem Closed.cells_of_eval (closed : s.Closed) {kind : Kind} {t : Term kind}
    {value : kind.Content} (h : t.eval s = .ok value) : ∀ c ∈ kind.cellsOf value, s.Has c := by
  cases kind with
  | sequence =>
    cases t with
    | sequence a =>
      cases h
      by_cases has : s.Has a
      · exact closed ⟨.sequence, a⟩ has
      · -- a cell that does not exist reads as the empty sequence
        have empty : s.read a = IndexSequence.empty := by
          have : ¬ a.id < (s.contents .sequence).size := has
          simp [read, this, Kind.blank]
        rw [empty]
        exact List.forall_mem_nil _
  | matrix | double | integer => exact List.forall_mem_nil _

end Store

namespace Program

variable {program : Program} {s : Store}

theorem perform_cons (op : Operation) (program : Program) (s : Store) :
    perform (op :: program) s = match op.perform s with
      | .ok s => perform program s
      | .error e => (s, some e) := rfl

/-- A program succeeds if its first operation does, and then the others. -/
theorem perform_cons_eq_none_iff {op : Operation} {final : Store} :
    perform (op :: program) s = (final, none) ↔ ∃ value, op.term.eval s = .ok value ∧
      perform program (s.write op.target value) = (final, none) := by
  rw [perform_cons]
  cases run : op.perform s with
  | ok s' =>
    obtain ⟨value, eval, rfl⟩ := Operation.perform_eq_ok_iff.1 run
    simp [eval]
  | error e =>
    simp [Operation.perform_eq_error_iff.1 run]

/-- A program in two parts succeeds if the first part does, and then the second. -/
theorem perform_append_eq_none_iff {first second : Program} {final : Store} :
    perform (first ++ second) s = (final, none) ↔ ∃ between,
      perform first s = (between, none) ∧ perform second between = (final, none) := by
  rw [perform_append]
  rcases perform first s with ⟨between, _ | e⟩ <;> simp

/-- Performing creates no cell. -/
theorem has_perform {kind : Kind} {cell : Cell kind} :
    (program.perform s).1.Has cell ↔ s.Has cell := by
  induction program generalizing s with
  | nil => rfl
  | cons op program ih =>
    rw [perform_cons]
    cases run : op.perform s with
    | ok s' =>
      obtain ⟨value, -, rfl⟩ := Operation.perform_eq_ok_iff.1 run
      exact ih.trans (Store.has_write _ _)
    | error e => rfl

theorem has_of_perform {final : Store} {stop : Option Error}
    (run : program.perform s = (final, stop)) {kind : Kind} {cell : Cell kind} :
    final.Has cell ↔ s.Has cell := by
  obtain rfl : (program.perform s).1 = final := congrArg Prod.fst run
  exact has_perform

theorem closed_perform (closed : s.Closed) : (program.perform s).1.Closed := by
  induction program generalizing s with
  | nil => exact closed
  | cons op program ih =>
    rw [perform_cons]
    cases run : op.perform s with
    | ok s' =>
      obtain ⟨value, eval, rfl⟩ := Operation.perform_eq_ok_iff.1 run
      exact ih (closed.write (closed.cells_of_eval eval))
    | error e => exact closed

end Program

/-! ### Sessions -/

/-- What holds of every session that comes about. -/
structure Session.WellFormed (s : Session) : Prop where
  /-- Bound variables exist. -/
  bound : ∀ name v, s.scope.find? name = some v → s.store.Has v.cell
  /-- The cells of sequences exist. -/
  closed : s.store.Closed
  /-- Names are bound only if they can be. -/
  named : ∀ name v, s.scope.find? name = some v → bindable name = true

/-- A session and the programs that have been compiled in it. -/
structure History where
  /-- The session. -/
  session : Session := {}
  /-- The programs. -/
  programs : List Program := []

namespace History

/-- The history after a text has been compiled. -/
def compile (h : History) (source : String) : History :=
  match (h.session.compile source).result with
  | .ok program => ⟨(h.session.compile source).session, program :: h.programs⟩
  | .error _ => h

/-- What can be done with a session.  A handle of a cell that is kept without a name counts as one
with a name that occurs in no text. -/
inductive Step (h : History) : History → Prop
  /-- A cell is created. -/
  | allocate {kind : Kind} (value : kind.Content)
      (cells : ∀ c ∈ kind.cellsOf value, h.session.store.Has c) :
      Step h { h with session.store := (h.session.store.allocate value).1 }
  /-- A bound variable is given a value. -/
  | write {name : String} {v : Variable} (value : v.kind.Content)
      (bound : h.session.scope.find? name = some v)
      (cells : ∀ c ∈ v.kind.cellsOf value, h.session.store.Has c) :
      Step h { h with session.store := h.session.store.write v.cell value }
  /-- A name is given a value, and a variable if it has none of that kind. -/
  | define {kind : Kind} {name : String} {value : kind.Content} {s : Session}
      (cells : ∀ c ∈ kind.cellsOf value, h.session.store.Has c)
      (ok : h.session.define name value = .ok s) : Step h { h with session := s }
  /-- A name is bound to the variable of another name. -/
  | bind {name other : String} {v : Variable} {s : Session}
      (bound : h.session.scope.find? other = some v) (ok : h.session.bind name v = .ok s) :
      Step h { h with session := s }
  /-- A name is removed. -/
  | remove (name : String) : Step h { h with session := h.session.remove name }
  /-- A text is compiled. -/
  | compile (source : String) : Step h (h.compile source)
  /-- A program that has been compiled is performed. -/
  | perform {program : Program} (mem : program ∈ h.programs) :
      Step h { h with session := (h.session.perform program).session }

/-- The history comes about from an empty session. -/
def Reachable (h : History) : Prop := Relation.ReflTransGen Step {} h

end History

namespace Session

variable {s s' : Session}

theorem checkName_eq_ok_iff {name : String} {u : Unit} :
    checkName name = .ok u ↔ bindable name = true := by
  unfold checkName
  split <;> simp_all

theorem cell?_eq_some_iff {kind : Kind} {name : String} {cell : Cell kind} :
    s.cell? kind name = some cell ↔ s.scope.find? name = some ⟨kind, cell⟩ := by
  unfold cell?
  generalize s.scope.find? name = bound
  rcases bound with _ | ⟨other, cell'⟩
  · simp
  · by_cases same : other = kind
    · subst same
      simp
    · dsimp only
      rw [dif_neg same]
      exact ⟨nofun, fun h => absurd (congrArg Variable.kind (Option.some.inj h)) same⟩

/-- Defining overwrites a variable of the kind, or binds the name to a new one. -/
theorem define_eq_ok_iff {kind : Kind} {name : String} {value : kind.Content} :
    s.define name value = .ok s' ↔ bindable name = true ∧
      ((∃ cell, s.scope.find? name = some ⟨kind, cell⟩ ∧
        s' = { s with store := s.store.write cell value }) ∨
      ((∀ cell, s.scope.find? name ≠ some ⟨kind, cell⟩) ∧
        s' = { s with
          store := (s.store.allocate value).1
          scope := s.scope.insert name ⟨kind, (s.store.allocate value).2⟩ })) := by
  simp only [define, except_bind_eq_ok_iff, checkName_eq_ok_iff]
  cases found : s.cell? kind name with
  | some cell =>
    have bound := cell?_eq_some_iff.1 found
    simp only [except_pure_eq_ok_iff]
    constructor
    · rintro ⟨_, named, rfl⟩
      exact ⟨named, .inl ⟨cell, bound, rfl⟩⟩
    · rintro ⟨named, ⟨cell', bound', rfl⟩ | ⟨free, -⟩⟩
      · rw [bound] at bound'
        cases bound'
        exact ⟨(), named, rfl⟩
      · exact absurd bound (free cell)
  | none =>
    have free : ∀ cell, s.scope.find? name ≠ some ⟨kind, cell⟩ := fun cell bound => by
      rw [cell?_eq_some_iff.2 bound] at found
      cases found
    simp only [except_pure_eq_ok_iff]
    constructor
    · rintro ⟨_, named, rfl⟩
      exact ⟨named, .inr ⟨free, rfl⟩⟩
    · rintro ⟨named, ⟨cell, bound, -⟩ | ⟨-, rfl⟩⟩
      · exact absurd bound (free cell)
      · exact ⟨(), named, rfl⟩

theorem bind_eq_ok_iff {name : String} {v : Variable} :
    s.bind name v = .ok s' ↔ bindable name = true ∧
      s' = { s with scope := s.scope.insert name v } := by
  simp only [bind, except_bind_eq_ok_iff, except_pure_eq_ok_iff, checkName_eq_ok_iff]
  constructor
  · rintro ⟨_, named, rfl⟩
    exact ⟨named, rfl⟩
  · rintro ⟨named, rfl⟩
    exact ⟨(), named, rfl⟩

theorem perform_store (s : Session) (program : Program) :
    (s.perform program).session.store = (program.perform s.store).1 := by
  unfold perform
  split <;> simp_all

/-- Performing succeeds iff no operation fails. -/
theorem perform_eq_ok_iff {program : Program} :
    (s.perform program).result = .ok () ↔ (program.perform s.store).2 = none := by
  unfold perform
  split <;> simp_all

theorem perform_eq_error_iff {program : Program} {e : Error} :
    (s.perform program).result = .error e ↔ (program.perform s.store).2 = some e := by
  unfold perform
  split <;> simp_all

/-- Processing compiles a statement and then performs its program. -/
theorem process_eq_ok_iff {source : String} {program : Program} :
    (s.process source).result = .ok program ↔ (s.compile source).result = .ok program ∧
      (program.perform (s.compile source).session.store).2 = none := by
  unfold process
  generalize s.compile source = compiled
  obtain ⟨_ | program', session, events⟩ := compiled
  · exact ⟨nofun, nofun⟩
  · rw [← perform_eq_ok_iff]
    dsimp only
    constructor
    · intro ok
      cases performed : session.perform program' with
      | mk result after more =>
        rw [performed] at ok
        cases result with
        | error cause => cases ok
        | ok _ =>
          cases ok
          exact ⟨rfl, congrArg Outcome.result performed⟩
    · rintro ⟨⟨⟩, ok⟩
      generalize session.perform program = performed at ok ⊢
      obtain ⟨result, after, more⟩ := performed
      obtain rfl : result = .ok () := ok
      rfl

/-- Processing fails if the statement does not compile, or if its program fails. -/
theorem process_eq_error_iff {source : String} {e : Error} :
    (s.process source).result = .error e ↔ (s.compile source).result = .error e ∨
      ∃ program, (s.compile source).result = .ok program ∧
        (program.perform (s.compile source).session.store).2 = some e := by
  unfold process
  generalize s.compile source = compiled
  obtain ⟨cause | program, session, events⟩ := compiled
  · simp
  · simp only [reduceCtorEq, Except.ok.injEq, exists_eq_left', false_or]
    rw [← perform_eq_error_iff]
    generalize session.perform program = performed
    obtain ⟨cause | _, after, more⟩ := performed <;> simp

/-- A statement that compiles leaves the session that its program leaves, also where it fails. -/
theorem process_session {source : String} {program : Program}
    (ok : (s.compile source).result = .ok program) :
    (s.process source).session = ((s.compile source).session.perform program).session := by
  unfold process
  generalize s.compile source = compiled at ok ⊢
  obtain ⟨result, session, events⟩ := compiled
  obtain rfl : result = .ok program := ok
  dsimp only
  split <;> simp [*]

theorem perform_result_congr {program program' : Program}
    (h : (program.perform s.store).2 = (program'.perform s'.store).2) :
    (s.perform program).result = (s'.perform program').result := by
  unfold perform
  split <;> split <;> simp_all

namespace WellFormed

theorem empty : ({} : Session).WellFormed where
  bound _ _ found := nomatch found
  closed v has := by
    rcases v with ⟨_ | _ | _ | _, cell⟩ <;> exact absurd has (Nat.not_lt_zero cell.id)
  named _ _ found := nomatch found

/-- A session with a larger store and one name more. -/
theorem insert (h : s.WellFormed) {name : String} {v : Variable} {store : Store}
    (larger : s.store.Extends store) (closed : store.Closed) (has : store.Has v.cell)
    (named : bindable name = true) :
    ({ s with store, scope := s.scope.insert name v } : Session).WellFormed where
  bound other w found := by
    rw [Bindings.find?_insert] at found
    split at found
    · cases found
      exact has
    · exact larger.has (h.bound other w found)
  closed := closed
  named other w found := by
    rw [Bindings.find?_insert] at found
    split at found
    · rename_i same
      rwa [same]
    · exact h.named other w found

theorem larger (h : s.WellFormed) {store : Store} (larger : s.store.Extends store)
    (closed : store.Closed) : ({ s with store } : Session).WellFormed where
  bound name v found := larger.has (h.bound name v found)
  closed := closed
  named := h.named

theorem allocate (h : s.WellFormed) {kind : Kind} {value : kind.Content}
    (cells : ∀ c ∈ kind.cellsOf value, s.store.Has c) :
    ({ s with store := (s.store.allocate value).1 } : Session).WellFormed :=
  h.larger (s.store.extends_allocate value) (h.closed.allocate cells)

theorem write (h : s.WellFormed) {kind : Kind} (cell : Cell kind) {value : kind.Content}
    (cells : ∀ c ∈ kind.cellsOf value, s.store.Has c) :
    ({ s with store := s.store.write cell value } : Session).WellFormed where
  bound name v found := (Store.has_write cell value).2 (h.bound name v found)
  closed := h.closed.write cells
  named := h.named

theorem define (h : s.WellFormed) {kind : Kind} {name : String} {value : kind.Content}
    (cells : ∀ c ∈ kind.cellsOf value, s.store.Has c) (ok : s.define name value = .ok s') :
    s'.WellFormed := by
  obtain ⟨named, ⟨cell, -, rfl⟩ | ⟨-, rfl⟩⟩ := define_eq_ok_iff.1 ok
  · exact h.write cell cells
  · exact h.insert (s.store.extends_allocate value) (h.closed.allocate cells)
      (s.store.has_allocate value) named

theorem bind (h : s.WellFormed) {name : String} {v : Variable} (has : s.store.Has v.cell)
    (ok : s.bind name v = .ok s') : s'.WellFormed := by
  obtain ⟨named, rfl⟩ := bind_eq_ok_iff.1 ok
  exact h.insert (.refl _) h.closed has named

theorem remove (h : s.WellFormed) (name : String) : (s.remove name).WellFormed := by
  have kept : ∀ other v, (s.remove name).scope.find? other = some v →
      s.scope.find? other = some v := by
    intro other v found
    simp only [Session.remove, Bindings.find?_erase] at found
    split at found
    · cases found
    · exact found
  exact ⟨fun other v found => h.bound other v (kept other v found), h.closed,
    fun other v found => h.named other v (kept other v found)⟩

theorem perform (h : s.WellFormed) (program : Program) :
    (s.perform program).session.WellFormed := by
  refine ⟨fun name v found => ?_, ?_, fun name v found => ?_⟩
  · rw [perform_scope] at found
    rw [perform_store]
    exact Program.has_perform.2 (h.bound name v found)
  · rw [perform_store]
    exact Program.closed_perform h.closed
  · rw [perform_scope] at found
    exact h.named name v found

theorem compile (h : s.WellFormed) (source : String) :
    (s.compile source).session.WellFormed := by
  cases result : (s.compile source).result with
  | error e => rwa [compile_of_error result]
  | ok program =>
    cases compilesTo_of_ok result with
    | declaration _ _ _ _ session =>
      rw [session]
      exact ⟨h.bound, h.closed, h.named⟩
    | @statement tokens compiled d read _ run session =>
      have grown : s.store.Extends d.store :=
        ((Statement.growing_compile s.scope s.macros tokens).of_ok run).extends
      have closed := (Statement.singleAssignment_of_compile h.bound h.closed run).1
      rw [session]
      cases declared : compiled.declared with
      | none => exact h.larger grown closed
      | some entry =>
        obtain ⟨name, v⟩ := entry
        obtain ⟨left, right, _, _, cut, named, -, -, -, -, -, has⟩ :=
          Statement.declared_of_compile run declared
        exact h.insert grown closed has (Statement.bindable_of_targetName read cut named)

end WellFormed

end Session

/-- **Every session that comes about is well-formed.** -/
theorem History.Reachable.wellFormed {h : History} (reachable : h.Reachable) :
    h.session.WellFormed := by
  induction reachable with
  | refl => exact .empty
  | tail _ step ih =>
    cases step with
    | allocate value cells => exact ih.allocate cells
    | write value bound cells => exact ih.write _ cells
    | define cells ok => exact ih.define cells ok
    | bind bound ok => exact ih.bind (ih.bound _ _ bound) ok
    | remove name => exact ih.remove name
    | compile source =>
      unfold History.compile
      split
      · exact ih.compile source
      · exact ih
    | perform mem => exact ih.perform _

end MatrixCalc
