import MatrixCalc.Proofs.Hidden
import MatrixCalc.Proofs.Recompilation.Performed

/-!
# Performing later

A statement is compiled, other things are done with the session, and then its program is performed.
Beside this stands the later session in which the statement is compiled anew.

* `Session.StillNames`, `Session.StillHolds` : that names, and sequences, are what they were.
* `Session.perform_later` : **performing does what compiling anew and performing does**, if the
  lists of the program are up to date and no sequence refers to its intermediate results.
* `Session.stale_list`, `Session.shared_result` : neither condition can be dropped.
-/

namespace MatrixCalc

theorem Builtin.ofName?_of_bindable {name : String} (h : bindable name = true) :
    ofName? name = none := by
  simp only [bindable, isReserved, Bool.and_eq_true, Bool.not_eq_true', Bool.or_eq_false_iff,
    Option.isSome_eq_false_iff, Option.isNone_iff_eq_none] at h
  exact h.1.2

namespace Session

/-! ### What a text relies on -/

/-- The text reads the name: it stands on the right side or between the brackets of the target, with
macros expanded. -/
def Reads (s : Session) (source name : String) : Prop :=
  ∃ tokens, Token.tokenize source = .ok tokens ∧ Statement.Reads s.macros tokens name

/-- The text reads the name or assigns to it. -/
def Uses (s : Session) (source name : String) : Prop :=
  s.Reads source name ∨
    ∃ tokens, Token.tokenize source = .ok tokens ∧ Statement.Targets tokens name

/-- The macros are the same, and the names that the text uses are bound to the same variables. -/
structure StillNames (s s' : Session) (source : String) : Prop where
  /-- The macros are the same. -/
  macros : s'.macros = s.macros
  /-- The names are bound to the same variables. -/
  names : ∀ name v, s.Uses source name → s.scope.find? name = some v →
    s'.scope.find? name = some v

/-- The sequences that the text reads hold the same; the cells they refer to may differ. -/
def StillHolds (s s' : Session) (source : String) : Prop :=
  ∀ name (c : Cell .sequence), s.Reads source name → s.scope.find? name = some ⟨.sequence, c⟩ →
    s'.store.read c = s.store.read c

/-- The lists in a program that a text has had before mean what they mean in the program that the
text has now. -/
def UpToDate (before s : Session) (source : String) (program : Program) : Prop :=
  program.ListsAgree (.shift before.store s.store) before.store s.store
    (s.compile source).session.store

/-- The same names are bound to the same variables and macros, and the variables mean the same. -/
structure Equivalent (s s' : Session) : Prop where
  /-- The same variables. -/
  scope : s'.scope = s.scope
  /-- The same macros. -/
  macros : ∀ name, s'.macros.find? name = s.macros.find? name
  /-- They mean the same. -/
  meaning : ∀ name v, s.scope.find? name = some v → s'.store.meaning v.cell = s.store.meaning v.cell

end Session

/-! ### A statement compiled later -/

namespace History

variable {h h' : History} {source : String} {program : Program}

/-- The text compiled in a session, and again in a later one. -/
def recompilation (h h' : History) (source : String) : Recompilation where
  old := h.session.store
  new := h'.session.store
  base _ c := c
  agree := h.session.StillHolds h'.session source
  mirror := False

theorem inherits_of_steps (source : String) (steps : Relation.ReflTransGen Step h h') :
    (recompilation h h' source).Inherits := ⟨fun _ => rfl, has_of_steps steps⟩

section Statement

variable {tokens : List Token} (reachable : h.Reachable)
  (read : Token.tokenize source = .ok tokens) (notMacro : Token.declareMacro tokens = false)
  (ok : (h.session.compile source).result = .ok program)
  (steps : Relation.ReflTransGen Step (h.compile source) h')
include reachable read notMacro ok

/-- The target of a statement is bound to nothing else that the statement creates. -/
theorem unbound_of_compile {init : Program} {op : Operation} (split : program = init ++ [op])
    {v : Variable} (new : ¬ h.session.store.Has v.cell) (other : v ≠ op.output) (name : String) :
    (h.session.compile source).session.scope.find? name ≠ some v := by
  have wellFormed := reachable.wellFormed
  obtain ⟨compiled, d, run, rfl, session⟩ := Session.compile_of_statement read notMacro ok
  obtain ⟨init', op', split', -, declared⟩ :=
    Statement.outputs_of_compile wellFormed.bound wellFormed.closed run
  obtain ⟨rfl, same⟩ := List.append_inj' (split.symm.trans split') rfl
  cases same
  have free : h.session.scope.find? name ≠ some v := fun bound =>
    new (wellFormed.bound name v bound)
  rw [session]
  rcases declared with ⟨none, -⟩ | ⟨-, -, target, declared⟩
  · rwa [none]
  · rw [declared]
    intro found
    rw [Session.scopeWith, Bindings.find?_insert] at found
    split at found
    · exact other (Option.some.inj found).symm
    · exact free found

include steps

/-- What a statement creates beside its target stays private, and what the statement does not
compute stays what it was. -/
theorem private_of_steps {init : Program} {op : Operation} (split : program = init ++ [op])
    {v : Variable} (has : (h.session.compile source).session.store.Has v.cell)
    (new : ¬ h.session.store.Has v.cell) (other : v ≠ op.output) :
    h'.Private program v ∧ (v ∉ program.outputs →
      h'.session.store.read v.cell = (h.session.compile source).session.store.read v.cell) := by
  have first := reachable.private_of_compile ok has new
    (unbound_of_compile reachable read notMacro ok split new other)
  have later := first.later (reachable.tail (.compile source)) steps
  rwa [compile_session] at later

variable (same : (h.session.compile source).session.StillNames h'.session source)
include same

/-- The names that a statement reads are bound to corresponding variables. -/
theorem likeScope_of_steps :
    (recompilation h h' source).LikeScope h.session.scope
      h'.session.scope (Statement.Reads h.session.macros tokens) where
  bound name v reads found := by
    have wellFormed := reachable.wellFormed
    have inherits := inherits_of_steps source (.head (.compile source) steps)
    obtain ⟨compiled, d, -, -, session⟩ := Session.compile_of_statement read notMacro ok
    have uses : (h.session.compile source).session.Uses source name :=
      .inl ⟨tokens, read, by rwa [session]⟩
    refine ⟨v, same.names name v uses (Session.find?_of_compile found), ?_, inherits.known _, ?_⟩
    · have has : (recompilation h h' source).old.Has v.cell := wellFormed.bound name v found
      rw [Variable.rename, inherits.rename_of_has has]
    · rintro agree c rfl has
      constructor
      · exact (agree name c ⟨tokens, read, reads⟩ found).trans
          (IndexSequence.rename_eq_self _ fun _ _ => rfl).symm
      · intro x mem
        have old : h.session.store.Has x := wellFormed.closed ⟨.sequence, c⟩ has x mem
        exact ⟨old, inherits.has old⟩
  unbound := False.elim
  builtin name v found := by
    have wellFormed' := Reachable.wellFormed ((reachable.tail (.compile source)).trans steps)
    exact Builtin.ofName?_of_bindable (wellFormed'.named name v found)

/-- **A statement compiled later** has the same program under other names for new cells, if it
compiles; it does if the sequences that it reads hold what they held. -/
theorem rerun_of_steps : ∃ init op literals, program = init ++ [op] ∧
    (∀ v ∈ Program.outputs init, h'.Private program v) ∧
    (h.session.StillHolds h'.session source →
      ∃ program', (h'.session.compile source).result = .ok program') ∧
    ∀ program', (h'.session.compile source).result = .ok program' →
      (h'.session.compile source).session.scope = h'.session.scope ∧
      (h'.session.compile source).session.macros = h'.session.macros ∧
      (recompilation h h' source).Rerun
        (h.session.compile source).session.store (h'.session.compile source).session.store literals
        init op program' := by
  have wellFormed := reachable.wellFormed
  have wellFormed' := Reachable.wellFormed ((reachable.tail (.compile source)).trans steps)
  have like := likeScope_of_steps reachable read notMacro ok steps same
  have later := @private_of_steps _ _ _ _ _ reachable read notMacro ok steps
  obtain ⟨compiled, d, run, rfl, session⟩ := Session.compile_of_statement read notMacro ok
  obtain ⟨-, reads, literals, -, linear⟩ :=
    Statement.singleAssignment_of_compile wellFormed.bound wellFormed.closed run
  obtain ⟨init, op, split, before, -⟩ :=
    Statement.outputs_of_compile wellFormed.bound wellFormed.closed run
  have macros : h'.session.macros = h.session.macros := by rw [same.macros, session]
  have bound : ∀ {name w}, Statement.Targets tokens name →
      (h.session.compile source).session.scope.find? name = some w →
      h'.session.scope.find? name = some w := fun target found =>
    same.names _ _ (.inr ⟨tokens, read, target⟩) found
  -- a target that the first compilation introduced is found by the second
  have inherits := inherits_of_steps source (.head (.compile source) steps)
  obtain ⟨success, result⟩ := Recompilation.renamed_of_compile inherits wellFormed.bound like
    (fun name w target found => bound target (Session.find?_of_compile found)) run
    fun name w declared => by
      obtain ⟨left, right, _, _, cut, named, -⟩ := Statement.declared_of_compile run declared
      refine bound ⟨left, right, cut, named⟩ ?_
      rw [session, declared, Session.scopeWith, Bindings.find?_insert, if_pos rfl]
  rw [← macros] at success result
  refine ⟨init, op, literals, split, fun v mem => ?_, fun agree => ?_, fun program' ok' => ?_⟩
  · obtain ⟨has, new, other⟩ := before v mem
    exact (later split (by rwa [session]) new other).1
  · obtain ⟨compiled', d', run'⟩ := success agree
    exact ⟨_, (Session.compile_of_ok read notMacro run').1⟩
  · obtain ⟨compiled', d', run', rfl, session'⟩ := Session.compile_of_statement read notMacro ok'
    obtain ⟨declared, init', op', split', renamed⟩ := result run'
    obtain ⟨rfl, same⟩ := List.append_inj' (split.symm.trans split') rfl
    cases same
    refine ⟨by rw [session', declared]; rfl, by rw [session'], ?_⟩
    have kinds := Statement.kind_of_intermediate wellFormed.bound wellFormed.closed run
    rw [split, List.dropLast_concat] at kinds
    rw [split] at linear reads
    rw [split, session] at later
    rw [session', session]
    exact {
      inherits, linear, reads, renamed, kinds
      later := ((Statement.growing_compile _ _ tokens).of_ok run').extends
      there := fun c has => has_of_steps steps (by rwa [compile_session, session])
      apart := fun mem => (before op.output mem).2.2 rfl
      closed := wellFormed'.closed
      kept := fun v has new unwritten =>
        (later rfl has new fun eq => unwritten (by simp [eq, Program.outputs])).2 unwritten }

end Statement

end History

/-! ### Performing -/

namespace Session

variable {h h' : History} {source : String} {program : Program}

section Later

variable (reachable : h.Reachable) (ok : (h.session.compile source).result = .ok program)
  (steps : Relation.ReflTransGen History.Step (h.compile source) h')
  (same : (h.session.compile source).session.StillNames h'.session source)
include reachable ok steps same

/-- A text that compiled still compiles, and its lists are up to date, if the sequences that it
reads hold what they held. -/
theorem upToDate_of_stillHolds (holds : h.session.StillHolds h'.session source) :
    (∃ program', (h'.session.compile source).result = .ok program') ∧
      h.session.UpToDate h'.session source program := by
  cases compilesTo_of_ok ok with
  | declaration read isMacro parsed named =>
    exact ⟨⟨[], compile_of_macro read isMacro parsed named⟩, nofun⟩
  | statement read notMacro =>
    obtain ⟨init, op, literals, split, -, compiles, rerun⟩ :=
      History.rerun_of_steps reachable read notMacro ok steps same
    rw [split]
    obtain ⟨program', ok'⟩ := compiles holds
    exact ⟨⟨program', ok'⟩, (rerun program' ok').2.2.listsAgree holds⟩

omit reachable steps in
/-- A macro that is declared again is the same macro. -/
theorem equivalent_of_declaration {tokens : List Token} {program' : Program}
    (read : Token.tokenize source = .ok tokens) (isMacro : Token.declareMacro tokens = true)
    (ok' : (h'.session.compile source).result = .ok program') : program = [] ∧ program' = [] ∧
      h'.session.Equivalent (h'.session.compile source).session := by
  obtain ⟨m, parsed, named, rfl, session⟩ := compile_of_declaration read isMacro ok
  obtain ⟨m', parsed', -, rfl, session'⟩ := compile_of_declaration read isMacro ok'
  rw [parsed] at parsed'
  cases parsed'
  rw [session']
  refine ⟨rfl, rfl, rfl, fun name => ?_, fun _ _ _ => rfl⟩
  change (h'.session.macros.insert m.name m).find? name = h'.session.macros.find? name
  rw [same.macros, session, Bindings.find?_insert, Bindings.find?_insert]
  split <;> rfl

/-- The program of a text does what its new program does, if its lists are up to date and no
sequence refers to its intermediate results. -/
theorem perform_of_upToDate {program' : Program}
    (ok' : (h'.session.compile source).result = .ok program')
    (upToDate : h.session.UpToDate h'.session source program)
    (detached : program.Detached h.session.store h'.session) :
    let later := h'.session.perform program
    let anew := (h'.session.compile source).session.perform program'
    later.result = anew.result ∧
      (later.result = .ok () → later.session.Equivalent anew.session) := by
  obtain ⟨tokens, read⟩ := tokenize_of_compile ok
  cases isMacro : Token.declareMacro tokens with
  | true =>
    obtain ⟨rfl, rfl, equivalent⟩ := equivalent_of_declaration ok same read isMacro ok'
    exact ⟨rfl, fun _ => equivalent⟩
  | false =>
    obtain ⟨init, op, literals, rfl, hidden, -, rerun⟩ :=
      History.rerun_of_steps reachable read isMacro ok steps same
    obtain ⟨scope, macros, rerun⟩ := rerun program' ok'
    obtain ⟨reads, bound⟩ := detached
    rw [List.dropLast_concat] at reads bound
    obtain ⟨result, contents⟩ := rerun.perform ⟨upToDate, reads⟩
    refine ⟨perform_result_congr result, fun succeeds =>
      ⟨?_, fun name => ?_, fun name v found => ?_⟩⟩
    · rw [perform_scope, perform_scope, scope]
    · rw [perform_macros, perform_macros, macros]
    · rw [perform_scope] at found
      rw [perform_store, perform_store]
      have wellFormed' : h'.session.WellFormed :=
        History.Reachable.wellFormed ((reachable.tail (.compile source)).trans steps)
      have free : v ∉ Program.outputs init := fun mem => (hidden v mem).unbound name found
      -- what is left are sequences that the program does not write
      refine contents (perform_eq_ok_iff.1 succeeds) v (wellFormed'.bound name v found) free
        fun other => ?_
      obtain ⟨kind, c⟩ := v
      cases kind with
      | sequence =>
        refine bound name c found ?_
        rw [Program.outputs_append, List.mem_append]
        rintro (mem | mem)
        · exact free mem
        · exact other (List.mem_singleton.1 mem)
      | matrix | double | integer => nofun

end Later

/-- Sequences that refer only to cells that were there before do not depend on the program. -/
theorem detached_of_old {s s' : Session} (wellFormed : s.WellFormed)
    (ok : (s.compile source).result = .ok program)
    (read : ∀ c : Cell .sequence, s.store.Has c →
      ∀ x ∈ (s'.store.read c).cells, s.store.Has x)
    (bound : ∀ name (c : Cell .sequence), s'.scope.find? name = some ⟨.sequence, c⟩ →
      ⟨.sequence, c⟩ ∉ program.outputs → ∀ x ∈ (s'.store.read c).cells, s.store.Has x) :
    program.Detached s.store s' where
  read _ _ c _ has x mem written := new_of_compile wellFormed ok _ written (read c has x mem)
  bound name c found unwritten x mem written :=
    new_of_compile wellFormed ok _ written (bound name c found unwritten x mem)

/-! ### Sample sessions -/

/-- The program of a text, empty if the text does not compile. -/
def programOf (s : Session) (source : String) : Program :=
  (s.compile source).result.toOption.getD []

theorem exists_of_isSome_toOption {ε α : Type} {x : Except ε α} (h : x.toOption.isSome = true) :
    ∃ a, x = .ok a := by
  cases x with
  | ok a => exact ⟨a, rfl⟩
  | error e => cases h

theorem result_eq_programOf {s : Session} {source : String}
    (h : (s.compile source).result.toOption.isSome = true) :
    (s.compile source).result = .ok (s.programOf source) := by
  obtain ⟨program, run⟩ := exists_of_isSome_toOption h
  rw [programOf, run]
  rfl

/-- A session in which `n` is bound to an integer and `p` to a sequence. -/
def sample (n : Int64) (p : IndexSequence) : Session where
  store := { integers := #[n], sequences := #[p] }
  scope := ⟨[("n", ⟨.integer, ⟨0⟩⟩), ("p", ⟨.sequence, ⟨0⟩⟩)]⟩

theorem reachable_sample (n : Int64) {p : IndexSequence} (h : ∀ c ∈ p.cells, c = ⟨0⟩) :
    History.Reachable { session := sample n p } := by
  let s : Session := { store := { integers := #[n] }, scope := ⟨[("n", ⟨.integer, ⟨0⟩⟩)]⟩ }
  have first : @define {} .integer "n" n = .ok s := by rfl
  have second : @define s .sequence "p" p = .ok (sample n p) := by rfl
  have cells : ∀ c ∈ p.cells, s.store.Has c := by
    intro c mem
    rw [h c mem]
    exact Nat.zero_lt_one
  exact (Relation.ReflTransGen.single (@History.Step.define {} .integer "n" n s nofun first)).tail
    (@History.Step.define { session := s } .sequence "p" p _ cells second)

/-- What a text does not depend on in a session with the names of a sample and a sequence `q`. -/
theorem detached_of_sample {s s' : Session} (wellFormed : s.WellFormed)
    (ok : (s.compile source).result = .ok program) {i : Nat} (one : s.store.count .sequence = 1)
    (entries : s'.scope.entries =
      [("n", ⟨.integer, ⟨0⟩⟩), ("p", ⟨.sequence, ⟨0⟩⟩), ("q", ⟨.sequence, ⟨i⟩⟩)])
    (p : ∀ x ∈ (s'.store.read (⟨0⟩ : Cell .sequence)).cells, s.store.Has x)
    (q : (s'.store.read (⟨i⟩ : Cell .sequence)).cells = []) : program.Detached s.store s' := by
  refine detached_of_old wellFormed ok (fun c has => ?_) fun name c found _ => ?_
  · have least : c.id < 1 := one ▸ has
    obtain ⟨_⟩ := c
    obtain rfl := Nat.lt_one_iff.1 least
    exact p
  · simp only [Bindings.find?, entries, Bindings.findIn] at found
    split at found
    · cases found
    split at found
    · cases found
      exact p
    split at found
    · cases found
      rw [q]
      exact List.forall_mem_nil _
    · cases found

end Session

namespace History

variable {h : History} {source : String} {v : Variable} {value : v.kind.Content}

/-- The history after a text has been compiled and then a variable given a value. -/
def revise (h : History) (source : String) (v : Variable) (value : v.kind.Content) : History :=
  { h.compile source with
    session.store := (h.compile source).session.store.write v.cell value }

theorem steps_revise {name : String}
    (bound : (h.session.compile source).session.scope.find? name = some v)
    (cells : ∀ c ∈ v.kind.cellsOf value, (h.session.compile source).session.store.Has c) :
    Relation.ReflTransGen Step (h.compile source) (h.revise source v value) := by
  rw [← compile_session] at bound cells
  exact .single (.write value bound cells)

theorem stillNames_revise :
    (h.session.compile source).session.StillNames (h.revise source v value).session source := by
  rw [← compile_session]
  exact ⟨rfl, fun _ _ _ found => found⟩

theorem read_revise {w : Variable} (has : h.session.store.Has w.cell) (other : w ≠ v) :
    (h.revise source v value).session.store.read w.cell = h.session.store.read w.cell := by
  have compiled := (h.session.extends_compile source).read has
  rw [← compile_session] at compiled
  exact (Store.read_write_of_ne _ other value).trans compiled

/-- The history after a text has been compiled and performed. -/
def process (h : History) (source : String) : History :=
  { h.compile source with
    session := ((h.compile source).session.perform (h.session.programOf source)).session }

theorem step_process (compiles : (h.session.compile source).result.toOption.isSome = true) :
    Step (h.compile source) (h.process source) := by
  have ok := Session.result_eq_programOf compiles
  refine .perform ?_
  rw [compile_of_ok ok]
  exact List.mem_cons_self

theorem scope_process (h : History) (source : String) :
    (h.process source).session.scope = (h.session.compile source).session.scope := by
  rw [← compile_session]
  exact Session.perform_scope _ _

end History

/-! ### Performing later -/

namespace Session

/-- **Performing later** does what compiling anew and performing does, with the same success or
error, and on success every bound variable means the same, sequences for every size.  This takes
that the text still compiles, that the lists of the program are up to date, and that no sequence
refers to its intermediate results.  The first two hold if the sequences that the text reads hold
what they held, so always if it reads none. -/
theorem perform_later {h h' : History} {source : String} {program : Program}
    (reachable : h.Reachable) (ok : (h.session.compile source).result = .ok program)
    (steps : Relation.ReflTransGen History.Step (h.compile source) h')
    (same : (h.session.compile source).session.StillNames h'.session source) :
    (h.session.StillHolds h'.session source →
      (∃ program', (h'.session.compile source).result = .ok program') ∧
        h.session.UpToDate h'.session source program) ∧
    ∀ program', (h'.session.compile source).result = .ok program' →
      h.session.UpToDate h'.session source program →
      program.Detached h.session.store h'.session →
      let later := h'.session.perform program
      let anew := (h'.session.compile source).session.perform program'
      later.result = anew.result ∧
        (later.result = .ok () → later.session.Equivalent anew.session) :=
  ⟨upToDate_of_stillHolds reachable ok steps same, fun _ ok' upToDate detached =>
    perform_of_upToDate reachable ok steps same ok' upToDate detached⟩

/-- The list of a sequence and a product, with `n` written between compiling and performing. -/
theorem perform_later_of_list : ∃ (h h' : History) (program program' : Program), h.Reachable ∧
    (h.session.compile "q = p n*2").result = .ok program ∧
    program.names = ["multiply-ii", "copy-is-is"] ∧
    Relation.ReflTransGen History.Step (h.compile "q = p n*2") h' ∧
    (h.session.compile "q = p n*2").session.StillNames h'.session "q = p n*2" ∧
    h.session.StillHolds h'.session "q = p n*2" ∧
    (h'.session.compile "q = p n*2").result = .ok program' ∧
    h.session.UpToDate h'.session "q = p n*2" program ∧
    program.Detached h.session.store h'.session ∧
    (h'.session.perform program).result = .ok () ∧
    (h'.session.perform program).session.Equivalent
      ((h'.session.compile "q = p n*2").session.perform program').session := by
  let h : History := { session := sample 3 (.progression ⟨0⟩ none ⟨0⟩) }
  let h' : History := h.revise "q = p n*2" ⟨.integer, ⟨0⟩⟩ (4 : Int64)
  have reachable : h.Reachable := reachable_sample 3 (by simp [IndexSequence.cells])
  have wellFormed := reachable.wellFormed
  have ok := @result_eq_programOf h.session "q = p n*2" (by decide +kernel)
  have steps : Relation.ReflTransGen History.Step (h.compile "q = p n*2") h' :=
    @History.steps_revise _ _ _ _ "n" (find?_of_compile rfl) (List.forall_mem_nil _)
  have same : (h.session.compile "q = p n*2").session.StillNames h'.session "q = p n*2" :=
    History.stillNames_revise
  have kept : ∀ c : Cell .sequence, h.session.store.Has c →
      h'.session.store.read c = h.session.store.read c := fun c has =>
    History.read_revise (w := ⟨.sequence, c⟩) has (by simp)
  have holds : h.session.StillHolds h'.session "q = p n*2" := fun name c _ found =>
    kept c (wellFormed.bound name _ found)
  have has : h.session.store.Has (⟨0⟩ : Cell .sequence) := Nat.zero_lt_one
  have detached : (h.session.programOf "q = p n*2").Detached h.session.store h'.session :=
    detached_of_sample wellFormed ok rfl (by decide +kernel)
      (fun x mem => wellFormed.closed ⟨.sequence, ⟨0⟩⟩ has x (kept _ has ▸ mem))
      (i := 2) (by decide +kernel)
  have succeeds : ((h.session.programOf "q = p n*2").perform h'.session.store).2.isNone = true := by
    decide +kernel
  have succeeds := perform_eq_ok_iff.2 (Option.isNone_iff_eq_none.1 succeeds)
  obtain ⟨⟨program', ok'⟩, upToDate⟩ := (perform_later reachable ok steps same).1 holds
  exact ⟨h, h', _, program', reachable, ok, by decide +kernel, steps, same, holds, ok', upToDate,
    detached, succeeds,
    ((perform_later reachable ok steps same).2 program' ok' upToDate detached).2 succeeds⟩

/-- Sessions in which a sequence of a name has other indices are not equivalent. -/
theorem not_equivalent {s s' : Session} {name : String} {c : Cell .sequence}
    (found : s.scope.find? name = some ⟨.sequence, c⟩) {size : Nat}
    (differ : (s'.store.meaning c size).toOption ≠ (s.store.meaning c size).toOption) :
    ¬ s.Equivalent s' := fun h =>
  differ (congrArg Except.toOption (congrFun (h.meaning name ⟨.sequence, c⟩ found) size))

/-- **Lists go stale.**  A list holds what the sequences beside each other held when it was
compiled: where `p` has been emptied since, performing does not do what compiling anew and
performing does. -/
theorem stale_list : ∃ (h h' : History) (program program' : Program), h.Reachable ∧
    (h.session.compile "q = p 5").result = .ok program ∧
    Relation.ReflTransGen History.Step (h.compile "q = p 5") h' ∧
    (h.session.compile "q = p 5").session.StillNames h'.session "q = p 5" ∧
    (h'.session.compile "q = p 5").result = .ok program' ∧
    program.Detached h.session.store h'.session ∧
    (h'.session.perform program).result = .ok () ∧
    ¬ (h'.session.perform program).session.Equivalent
      ((h'.session.compile "q = p 5").session.perform program').session := by
  let h : History := { session := sample 0 (.listed [⟨0⟩]) }
  let h' : History := h.revise "q = p 5" ⟨.sequence, ⟨0⟩⟩ (.listed [])
  have reachable : h.Reachable := reachable_sample 0 (by simp [IndexSequence.cells])
  have ok := @result_eq_programOf h.session "q = p 5" (by decide +kernel)
  have ok' := @result_eq_programOf h'.session "q = p 5" (by decide +kernel)
  have steps : Relation.ReflTransGen History.Step (h.compile "q = p 5") h' :=
    @History.steps_revise _ _ _ _ "p" (find?_of_compile rfl)
      (by simp [Kind.cellsOf, IndexSequence.cells])
  have empty : (h'.session.store.read (⟨0⟩ : Cell .sequence)).cells = [] := by decide +kernel
  have detached : (h.session.programOf "q = p 5").Detached h.session.store h'.session :=
    detached_of_sample reachable.wellFormed ok rfl (by decide +kernel) (by simp [empty]) (i := 2)
      (by decide +kernel)
  have succeeds : ((h.session.programOf "q = p 5").perform h'.session.store).2.isNone = true := by
    decide +kernel
  have found : (h'.session.perform (h.session.programOf "q = p 5")).session.scope.find? "q" =
      some ⟨.sequence, ⟨2⟩⟩ := by decide +kernel
  refine ⟨h, h', _, _, reachable, ok, steps, History.stillNames_revise, ok', detached,
    perform_eq_ok_iff.2 (Option.isNone_iff_eq_none.1 succeeds), ?_⟩
  -- the indices 0 and 5 are left, of which compiling anew keeps only 5
  exact @not_equivalent _ _ "q" ⟨2⟩ found 0 (by decide +kernel)

/-- **Intermediate results are shared.**  What is copied from a sequence refers to the same cells:
where `q` has been copied to `r`, performing again also changes `r`, and compiling anew and
performing does not. -/
theorem shared_result : ∃ (h h' : History) (program program' : Program), h.Reachable ∧
    (h.session.compile "q = n+1:5").result = .ok program ∧
    Relation.ReflTransGen History.Step (h.compile "q = n+1:5") h' ∧
    (h.session.compile "q = n+1:5").session.StillNames h'.session "q = n+1:5" ∧
    (h'.session.compile "q = n+1:5").result = .ok program' ∧
    h.session.UpToDate h'.session "q = n+1:5" program ∧
    (h'.session.perform program).result = .ok () ∧
    ¬ (h'.session.perform program).session.Equivalent
      ((h'.session.compile "q = n+1:5").session.perform program').session := by
  let s : Session := { store := { integers := #[1] }, scope := ⟨[("n", ⟨.integer, ⟨0⟩⟩)]⟩ }
  let h : History := { session := s }
  let h₁ : History := (h.process "q = n+1:5").process "r = q"
  let h' : History :=
    { h₁ with session.store := h₁.session.store.write (⟨0⟩ : Cell .integer) (3 : Int64) }
  have defined : @define {} .integer "n" 1 = .ok s := by rfl
  have reachable : h.Reachable := .single (@History.Step.define {} .integer "n" 1 s nofun defined)
  have ok := @result_eq_programOf h.session "q = n+1:5" (by decide +kernel)
  have ok' := @result_eq_programOf h'.session "q = n+1:5" (by decide +kernel)
  have bound : h₁.session.scope.find? "n" = some ⟨.integer, ⟨0⟩⟩ := by decide +kernel
  have steps : Relation.ReflTransGen History.Step (h.compile "q = n+1:5") h' :=
    .head (History.step_process (by decide +kernel)) <| .head (.compile "r = q") <|
      .head (History.step_process (by decide +kernel)) <|
      .single (@History.Step.write _ _ _ (3 : Int64) bound nofun)
  have same : (h.session.compile "q = n+1:5").session.StillNames h'.session "q = n+1:5" := by
    refine ⟨Bindings.eq_of_isEmpty (by decide +kernel) (by decide +kernel),
      fun name v _ found => ?_⟩
    rw [← History.scope_process] at found
    exact (congrArg (Bindings.find? · name) (History.scope_process _ "r = q")).trans
      (find?_of_compile found)
  have holds : h.session.StillHolds h'.session "q = n+1:5" := by
    intro name c _ found
    have found : Bindings.find? (⟨[("n", ⟨.integer, ⟨0⟩⟩)]⟩ : Bindings Variable) name =
        some ⟨.sequence, c⟩ := found
    simp only [Bindings.find?, Bindings.findIn] at found
    split at found <;> cases found
  have found : (h'.session.perform (h.session.programOf "q = n+1:5")).session.scope.find? "r" =
      some ⟨.sequence, ⟨2⟩⟩ := by decide +kernel
  have succeeds : ((h.session.programOf "q = n+1:5").perform h'.session.store).2.isNone = true := by
    decide +kernel
  refine ⟨h, h', _, _, reachable, ok, steps, same, ok',
    (upToDate_of_stillHolds reachable ok steps same holds).2,
    perform_eq_ok_iff.2 (Option.isNone_iff_eq_none.1 succeeds), ?_⟩
  -- `r` has the indices 4 and 5, and after compiling anew those from 2 to 5
  exact @not_equivalent _ _ "r" ⟨2⟩ found 0 (by decide +kernel)

end Session

end MatrixCalc
