import MatrixCalc.Proofs.Expression.Compiled
import MatrixCalc.Proofs.Invocation.Performed

/-!
# Names for arguments

A text `v = e` gives a name to what the tokens `e` stand for.  The name is new, so nothing that was
bound changes, and wherever a statement of the earlier session reads the tokens, the name means the
same in the later session.

* `Session.processAll` : texts processed in turn.
* `Session.Grown` : a later session, in which only names and cells have been added.
* `Session.stands_of_process` : **a name stands for what it is given**.
* `Session.stands_of_processAll` : the same of several names given in turn.
-/

namespace MatrixCalc

open MatrixCalc.Group

/-- Nothing stands for anything. -/
def Macro.Standins.none (table : Bindings Macro) : Macro.Standins table where
  token _ _ := False
  group _ _ := False
  yields _ _ := False
  token_symbol := nofun
  token_free := nofun
  name_free := nofun
  group_free := nofun
  group_long := nofun
  group_sealed := nofun
  group_unfolds := nofun

/-! ### Texts processed in turn -/

/-- Processes texts in turn; the answer is the session after them if all succeed. -/
def Session.processAll (s : Session) : List String → Except Error Session
  | [] => .ok s
  | source :: sources =>
    match (s.process source).result with
    | .ok _ => (s.process source).session.processAll sources
    | .error e => .error e

namespace Session

variable {s s' t t' : Session}

theorem processAll_cons_eq_ok_iff {source : String} {sources : List String} :
    s.processAll (source :: sources) = .ok s' ↔ ∃ program,
      (s.process source).result = .ok program ∧
      (s.process source).session.processAll sources = .ok s' := by
  rw [processAll]
  cases (s.process source).result with
  | ok program => simp
  | error e => simp

theorem processAll_append_eq_ok_iff {first second : List String} :
    s.processAll (first ++ second) = .ok s' ↔ ∃ between, s.processAll first = .ok between ∧
      between.processAll second = .ok s' := by
  induction first generalizing s with
  | nil => simp [processAll]
  | cons source first ih =>
    simp only [List.cons_append, processAll_cons_eq_ok_iff, ih]
    constructor
    · rintro ⟨program, ok, between, one, two⟩
      exact ⟨between, ⟨program, ok, one⟩, two⟩
    · rintro ⟨between, ⟨program, ok, one⟩, two⟩
      exact ⟨program, ok, between, one, two⟩

/-! ### Sessions that have grown -/

/-- Names and cells have been added to the session `s`, and nothing else has happened. -/
structure Grown (s t : Session) : Prop where
  /-- The later session is well-formed. -/
  wellFormed : t.WellFormed
  /-- What the cells held they still hold. -/
  store : s.store.Extends t.store
  /-- Names are bound as they were. -/
  scope : ∀ name v, s.scope.find? name = some v → t.scope.find? name = some v
  /-- The macros are the same. -/
  macros : t.macros = s.macros

theorem Grown.refl (wellFormed : s.WellFormed) : s.Grown s :=
  ⟨wellFormed, .refl _, fun _ _ => id, rfl⟩

theorem Grown.trans {u : Session} (h : s.Grown t) (h' : t.Grown u) : s.Grown u :=
  ⟨h'.wellFormed, h.store.trans h'.store,
    fun name v found => h'.scope name v (h.scope name v found), h'.macros.trans h.macros⟩

theorem WellFormed.process (wellFormed : s.WellFormed) {source : String} {program : Program}
    (ok : (s.process source).result = .ok program) : (s.process source).session.WellFormed := by
  rw [process_session (process_eq_ok_iff.1 ok).1]
  exact (wellFormed.compile source).perform program

/-- Names have in a grown session the meaning that they had, or that of what they stand for. -/
theorem Grown.interprets {x : Side} {table : Bindings Macro} {w : Macro.Standins table}
    (grown : s.Grown t) (wellFormed : s.WellFormed) (start : x.start = s.store)
    (token : ∀ {token name}, w.token token name → ∃ v, t.scope.find? name = some v ∧
      t.store.Has v.cell ∧ x.Denotes s.scope token (t.store.sense v))
    (group : ∀ {inside name}, w.yields inside name → ∃ v, t.scope.find? name = some v ∧
      t.store.Has v.cell ∧ x.Yields s.scope inside (t.store.sense v)) :
    x.Interprets w s.scope t.store t.scope where
  larger := start ▸ grown.store
  bound name v found := ⟨start ▸ wellFormed.bound name v found, grown.scope name v found⟩
  builtin name v found := Builtin.ofName?_of_bindable (grown.wellFormed.named name v found)
  token := token
  group := group

/-! ### Names that stand for tokens -/

/-- In the session `t` the name means what the tokens stand for where the statement `x` of the
session `s` reads them. -/
inductive Stands (x : Side) (s t : Session) (name : String) (tokens : List Token) : Prop
  | intro (v : Variable) (n : Nat) (expanded : List Token) (found : t.scope.find? name = some v)
      (has : t.store.Has v.cell) (unfolds : Macro.Unfolds s.macros n tokens expanded)
      (yields : x.Yields s.scope expanded (t.store.sense v))
      (denotes : ∀ token, tokens = [token] → symbol? token = none →
        x.Denotes s.scope token (t.store.sense v))

theorem Stands.later {x : Side} {name : String} {tokens : List Token}
    (h : Stands x s t name tokens) (closed : t.store.Closed) (grown : t.Grown t') :
    Stands x s t' name tokens := by
  obtain ⟨v, n, expanded, found, has, unfolds, yields, denotes⟩ := h
  rw [← grown.store.sense closed has] at yields denotes
  exact ⟨v, n, expanded, grown.scope name v found, grown.store.has has, unfolds, yields, denotes⟩

/-- What is assigned to a name that is not bound is copied to a new cell. -/
theorem exists_cell_of_performed {tokens : List Token} (p : Statement.Performed s tokens s')
    (one : p.left.length = 1) (free : s.scope.find? p.name = none) :
    ∃ c : Cell p.value.kind, ¬ s.store.Has c ∧ p.side.store.Has c ∧
      s'.scope.find? p.name = some ⟨_, c⟩ ∧
      s'.store = p.side.store.write c (p.side.store.read p.value.cell) := by
  rcases p.assigned with ⟨-, -, found, copied⟩ | ⟨many, -⟩
  · obtain ⟨kind, fresh⟩ := (found.resolve_left fun found => by
      rw [free] at found
      cases found).2
    rename_i target
    obtain ⟨k, c⟩ := target
    obtain rfl : k = p.value.kind := kind
    obtain ⟨op, copied', output, performs⟩ := Operation.copy_of_kind p.value c
    obtain rfl : p.last = op := Except.ok.inj (copied.symm.trans copied')
    have has : p.side.store.Has p.last.output.cell := p.has
    have found := p.found
    rw [output] at has found
    have done := Operation.perform_eq_ok_iff.2 ⟨p.result, p.computed, rfl⟩
    rw [performs] at done
    refine ⟨c, fresh, has, found, ?_⟩
    rw [p.store, ← Except.ok.inj done]
  · exact absurd one many

/-- A text that gives a new name to the value of some tokens. -/
def Names (name : String) (tokens : List Token) (source : String) : Prop :=
  Token.tokenize source = .ok (.word name :: .symbol .assign :: tokens)

section Process

variable {name source : String} {tokens : List Token} {program : Program}
  (wellFormed : t.WellFormed) (names : Names name tokens source)
  (free : t.scope.find? name = none) (ok : (t.process source).result = .ok program)
include wellFormed names ok

/-- A text that gives a name is performed as an assignment to the name. -/
theorem exists_performed_of_names :
    ∃ p : Statement.Performed t (.word name :: .symbol .assign :: tokens)
        (t.process source).session,
      p.left = [.word name] ∧ p.right = tokens ∧ p.name = name := by
  -- no macro is declared so
  have notMacro : Token.declareMacro (.word name :: .symbol .assign :: tokens) = false := by
    by_contra isMacro
    obtain ⟨m, parsed, -⟩ := compile_of_declaration names (by simpa using isMacro)
      (process_eq_ok ok).1
    cases parsed
  obtain ⟨p⟩ := performed_of_process wellFormed names notMacro ok
  obtain ⟨left, right⟩ : p.left = [.word name] ∧ p.right = tokens :=
    Statement.splitAssignment_unique p.cut rfl
  have named := p.named
  rw [left] at named
  obtain ⟨-, rest, eq⟩ := Statement.targetName_eq_ok_iff.1 named
  obtain ⟨same, -⟩ := List.cons.inj eq
  exact ⟨p, left, right, (Token.word.inj same).symm⟩

include free

/-- **Giving a name** to a value only adds to the session, and the name means the value. -/
theorem exists_of_names :
    ∃ p : Statement.Performed t (.word name :: .symbol .assign :: tokens)
        (t.process source).session,
      p.right = tokens ∧ t.Grown (t.process source).session ∧
      (∀ other, other ≠ name →
        (t.process source).session.scope.find? other = t.scope.find? other) ∧
      ∃ v, (t.process source).session.scope.find? name = some v ∧
        (t.process source).session.store.Has v.cell ∧
        (t.process source).session.store.sense v = p.side.store.sense p.value := by
  obtain ⟨p, left, right, named⟩ := exists_performed_of_names wellFormed names ok
  have others := p.others
  obtain ⟨c, fresh, has, found, store⟩ :=
    exists_cell_of_performed p (by rw [left]; rfl) (named.symm ▸ free)
  rw [named] at others found
  have kept : t.store.Extends (t.process source).session.store := by
    intro other cell there
    obtain ⟨old, same⟩ := (p.start ▸ p.side.kept : t.store.Extends p.side.store) cell there
    rw [store]
    refine ⟨(Store.has_write _ _).2 old, (Store.read_write_of_ne _ (fun eq => ?_) _).trans same⟩
    cases eq
    exact fresh there
  refine ⟨p, right, ⟨wellFormed.process ok, kept, fun other v before => ?_, p.macros⟩, others,
    ⟨_, c⟩, found, ?_, ?_⟩
  · have differs : other ≠ name := by
      rintro rfl
      cases free.symm.trans before
    rw [others other differs]
    exact before
  · rw [store]
    exact (Store.has_write _ _).2 has
  · rw [store, Store.sense, Store.sense, Recompilation.Rerun.meaning_write has]
    rfl

/-- **A name stands for what it is given.** -/
theorem stands_of_process {s : Session} {x : Side} (start : x.start = s.store)
    (wellFormed' : s.WellFormed) (grown : s.Grown t) (declared : s.macros.isEmpty = false) :
    Stands x s (t.process source).session name tokens := by
  obtain ⟨p, right, -, -, v, found, has, means⟩ := exists_of_names wellFormed names free ok
  obtain ⟨_, _, expands⟩ := p.expands
  rw [right, grown.macros] at expands
  have unfolds := Macro.unfolds_of_expand declared expands
  -- the tokens mean in the later session what they meant before
  have same : (⟨x, p.side⟩ : Comparison).first.Interprets (.none s.macros) s.scope p.side.start
      t.scope := by
    rw [p.start]
    exact grown.interprets wellFormed' start nofun nofun
  refine .intro v _ p.expanded found has unfolds ?_ fun token single plain => ?_
  · rw [means]
    exact Comparison.yields same (.refl _ _) p.reading p.honest p.resolved p.grows
  · rw [means]
    have reading := p.reading
    rw [unfolds.eq_of_singleton single] at reading
    exact Comparison.denotes same plain reading p.honest p.resolved p.grows

end Process

/-- **Names stand for what they are given in turn.** -/
theorem stands_of_processAll {x : Side} (start : x.start = s.store) (wellFormed : s.WellFormed)
    (declared : s.macros.isEmpty = false) {bindings : List (String × List Token)}
    {sources : List String}
    (names : List.Forall₂ (fun entry => Names entry.1 entry.2) bindings sources)
    (different : (bindings.map Prod.fst).Nodup) (grown : s.Grown t)
    (free : ∀ entry ∈ bindings, t.scope.find? entry.1 = none)
    (ok : t.processAll sources = .ok t') : t.Grown t' ∧
      (∀ other, (∀ entry ∈ bindings, other ≠ entry.1) →
        t'.scope.find? other = t.scope.find? other) ∧
      ∀ entry ∈ bindings, Stands x s t' entry.1 entry.2 := by
  induction names generalizing t with
  | nil =>
    cases ok
    exact ⟨.refl grown.wellFormed, fun _ _ => rfl, nofun⟩
  | @cons entry source bindings sources one _ ih =>
    obtain ⟨program, processed, rest⟩ := processAll_cons_eq_ok_iff.1 ok
    obtain ⟨notLater, different'⟩ := List.nodup_cons.1 different
    have unbound := free entry List.mem_cons_self
    obtain ⟨-, -, step, others, -⟩ := exists_of_names grown.wellFormed one unbound processed
    have stands :=
      stands_of_process grown.wellFormed one unbound processed start wellFormed grown declared
    have apart : ∀ later ∈ bindings, later.1 ≠ entry.1 := fun later mem same =>
      notLater (same ▸ List.mem_map_of_mem mem)
    obtain ⟨grown', others', all⟩ := ih different' (grown.trans step) (fun later mem => by
      rw [others _ (apart later mem)]
      exact free later (List.mem_cons_of_mem _ mem)) rest
    refine ⟨step.trans grown', fun other differs => ?_, fun later mem => ?_⟩
    · rw [others' other fun later mem => differs later (List.mem_cons_of_mem _ mem)]
      exact others other (differs entry List.mem_cons_self)
    · rcases List.mem_cons.1 mem with rfl | mem
      · exact stands.later step.wellFormed.closed grown'
      · exact all later mem

end Session

end MatrixCalc
