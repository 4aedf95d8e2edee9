import MatrixCalc.Proofs.Expression.Compiled

/-!
# Names under any requests

A caller may ask anything of a session in any order: define and bind names, write to variables it
holds, remove names, compile and process texts, perform programs.  Names come in at four places,
with a check of the name or with the lexer in front, and a request that fails may still leave
something behind.  Whatever is asked, the names of variables and macros stay identifiers without a
meaning of their own, so every variable can be copied by its name.

* `Session.Disciplined` : what holds of the names of a session.
* `Session.Disciplined.after` : **every request keeps it**.
* `Session.names_of_requests` : **every bound name resolves to its variable**.
-/

namespace MatrixCalc

/-! ### Requests -/

namespace Session

/-- What a caller may ask of a session. -/
inductive Request where
  /-- A new cell, without a name. -/
  | create {kind : Kind} (value : kind.Content)
  /-- A name gets a value, and a variable if it has none of that kind. -/
  | define {kind : Kind} (name : String) (value : kind.Content)
  /-- A name is bound to any variable. -/
  | bind (name : String) (v : Variable)
  /-- A variable gets a value, named or not. -/
  | write (v : Variable) (value : v.kind.Content)
  /-- A name is removed. -/
  | remove (name : String)
  /-- A text is compiled. -/
  | compile (source : String)
  /-- A program is performed, compiled here or not. -/
  | perform (program : Program)
  /-- A text is compiled and performed. -/
  | process (source : String)

/-- The session after a request, whether the request succeeds or fails. -/
def after (s : Session) : Request → Session
  | .create value => { s with store := (s.store.allocate value).1 }
  | .define name value =>
    match s.define name value with
    | .ok s' => s'
    | .error _ => s
  | .bind name v =>
    match s.bind name v with
    | .ok s' => s'
    | .error _ => s
  | .write v value => { s with store := s.store.write v.cell value }
  | .remove name => s.remove name
  | .compile source => (s.compile source).session
  | .perform program => (s.perform program).session
  | .process source => (s.process source).session

/-- The session after requests, from an empty one. -/
def afterAll (requests : List Request) : Session := requests.foldl after {}

theorem afterAll_concat (requests : List Request) (request : Request) :
    afterAll (requests ++ [request]) = (afterAll requests).after request := by
  simp [afterAll]

/-! ### Names -/

/-- The names of a session are bindable, and those of variables are in order. -/
structure Disciplined (s : Session) : Prop where
  /-- The names of variables. -/
  bound : ∀ name v, s.scope.find? name = some v → bindable name = true
  /-- The names of macros. -/
  declared : ∀ name m, s.macros.find? name = some m → bindable name = true
  /-- The names ascend. -/
  sorted : s.scope.Sorted

namespace Disciplined

variable {s s' : Session}

theorem empty : ({} : Session).Disciplined where
  bound _ _ found := by cases found
  declared _ _ found := by cases found
  sorted := List.Pairwise.nil

theorem withStore (h : s.Disciplined) (store : Store) : { s with store }.Disciplined :=
  ⟨h.bound, h.declared, h.sorted⟩

/-- A bindable name is bound. -/
theorem insert (h : s.Disciplined) {name : String} (named : bindable name = true) (v : Variable) :
    { s with scope := s.scope.insert name v }.Disciplined where
  bound other w found := by
    rw [Bindings.find?_insert] at found
    split at found
    · rename_i same
      rwa [same]
    · exact h.bound other w found
  declared := h.declared
  sorted := h.sorted.insert name v

/-- A macro of a bindable name is declared. -/
theorem declare (h : s.Disciplined) {m : Macro} (named : bindable m.name = true) :
    { s with macros := s.macros.insert m.name m }.Disciplined where
  bound := h.bound
  declared other m' found := by
    rw [Bindings.find?_insert] at found
    split at found
    · rename_i same
      rwa [same]
    · exact h.declared other m' found
  sorted := h.sorted

theorem remove (h : s.Disciplined) (name : String) : (s.remove name).Disciplined where
  bound other v found := by
    simp only [Session.remove, Bindings.find?_erase] at found
    split at found
    · cases found
    · exact h.bound other v found
  declared := h.declared
  sorted := h.sorted.erase name

theorem define (h : s.Disciplined) {kind : Kind} {name : String} {value : kind.Content}
    (ok : s.define name value = .ok s') : s'.Disciplined := by
  obtain ⟨named, ⟨cell, -, rfl⟩ | ⟨-, rfl⟩⟩ := define_eq_ok_iff.1 ok
  · exact h.withStore _
  · exact (h.withStore _).insert named _

theorem bind (h : s.Disciplined) {name : String} {v : Variable} (ok : s.bind name v = .ok s') :
    s'.Disciplined := by
  obtain ⟨named, rfl⟩ := bind_eq_ok_iff.1 ok
  exact h.insert named v

theorem perform (h : s.Disciplined) (program : Program) :
    (s.perform program).session.Disciplined := by
  have same : (s.perform program).session = { s with store := (program.perform s.store).1 } := by
    unfold Session.perform
    split <;> simp_all
  rw [same]
  exact h.withStore _

/-- The lexer has checked the target, or the declaration its name. -/
theorem compile (h : s.Disciplined) (source : String) : (s.compile source).session.Disciplined := by
  cases result : (s.compile source).result with
  | error e => rwa [compile_of_error result]
  | ok program =>
    cases compilesTo_of_ok result with
    | declaration _ _ _ named session =>
      rw [session]
      exact h.declare named
    | @statement _ compiled d read _ run session =>
      rw [session]
      cases declared : compiled.declared with
      | none => exact h.withStore d.store
      | some entry =>
        obtain ⟨name, v⟩ := entry
        obtain ⟨left, right, _, _, cut, named, -⟩ := Statement.declared_of_compile run declared
        exact (h.withStore d.store).insert (Statement.bindable_of_targetName read cut named) v

/-- Processing a text is compiling it and, if that succeeds, performing its program. -/
theorem process (h : s.Disciplined) (source : String) : (s.process source).session.Disciplined := by
  have compiled := h.compile source
  unfold Session.process
  split
  · rename_i failed
    rwa [failed] at compiled
  · rename_i program _ _ done
    rw [done] at compiled
    have performed := compiled.perform program
    split <;> (rename_i ran; rwa [ran] at performed)

/-- **Every request keeps the discipline**, also one that fails. -/
theorem after (h : s.Disciplined) (request : Request) : (s.after request).Disciplined := by
  cases request with
  | create value => exact h.withStore _
  | define name value =>
    unfold Session.after
    dsimp only
    split
    · rename_i ok
      exact h.define ok
    · exact h
  | bind name v =>
    unfold Session.after
    dsimp only
    split
    · rename_i ok
      exact h.bind ok
    · exact h
  | write v value => exact h.withStore _
  | remove name => exact h.remove name
  | compile source => exact h.compile source
  | perform program => exact h.perform program
  | process source => exact h.process source

end Disciplined

theorem disciplined_afterAll (requests : List Request) : (afterAll requests).Disciplined := by
  induction requests using List.reverseRecOn with
  | nil => exact .empty
  | append_singleton requests request ih =>
    rw [afterAll_concat]
    exact ih.after request

end Session

/-! ### Copies -/

/-- What a copy within a kind is called. -/
def Kind.copyName : Kind → String
  | matrix => "copy-mm"
  | double => "copy-ss"
  | integer => "copy-ii"
  | sequence => "copy-is-is"

/-- What a variable holds, as a term. -/
def Variable.itself : (v : Variable) → Term v.kind
  | ⟨.matrix, m⟩ => .matrix m
  | ⟨.double, x⟩ => .scalar (.double x)
  | ⟨.integer, n⟩ => .integer n
  | ⟨.sequence, q⟩ => .sequence q

/-- The copy of a variable to a cell of its kind. -/
def Variable.copyTo (v : Variable) (target : Cell v.kind) : Operation :=
  ⟨v.kind.copyName, target, v.itself⟩

theorem Operation.copy_eq_copyTo (v : Variable) (target : Cell v.kind) :
    copy v ⟨v.kind, target⟩ = .ok (v.copyTo target) := by
  rcases v with ⟨_ | _ | _ | _, cell⟩ <;> rfl

/-- A tree that is a variable has nothing to reduce. -/
theorem Expression.Reduces.of_leaf {d d' : Draft} {v : Variable} {program : Program}
    {e : Expression Variable} (h : Reduces d (leaf v) program d' e) : d' = d ∧ e = leaf v := by
  cases h with
  | refl => exact ⟨rfl, rfl⟩
  | head step _ => cases step

open Expression in
/-- The assignment of a bound name to a new one is a copy of its variable. -/
theorem Statement.compile_copy {scope : Bindings Variable} (macros : Bindings Macro) (d : Draft)
    {name target : String} {v : Variable} (bound : scope.find? name = some v)
    (free : scope.find? target = none) (unreserved : isReserved target = false) :
    ∃ d', compile scope macros [.word target, .symbol .assign, .word name] d =
        .ok ⟨d.program ++ [v.copyTo (d.store.allocate v.kind.blank).2],
          some (target, d.fresh v.kind)⟩ d' ∧ d'.store = (d.allocated v.kind).store := by
  have printed : (leaf name).Prints 6 false [.inr name] 0 := .leaf name
  have leaves : ∀ x ∈ (leaf name).leaves, scope.find? x = some ((fun _ => v) x) := by
    simp [Expression.leaves, bound]
  rcases compile_tokensOf macros d printed (by decide) leaves free unreserved with
    ⟨none, -⟩ | ⟨program, d₁, root, op, d', reduces, copied, compiled, store⟩
  · cases none
  · obtain ⟨rfl, same⟩ := reduces.of_leaf
    cases same
    cases (Operation.copy_eq_copyTo v _).symm.trans copied
    exact ⟨d', compiled, store⟩

namespace Session

/-- **Every bound name resolves to its variable.**  After any requests, every name of a variable or
a macro is an identifier that is neither the word `macro` nor the name of a function.  Any such
name that is not bound can be assigned the value of a bound one; the program is a single copy,
which reads the very cell that the name is bound to, whatever macros there are. -/
theorem names_of_requests (requests : List Request) :
    (∀ name, ((∃ v, (afterAll requests).scope.find? name = some v) ∨
        ∃ m, (afterAll requests).macros.find? name = some m) →
      isIdentifier name = true ∧ name ≠ macroKeyword ∧ Builtin.ofName? name = none) ∧
    ∀ name v target, (afterAll requests).scope.find? name = some v →
      (afterAll requests).scope.find? target = none → isIdentifier target = true →
      isReserved target = false → ∃ cell : Cell v.kind, ¬ (afterAll requests).store.Has cell ∧
        ((afterAll requests).compile (target ++ " = " ++ name)).result = .ok [v.copyTo cell] ∧
        ((afterAll requests).compile (target ++ " = " ++ name)).session.scope =
          (afterAll requests).scope.insert target ⟨v.kind, cell⟩ := by
  have disciplined := disciplined_afterAll requests
  refine ⟨fun name used => ?_, fun name v target bound free identifier unreserved => ?_⟩
  · have named : bindable name = true := by
      rcases used with ⟨v, bound⟩ | ⟨m, declared⟩
      · exact disciplined.bound name v bound
      · exact disciplined.declared name m declared
    simpa [bindable, isReserved, and_comm, and_assoc] using named
  · have named := disciplined.bound name v bound
    have word : isIdentifier name = true := by
      simp only [bindable, Bool.and_eq_true] at named
      exact named.2
    have read : Token.tokenize (target ++ " = " ++ name) =
        .ok [.word target, .symbol .assign, .word name] := by
      have text : (Expression.leaf name).text = name := by
        simp [Expression.text, Expression.write, String.join]
      have written := Expression.tokenize_assignment (e := .leaf name) identifier
        (by simpa [Expression.leaves] using word)
      rwa [text] at written
    have statement : Token.declareMacro [.word target, .symbol .assign, .word name] = false := by
      simp only [isReserved, Bool.or_eq_false_iff] at unreserved
      exact unreserved.1
    obtain ⟨d, run, -⟩ := Statement.compile_copy (afterAll requests).macros
      (afterAll requests).draft bound free unreserved
    obtain ⟨result, session⟩ := compile_of_ok read statement run
    exact ⟨_, (afterAll requests).store.not_has_allocate v.kind.blank, result, by
      rw [session]; rfl⟩

/-- A variable beside a macro of its name, after requests that fail. -/
theorem names_of_requests_beside_macro : ∃ (requests : List Request) (v : Variable)
    (cell : Cell v.kind),
    requests = [@Request.define .integer "n" 3, .compile "macro n(a) = a + n(a)",
      .compile "macro inv() = n", .process "k = n/0", @Request.define .double "2x" 1.0] ∧
    (afterAll requests).scope.find? "n" = some v ∧
    (afterAll requests).scope.names = ["k", "n"] ∧ (afterAll requests).macros.names = ["n"] ∧
    ((afterAll requests).compile ("t" ++ " = " ++ "n")).result = .ok [v.copyTo cell] := by
  let requests : List Request := [@Request.define .integer "n" 3,
    .compile "macro n(a) = a + n(a)", .compile "macro inv() = n", .process "k = n/0",
    @Request.define .double "2x" 1.0]
  have found : (afterAll requests).scope.find? "n" = some ⟨.integer, ⟨0⟩⟩ := by decide +kernel
  have names : (afterAll requests).scope.names = ["k", "n"] := by decide +kernel
  have macros : (afterAll requests).macros.names = ["n"] := by decide +kernel
  have free : (afterAll requests).scope.find? "t" = none := by decide +kernel
  obtain ⟨cell, -, copied, -⟩ := (names_of_requests requests).2 "n" ⟨.integer, ⟨0⟩⟩ "t" found free
    (by decide +kernel) (by decide +kernel)
  exact ⟨requests, ⟨.integer, ⟨0⟩⟩, cell, rfl, found, names, macros, copied⟩

end Session

end MatrixCalc
