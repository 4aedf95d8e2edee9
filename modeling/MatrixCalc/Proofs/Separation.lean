import MatrixCalc.Proofs.Recompilation.Later
import MatrixCalc.Proofs.Recompilation.Mirrored

/-!
# Compiling does not look at contents

Two sessions are compared that bind the same names to variables of the same kinds, and in which the
same names share a cell and the same sequences refer to it.  They may differ in the names of cells,
in cells that no name reaches, and in everything that matrices, doubles and integers hold.

* `Session.Corresponds` : such sessions.
* `Session.Counterpart` : what has been compiled in them is the same but for the names of cells.
* `Session.SameOutcome` : a text fails in both, or compiles in both to counterparts.
* `Session.compile_corresponds` : **compiling a text has the same outcome in both.**
-/

namespace MatrixCalc

theorem Program.names_rename (ρ : Renaming) (program : Program) :
    Program.names (program.map (Operation.rename ρ)) = program.names := by
  rw [names, names, List.map_map]
  rfl

namespace Session

/-! ### Sessions that correspond -/

/-- A name is bound to the variable, or to a sequence that refers to it. -/
def InUse (s : Session) (v : Variable) : Prop :=
  ∃ name w, s.scope.find? name = some w ∧ v ∈ s.store.reach w

/-- A statement can come across the variable: it is in use, or does not exist yet. -/
def Visible (s : Session) (v : Variable) : Prop := s.InUse v ∨ ¬ s.store.Has v.cell

/-- The second session is the first but for the names of its cells and for what matrices, doubles
and integers hold. -/
structure Corresponds (s : Session) (ρ : Renaming) (s' : Session) : Prop where
  /-- The same macros are declared. -/
  macros : s'.macros = s.macros
  /-- The same names are bound, to variables of the same kinds. -/
  scope : ∀ name, s'.scope.find? name = (s.scope.find? name).map (Variable.rename ρ)
  /-- Sequences have the same structure. -/
  sequences : ∀ name (c : Cell .sequence), s.scope.find? name = some ⟨.sequence, c⟩ →
    s'.store.read (ρ .sequence c) = (s.store.read c).rename ρ
  /-- Names, and places in sequences, share a cell in the second session only if they do in the
  first. -/
  sharing : ∀ v w, s.InUse v → s.InUse w → v.rename ρ = w.rename ρ → v = w

/-- The programs that a text has in the sessions `s` and `s'`, and the sessions `t` and `t'` that it
leads to, are the same but for the names of cells. -/
structure Counterpart (s s' t t' : Session) (ρ : Renaming) (program program' : Program) :
    Prop where
  /-- The same operations, with corresponding operands and targets. -/
  renamed : program' = program.map (Operation.rename ρ)
  /-- The operations have the same names. -/
  names : program'.names = program.names
  /-- There are as many of them. -/
  length : program'.length = program.length
  /-- Operands and targets are in use or have been created. -/
  visible : ∀ op ∈ program, ∀ v ∈ op.output :: op.term.operands, s.Visible v
  /-- What is different in the first session is different in the second. -/
  injective : ∀ v w, s.Visible v → s.Visible w → v.rename ρ = w.rename ρ → v = w
  /-- As many cells have been created. -/
  count : ∀ kind, t'.store.count kind + s.store.count kind =
    t.store.count kind + s'.store.count kind
  /-- What has been created in the first session has been created in the second, and holds the
  same. -/
  created : ∀ v : Variable, t.store.Has v.cell → ¬ s.store.Has v.cell →
    t'.store.Has (ρ v.kind v.cell) ∧ ¬ s'.store.Has (ρ v.kind v.cell) ∧
      t'.store.read (ρ v.kind v.cell) = v.kind.renameContent ρ (t.store.read v.cell)
  /-- The same name is declared, for a variable of the same kind. -/
  declared : ∃ declared, t.scope = s.scopeWith declared ∧
    t'.scope = s'.scopeWith (declared.map fun entry => (entry.1, entry.2.rename ρ))
  /-- Afterwards the sessions correspond again. -/
  corresponds : t.Corresponds ρ t'

/-- Either the text fails in both sessions with the same variant of error, or it compiles in both
and leads to counterparts.  What is in use keeps its names. -/
def SameOutcome (s : Session) (ρ : Renaming) (s' : Session) (source : String) : Prop :=
  match (s.compile source).result, (s'.compile source).result with
  | .ok program, .ok program' => ∃ σ : Renaming,
    (∀ v, s.InUse v → v.rename σ = v.rename ρ) ∧
      Counterpart s s' (s.compile source).session (s'.compile source).session σ program program'
  | .error e, .error e' => e.SameVariant e'
  | _, _ => False

variable {s s' : Session} {ρ : Renaming} {v w : Variable}

theorem inUse_of_find? {name : String} (found : s.scope.find? name = some v) : s.InUse v :=
  ⟨name, v, found, s.store.mem_reach_self v⟩

theorem WellFormed.has_of_inUse (h : s.WellFormed) (used : s.InUse v) : s.store.Has v.cell := by
  obtain ⟨name, w, found, mem⟩ := used
  exact h.closed.has_of_mem_reach (h.bound name w found) mem

theorem Corresponds.inUse (h : s.Corresponds ρ s') (used : s.InUse v) :
    s'.InUse (v.rename ρ) := by
  obtain ⟨name, w, found, mem⟩ := used
  have found' := h.scope name
  rw [found] at found'
  refine ⟨name, w.rename ρ, found', ?_⟩
  rcases List.mem_cons.1 mem with rfl | mem
  · exact s'.store.mem_reach_self _
  · obtain ⟨c, refers, rfl⟩ := List.mem_map.1 mem
    obtain ⟨kind, cell⟩ := w
    cases kind
    case sequence =>
      refine List.mem_cons_of_mem _ (List.mem_map_of_mem ?_)
      change ρ .integer c ∈ (s'.store.read (ρ .sequence cell)).cells
      rw [h.sequences name cell found, IndexSequence.cells_rename]
      exact List.mem_map_of_mem refers
    all_goals cases refers

/-! ### The two compilations -/

open Classical in
/-- A text compiled in both sessions.  Cells that are not in use get names that the second session
does not have. -/
noncomputable def separation (s s' : Session) (ρ : Renaming) : Recompilation where
  old := s.store
  new := s'.store
  base kind c := if s.InUse ⟨kind, c⟩ then ρ kind c else ⟨s'.store.count kind⟩
  agree := True
  mirror := True

section Separation

variable (h : s.Corresponds ρ s') (wellFormed : s.WellFormed) (wellFormed' : s'.WellFormed)

theorem base_separation (used : s.InUse v) :
    (s.separation s' ρ).base v.kind v.cell = ρ v.kind v.cell := if_pos used

include wellFormed in
/-- Variables in use keep their names. -/
theorem rename_separation (used : s.InUse v) :
    v.rename (s.separation s' ρ).rename = v.rename ρ := by
  have has : (s.separation s' ρ).old.Has v.cell := wellFormed.has_of_inUse used
  rw [Variable.rename, Recompilation.rename_of_has _ has, base_separation used]
  rfl

include h wellFormed' in
/-- What is known can be seen, and nothing else can. -/
theorem known_iff_visible : (s.separation s' ρ).Known v.cell ↔ s.Visible v := by
  constructor
  · intro known
    by_cases has : s.store.Has v.cell
    · by_cases used : s.InUse v
      · exact .inl used
      · -- its name is one that the second session does not have
        have there : s'.store.Has ((s.separation s' ρ).base v.kind v.cell) := known has
        have base : (s.separation s' ρ).base v.kind v.cell = ⟨s'.store.count v.kind⟩ := if_neg used
        rw [base] at there
        exact absurd there (Nat.lt_irrefl _)
    · exact .inr has
  · rintro (used | new) has
    · rw [base_separation used]
      exact wellFormed'.has_of_inUse (h.inUse used)
    · exact absurd has new

include h wellFormed wellFormed' in
/-- Variables that can be seen have different names. -/
theorem eq_of_rename_separation (visible : s.Visible v) (visible' : s.Visible w)
    (same : v.rename (s.separation s' ρ).rename = w.rename (s.separation s' ρ).rename) :
    v = w := by
  have known := (known_iff_visible h wellFormed').2 visible
  have known' := (known_iff_visible h wellFormed').2 visible'
  obtain ⟨kind, c⟩ := v
  obtain ⟨kind', c'⟩ := w
  obtain rfl : kind = kind' := congrArg Variable.kind same
  have eq := eq_of_heq (Variable.mk.inj same).2
  -- names of new variables differ from all others, those in use differ as they did before
  rcases visible with used | new
  · rcases visible' with used' | new'
    · rw [rename_separation wellFormed used, rename_separation wellFormed used'] at same
      exact h.sharing _ _ used used' same
    · exact congrArg (Variable.mk kind) (Recompilation.eq_of_rename_eq _ new' known eq.symm).symm
  · exact congrArg (Variable.mk kind) (Recompilation.eq_of_rename_eq _ new known' eq)

include h wellFormed wellFormed' in
/-- The names that are bound in both sessions are bound to corresponding variables. -/
theorem likeScope_separation :
    (s.separation s' ρ).LikeScope s.scope s'.scope fun _ => True where
  bound name v _ found := by
    have used := inUse_of_find? found
    have found' := h.scope name
    rw [found] at found'
    refine ⟨_, found', (rename_separation wellFormed used).symm,
      (known_iff_visible h wellFormed').2 (.inl used), ?_⟩
    rintro - c rfl has
    have reached : ∀ x ∈ (s.store.read c).cells, s.InUse ⟨.integer, x⟩ := fun x mem =>
      ⟨name, _, found, List.mem_cons_of_mem _ (List.mem_map_of_mem mem)⟩
    constructor
    · have base : (s.separation s' ρ).base .sequence c = ρ .sequence c := base_separation used
      rw [base]
      refine (h.sequences name c found).trans (IndexSequence.rename_congr _ fun x mem => ?_)
      exact (base_separation (reached x mem)).symm
    · intro x mem
      have used := reached x mem
      exact ⟨wellFormed.has_of_inUse used,
        (known_iff_visible h wellFormed').2 (.inl used) (wellFormed.has_of_inUse used)⟩
  unbound _ name _ free := by rw [h.scope, free, Option.map_none]
  builtin name v found := Builtin.ofName?_of_bindable (wellFormed'.named name v found)

end Separation

/-! ### The sessions afterwards -/

section After

variable (h : s.Corresponds ρ s') (wellFormed : s.WellFormed) (wellFormed' : s'.WellFormed)
  {d d' : Draft} (alike : (s.separation s' ρ).Alike d d')
  {declared : Option (String × Variable)}
  (new : ∀ name w, declared = some (name, w) → ¬ s.store.Has w.cell)

include h wellFormed wellFormed' alike new

/-- What is in use after a statement could be seen by it. -/
theorem visible_of_inUse
    (used : InUse { s with store := d.store, scope := s.scopeWith declared } v) : s.Visible v := by
  obtain ⟨name, w, found, mem⟩ := used
  rcases find?_scopeWith found with bound | before
  · -- the new target, or a cell that it refers to
    have absent := new name w bound
    rcases List.mem_cons.1 mem with rfl | mem
    · exact .inr absent
    · obtain ⟨x, refers, rfl⟩ := List.mem_map.1 mem
      obtain ⟨kind, c⟩ := w
      cases kind
      case sequence =>
        exact (known_iff_visible h wellFormed').1 (alike.cells c absent trivial x refers)
      all_goals cases refers
  · have has : s.store.Has w.cell := wellFormed.bound name w before
    have mem : v ∈ d.store.reach w := mem
    rw [alike.old.reach has] at mem
    exact .inl ⟨name, w, before, mem⟩

/-- The sessions after a statement correspond. -/
theorem corresponds_after :
    Corresponds { s with store := d.store, scope := s.scopeWith declared }
      (s.separation s' ρ).rename
      { s' with
        store := d'.store
        scope := s'.scopeWith (declared.map fun entry =>
          (entry.1, entry.2.rename (s.separation s' ρ).rename)) } where
  macros := h.macros
  scope name := by
    have before : s'.scope.find? name =
        (s.scope.find? name).map (Variable.rename (s.separation s' ρ).rename) := by
      rw [h.scope]
      cases found : s.scope.find? name with
      | none => rfl
      | some v => exact congrArg some (rename_separation wellFormed (inUse_of_find? found)).symm
    rcases declared with _ | ⟨target, w⟩
    · exact before
    · simp only [scopeWith, Option.map_some, Bindings.find?_insert]
      split
      · rfl
      · exact before
  sequences name c found := by
    rcases find?_scopeWith found with bound | before
    · exact (alike.read_sequence trivial (Recompilation.like_of_new _ (new name _ bound))).1
    · obtain ⟨v', -, like⟩ :=
        (likeScope_separation h wellFormed wellFormed').bound name _ trivial before
      exact (alike.read_sequence trivial like).1
  sharing v w used used' same :=
    eq_of_rename_separation h wellFormed wellFormed'
      (visible_of_inUse h wellFormed wellFormed' alike new used)
      (visible_of_inUse h wellFormed wellFormed' alike new used') same

/-- What a statement leads to in the two sessions. -/
theorem counterpart_of_alike {program : Program}
    (known : ∀ op ∈ program, ∀ v ∈ op.output :: op.term.operands,
      (s.separation s' ρ).Known v.cell) :
    Counterpart s s' { s with store := d.store, scope := s.scopeWith declared }
      { s' with
        store := d'.store
        scope := s'.scopeWith (declared.map fun entry =>
          (entry.1, entry.2.rename (s.separation s' ρ).rename)) }
      (s.separation s' ρ).rename program
      (program.map (Operation.rename (s.separation s' ρ).rename)) where
  renamed := rfl
  names := Program.names_rename _ program
  length := List.length_map _
  visible op mem v used := (known_iff_visible h wellFormed').1 (known op mem v used)
  injective v w := eq_of_rename_separation h wellFormed wellFormed'
  count := alike.count
  created v has absent := by
    refine ⟨alike.has absent has, Recompilation.not_has_rename _ absent, ?_⟩
    exact alike.contents v.cell absent fun _ => trivial
  declared := ⟨declared, rfl, rfl⟩
  corresponds := corresponds_after h wellFormed wellFormed' alike new

end After

/-! ### Compiling in both sessions -/

section Compile

variable (h : s.Corresponds ρ s') (wellFormed : s.WellFormed) (wellFormed' : s'.WellFormed)
  {source : String} {tokens : List Token} (read : Token.tokenize source = .ok tokens)
include h wellFormed wellFormed' read

theorem sameOutcome_of_statement (notMacro : Token.declareMacro tokens = false) :
    s.SameOutcome ρ s' source := by
  have lockstep := @Recompilation.lockstep_compile (s.separation s' ρ) _ _ s.macros trivial
    (likeScope_separation h wellFormed wellFormed') tokens
  have start : (s.separation s' ρ).Alike s.draft s'.draft := .start
  cases run : Statement.compile s.scope s.macros tokens s.draft with
  | ok compiled d =>
    obtain ⟨succeeds, follows⟩ := lockstep.ok start run
    obtain ⟨compiled', d', run'⟩ := succeeds trivial
    obtain ⟨⟨rfl, known⟩, alike⟩ := follows run'
    rw [← h.macros] at run'
    obtain ⟨result, session⟩ := compile_of_ok read notMacro run
    obtain ⟨result', session'⟩ := compile_of_ok read notMacro run'
    rw [SameOutcome, result, result', session, session']
    refine ⟨_, fun v => rename_separation wellFormed,
      counterpart_of_alike h wellFormed wellFormed' alike (fun name w declared => ?_) known⟩
    obtain ⟨_, _, _, _, -, -, -, -, -, -, new, -⟩ := Statement.declared_of_compile run declared
    exact new
  | error e d =>
    obtain ⟨e', d', run', same⟩ := lockstep.error ⟨trivial, trivial⟩ start run
    rw [← h.macros] at run'
    rw [SameOutcome, compile_of_fail read notMacro run, compile_of_fail read notMacro run']
    exact same

/-- Whether a macro can be declared depends on the text only. -/
theorem sameOutcome_of_declaration (isMacro : Token.declareMacro tokens = true) :
    s.SameOutcome ρ s' source := by
  have same := result_of_declaration s s' read isMacro
  cases result : (s.compile source).result with
  | ok program =>
    have result' := same.trans result
    obtain ⟨m, parsed, -, rfl, session⟩ := compile_of_declaration read isMacro result
    obtain ⟨m', parsed', -, -, session'⟩ := compile_of_declaration read isMacro result'
    obtain rfl : m = m' := Except.ok.inj (parsed.symm.trans parsed')
    rw [SameOutcome, result, result', session, session']
    have start := @counterpart_of_alike _ _ _ h wellFormed wellFormed' s.draft s'.draft .start
      none nofun [] nofun
    refine ⟨_, fun v => rename_separation wellFormed, { start with corresponds := ?_ }⟩
    exact { start.corresponds with macros := by rw [h.macros] }
  | error e =>
    rw [SameOutcome, result, same.trans result]
    exact .refl e

omit read in
/-- **Compiling does not look at contents.**  In two sessions that correspond, every text fails
with the same variant of error, or has the same program but for the names of cells and declares the
same name, and the sessions correspond again. -/
theorem compile_corresponds (source : String) : s.SameOutcome ρ s' source := by
  cases read : Token.tokenize source with
  | error e =>
    rw [SameOutcome, compile_of_unreadable read, compile_of_unreadable read]
    exact .refl e
  | ok tokens =>
    cases isMacro : Token.declareMacro tokens with
    | true => exact sameOutcome_of_declaration h wellFormed wellFormed' read isMacro
    | false => exact sameOutcome_of_statement h wellFormed wellFormed' read isMacro

end Compile

/-! ### Sample sessions -/

/-- Integer cells have other names. -/
def nextInteger : Renaming
  | .integer, c => ⟨c.id + 1⟩
  | .matrix, c | .double, c | .sequence, c => c

/-- In two sessions `n` is bound to an integer and `p` to the range from `n` to `n`.  The second has
an integer cell that no name is bound to. -/
theorem corresponds_sample (unused n n' : Int64) :
    (sample n (.progression ⟨0⟩ none ⟨0⟩)).Corresponds nextInteger
      { store := { integers := #[unused, n'], sequences := #[.progression ⟨1⟩ none ⟨1⟩] }
        scope := ⟨[("n", ⟨.integer, ⟨1⟩⟩), ("p", ⟨.sequence, ⟨0⟩⟩)]⟩ } where
  macros := rfl
  scope name := by
    simp only [sample, Bindings.find?, Bindings.findIn]
    split
    · rfl
    · split <;> rfl
  sequences name c found := by
    simp only [sample, Bindings.find?, Bindings.findIn] at found
    split at found
    · cases found
    · split at found <;> cases found
      rfl
  sharing v w _ _ same := by
    obtain ⟨kind, ⟨i⟩⟩ := v
    obtain ⟨kind', ⟨j⟩⟩ := w
    obtain rfl : kind = kind' := congrArg Variable.kind same
    have eq := eq_of_heq (Variable.mk.inj same).2
    cases kind
    case integer =>
      have next : i + 1 = j + 1 := congrArg Cell.id eq
      rw [Nat.succ.inj next]
    all_goals exact same

/-- A list and a product compile alike where `n` is 0 and where it is 5, and in neither session may
`n` be the axis of a sum. -/
theorem compile_corresponds_of_sample : ∃ (h h' : History) (program program' : Program),
    h.Reachable ∧ h'.Reachable ∧ h.session.Corresponds nextInteger h'.session ∧
    h.session.content? .integer "n" = some 0 ∧ h'.session.content? .integer "n" = some 5 ∧
    (h.session.compile "q = p n*2").result = .ok program ∧
    (h'.session.compile "q = p n*2").result = .ok program' ∧
    program.names = ["multiply-ii", "copy-is-is"] ∧
    h.session.SameOutcome nextInteger h'.session "q = p n*2" ∧
    (h.session.compile "q = sum([1 2],n)").result.toOption.isNone = true ∧
    h.session.SameOutcome nextInteger h'.session "q = sum([1 2],n)" := by
  let s₁ : Session := { store := { integers := #[7] } }
  let s₂ : Session :=
    { store := { integers := #[7, 5] }, scope := ⟨[("n", ⟨.integer, ⟨1⟩⟩)]⟩ }
  let h : History := { session := sample 0 (.progression ⟨0⟩ none ⟨0⟩) }
  let h' : History := { session :=
    { store := { integers := #[7, 5], sequences := #[.progression ⟨1⟩ none ⟨1⟩] }
      scope := ⟨[("n", ⟨.integer, ⟨1⟩⟩), ("p", ⟨.sequence, ⟨0⟩⟩)]⟩ } }
  have reachable : h.Reachable := reachable_sample 0 (by simp [IndexSequence.cells])
  have reachable' : h'.Reachable := by
    have first : @define s₁ .integer "n" 5 = .ok s₂ := by rfl
    have second : @define s₂ .sequence "p" (.progression ⟨1⟩ none ⟨1⟩) = .ok h'.session := by rfl
    refine .head (@History.Step.allocate {} .integer 7 (List.forall_mem_nil _)) <|
      .head (@History.Step.define { session := s₁ } .integer "n" 5 s₂ (List.forall_mem_nil _)
        first) <|
      .single (@History.Step.define { session := s₂ } .sequence "p" _ _ ?_ second)
    simp [Kind.cellsOf, IndexSequence.cells, Store.Has, Store.count, Store.contents, s₂]
  have same : h.session.Corresponds nextInteger h'.session := corresponds_sample 7 0 5
  exact ⟨h, h', _, _, reachable, reachable', same, by decide +kernel, by decide +kernel,
    result_eq_programOf (by decide +kernel), result_eq_programOf (by decide +kernel),
    by decide +kernel, compile_corresponds same reachable.wellFormed reachable'.wellFormed _,
    by decide +kernel, compile_corresponds same reachable.wellFormed reachable'.wellFormed _⟩

end Session

end MatrixCalc
