import MatrixCalc.Proofs.Brackets.Discipline
import MatrixCalc.Proofs.Literals.Foreseen
import MatrixCalc.Proofs.Recompilation.Later

/-!
# Literals that are refused

A literal is refused when its statement is compiled, from what its blocks hold then.  The check is
right about all blocks that the statement has made itself, since these keep what they hold.  It also
counts the indices of a bound sequence, which may be given others before the statement is performed.

* `Draft.Hopeless` : a literal that nothing which the variables may hold makes buildable, unless a
  bound sequence gets another number of indices.
* `Group.blockWith` : the resolution of lists, with another check of literals.
* `Statement.compile_hopeless` : **only hopeless literals are refused**.
* `Session.refused_literal` : a refused literal that can be built once a bound sequence has another
  number of indices.
-/

namespace MatrixCalc

open MatrixCalc.Group

/-! ### Hopeless literals -/

namespace Draft

/-- What the check of a literal answers. -/
def checkStatic (d : Draft) (rows : Literal) : Except Malformed Unit :=
  rows.checkStatic d.store d.constant

/-- The literal cannot be built.  Let the cells of the store `base`, which the variables are bound
to, hold anything, and perform what stands in front of the literal: if the bound sequences among its
blocks have as many indices as they had, as far as that was known, the literal fails. -/
def Hopeless (base : Store) (d : Draft) (rows : Literal) : Prop :=
  ∀ other later : Store,
    (∀ v : Variable, ¬ base.Has v.cell → other.read v.cell = d.store.read v.cell) →
    d.program.perform other = (later, none) →
    (∀ cell : Cell .sequence, ⟨.sequence, cell⟩ ∈ rows.flatten → base.Has cell →
      ∀ n, (d.store.read cell).staticLength d.constant = some n →
        ((later.read cell).listing later.read 0).length = n) →
    ∀ m, rows.layOut later ≠ .ok m

variable {base : Store} {literals : List Variable} {d : Draft} {rows : Literal}

/-- What a draft has made and does not write is the same after its operations. -/
theorem read_later {other later : Store}
    (same : ∀ v : Variable, ¬ base.Has v.cell → other.read v.cell = d.store.read v.cell)
    (performed : d.program.perform other = (later, none)) {v : Variable} (new : ¬ base.Has v.cell)
    (unwritten : v ∉ d.program.outputs) : later.read v.cell = d.store.read v.cell :=
  (Program.read_of_perform performed unwritten).trans (same v new)

/-- **A literal that a sound draft refuses is hopeless.** -/
theorem hopeless_of_refused (sound : d.Sound base literals) (noted : d.Noted)
    (refused : d.checkStatic rows ≠ .ok ()) : d.Hopeless base rows := by
  intro other later same performed counted m built
  obtain ⟨blocks, shown, fits, -⟩ := Literal.layOut_eq_ok_iff.1 built
  have constants : ∀ c value, d.constant c = some value → later.read c = value := by
    intro c value found
    obtain ⟨before, behind, split, -⟩ := List.lookup_eq_some_iff.1 found
    have mem : (c, value) ∈ d.constants := by simp [split]
    have literal := sound.constants _ mem
    have kept := @read_later base d other later same performed ⟨.integer, c⟩
      (sound.literal _ literal).2.1 fun output => (sound.outputs _ output).2.2.1 literal
    exact kept.trans (noted _ mem).2
  refine refused (Literal.checkStatic_of_fits (Literal.foresees_of_shown shown ?_) fits)
  intro cell mem n length
  by_cases old : base.Has cell
  · exact counted cell mem old n length
  · have kept := @read_later base d other later same performed ⟨.sequence, cell⟩ old
      fun output => (sound.outputs _ output).2.2.2 rfl
    rw [kept]
    exact IndexSequence.length_of_staticLength constants length

end Draft

/-! ### Another check -/

namespace Group

variable (check : Draft → Literal → Except Malformed Unit)

/-- The value of a literal, checked in some way. -/
def literalWith (block : Resolver) (inside : List Item) : Build Variable := do
  let rows ← literalRows block inside
  let op ← Build.place (.ok ⟨"matrixConstructor", .literal rows⟩)
  let draft ← get
  Build.ofExcept (check draft rows)
  Build.emit op

/-- `resolve`, with literals checked in some way. -/
def resolveWith (block : Resolver) (opening : Symbol) (done inside : List Item) :
    Build (List Item) :=
  match opening, done with
  | .bracketLeft, done => return .value (← literalWith check block inside) :: done
  | opening, done => resolve block opening done inside

/-- `resolveAll`, with literals checked in some way. -/
def resolveAllWith (block : Resolver) (done : List Item) : List Item → Build (List Item)
  | [] => pure done.reverse
  | item :: items =>
    match symbol? item, bracketRole item with
    | some opening, .opening =>
      match _cut : untilClose 0 items with
      | none => Build.fail (.unterminated opening)
      | some (inside, _, rest) => do
        resolveAllWith block (← resolveWith check block opening done inside) rest
    | some closing, .closing => Build.fail (.unmatchedClosing closing)
    | _, _ => resolveAllWith block (item :: done) items
termination_by items => items.length
decreasing_by
  · have := length_of_untilClose _cut
    simp only [List.length_cons]
    omega
  · simp

/-- `block`, with literals checked in some way. -/
def blockWith : Nat → Resolver
  | 0, _ => Build.fail .nestedTooDeeply
  | allowance + 1, items => do
    let items ← resolveAllWith check (blockWith allowance) [] items
    checkRest items
    Range.handles (← Tier.all items)

end Group

namespace Build

variable {α β : Type}

/-- The computations do the same on every sound draft in which the variables can be read. -/
def SameOn (base : Store) (m m' : Build α) (taken : List Variable) : Prop :=
  ∀ ⦃literals d⦄, d.Sound base literals → d.Noted →
    (∀ v ∈ taken, d.Available base literals v) → m d = m' d

variable {base : Store} {m m' x x' : Build α} {f f' : α → Build β} {t t' k : List Variable}
  {g : α → List Variable}

theorem SameOn.refl (m : Build α) (t : List Variable) : SameOn base m m t :=
  fun _ _ _ _ _ => rfl

theorem SameOn.mono (h : SameOn base m m' t) (more : t ⊆ t') : SameOn base m m' t' :=
  fun _ _ sound noted available => h sound noted fun v mem => available v (more mem)

/-- What follows is the same anyway. -/
theorem SameOn.bind_left (h : SameOn base x x' t) (f : α → Build β) :
    SameOn base (x >>= f) (x' >>= f) t := by
  intro literals d sound noted available
  rw [bind_eq, bind_eq, h sound noted available]

/-- What the first part does not take can be read by the second. -/
theorem SameOn.bind (h : SameOn base x x' t) (linear : x'.Linear t g)
    (more : ∀ a, SameOn base (f a) (f' a) (g a ++ k)) :
    SameOn base (x >>= f) (x' >>= f') (t ++ k) := by
  intro literals d sound noted available
  have taken : ∀ v ∈ t, d.Available base literals v := fun v mem =>
    available v (List.mem_append_left _ mem)
  refine Statement.bind_congr (h sound noted taken) fun a d' run => ?_
  have leads := linear run sound taken
  refine more a leads.sound (leads.grows.noted noted) fun v mem => ?_
  rcases List.mem_append.1 mem with mem | mem
  · exact leads.available v mem
  · exact (available v (List.mem_append_right _ mem)).mono leads.grows

theorem SameOn.then (h : SameOn base x x' t) (linear : x'.Linear t g)
    (more : ∀ a, SameOn base (f a) (f' a) (g a)) : SameOn base (x >>= f) (x' >>= f') t := by
  have both := h.bind (k := []) linear fun a => by simpa using more a
  simpa using both

/-- What stands in front is the same anyway, and takes nothing. -/
theorem SameOn.behind {m : Build Unit} {f f' : Unit → Build β}
    (linear : m.Linear [] fun _ => []) (more : SameOn base (f ()) (f' ()) t) :
    SameOn base (m >>= f) (m >>= f') t :=
  (SameOn.refl m []).bind (k := t) linear fun _ => more

theorem sameOn_mapM {t : α → List Variable} {g : β → List Variable} (xs : List α)
    (same : ∀ x ∈ xs, SameOn base (f x) (f' x) (t x)) (linear : ∀ x ∈ xs, (f' x).Linear (t x) g) :
    SameOn base (xs.mapM f) (xs.mapM f') (xs.flatMap t) := by
  induction xs with
  | nil => exact .refl _ _
  | cons x xs ih =>
    obtain ⟨first, rest⟩ := List.forall_mem_cons.1 same
    obtain ⟨first', rest'⟩ := List.forall_mem_cons.1 linear
    rw [List.mapM_cons, List.mapM_cons, List.flatMap_cons]
    exact first.bind first' fun y =>
      ((ih rest rest').mono (List.subset_append_right _ _)).bind_left _

end Build

/-! ### Refusals are only of hopeless literals -/

open Build Item

namespace Group

variable {base : Store} {check : Draft → Literal → Except Malformed Unit}

/-- The check answers what the literal check answers, unless that refuses a literal that is not
hopeless; then it may answer anything. -/
def Audits (base : Store) (check : Draft → Literal → Except Malformed Unit) : Prop :=
  ∀ d rows, (d.checkStatic rows = .ok () ∨ d.Hopeless base rows) →
    check d rows = d.checkStatic rows

section Same

variable {block block' : Resolver}
  (same : ∀ items, SameOn base (block' items) (block items) (values items))
  (linear : ∀ items, (block items).Linear (values items) id)
include same

theorem sameOn_single (items : List Item) :
    SameOn base (single block' items) (single block items) (values items) :=
  (same items).bind_left _

theorem sameOn_element (items : List Item) :
    SameOn base (element block' items) (element block items) (values items) :=
  .behind (linear_require _ _) (same items)

include linear

theorem sameOn_call (f : Builtin) (inside : List Item) :
    SameOn base (call block' f inside) (call block f inside) (values inside) := by
  refine SameOn.bind_left ?_ _
  unfold arguments
  split
  · exact .refl _ _
  · rw [← values_of_splitTop .comma 0]
    exact sameOn_mapM _
      (fun piece _ => .behind (linear_require _ _) ((sameOn_single same piece).bind_left _))
      fun piece _ => linear_argument linear f piece

theorem sameOn_address (inside : List Item) :
    SameOn base (address block' inside) (address block inside) (values inside) := by
  refine .behind (linear_require _ _) (SameOn.bind_left ?_ _)
  rw [← values_of_splitTop .comma 0]
  exact sameOn_mapM _ (fun piece _ => (sameOn_single same piece).bind_left _)
    fun piece _ => linear_index linear piece

theorem sameOn_literalRow (items : List Item) :
    SameOn base (literalRow block' items) (literalRow block items) (values items) := by
  refine .behind (linear_require _ _) (SameOn.bind_left ?_ _)
  rw [← values_of_splitTop .comma 0]
  exact sameOn_mapM _ (fun piece _ => sameOn_element same piece)
    fun piece _ => linear_element linear piece

theorem sameOn_literalRows (inside : List Item) :
    SameOn base (literalRows block' inside) (literalRows block inside) (values inside) := by
  unfold literalRows
  split
  · exact .refl _ _
  · rw [← values_of_splitTop .semicolon 0]
    exact sameOn_mapM _ (fun piece _ => sameOn_literalRow same linear piece)
      fun piece _ => linear_literalRow linear piece

variable (audits : Audits base check)
include audits

theorem sameOn_literal (inside : List Item) :
    SameOn base (literalWith check block' inside) (literal block inside) (values inside) := by
  refine (sameOn_literalRows same linear inside).then (linear_literalRows linear inside)
    fun rows => ?_
  intro literals d sound noted _
  refine Statement.bind_congr rfl fun op d₁ placed => Statement.bind_congr rfl fun d₂ d₃ start => ?_
  obtain ⟨rfl, rfl⟩ := get_eq_ok_iff.1 start
  -- the target of the literal has been created, and nothing else has happened
  have grows := (growing_place _).of_ok placed
  have sound' : d₂.Sound base literals := by
    obtain ⟨recipe, made, -, rfl⟩ := place_eq_ok_iff.1 placed
    cases made
    exact sound.widen grows.extends (sound.closed.allocate_blank .matrix) rfl rfl
  have answer : check d₂ rows = d₂.checkStatic rows := by
    refine audits d₂ rows ?_
    by_cases accepted : d₂.checkStatic rows = .ok ()
    · exact .inl accepted
    · exact .inr (Draft.hopeless_of_refused sound' (grows.noted noted) accepted)
  exact Statement.bind_congr (congrArg (fun r => Build.ofExcept r d₂) answer) fun _ _ _ => rfl

theorem sameOn_resolve (opening : Symbol) (done inside : List Item) :
    SameOn base (resolveWith check block' opening done inside) (resolve block opening done inside)
      (values done ++ values inside) := by
  by_cases bracket : opening = .bracketLeft
  · subst bracket
    exact ((sameOn_literal same linear audits inside).mono
      (List.subset_append_right _ _)).bind_left _
  · have other : resolveWith check block' opening done inside =
        resolve block' opening done inside := by
      cases opening <;> first | rfl | exact absurd rfl bracket
    rw [other]
    refine SameOn.mono ?_ (List.subset_append_right (values done) (values inside))
    unfold resolve
    split
    · exact absurd rfl bracket
    · exact (sameOn_call same linear _ inside).bind_left _
    · exact (sameOn_address same linear inside).bind_left _
    · exact (sameOn_single same inside).bind_left _

theorem sameOn_resolveAll (done items : List Item) :
    SameOn base (resolveAllWith check block' done items) (resolveAll block done items)
      (values done ++ values items) := by
  have opens {item : Item} {s : Symbol} (role : bracketRole item = .opening)
      (symbol : symbol? item = some s) : s.role = .opening := by
    rwa [bracketRole, symbol] at role
  fun_induction resolveAllWith check block' done items with
  | case1 done =>
    rw [resolveAll]
    exact .refl _ _
  | case2 done item items opening role symbol cut =>
    rw [resolveAll_opening symbol (opens role symbol), cut]
    exact .refl _ _
  | case3 done item items opening role symbol inside close rest cut ih =>
    rw [resolveAll_opening symbol (opens role symbol), cut, values_cons item,
      values_of_symbol symbol, List.nil_append, values_of_untilClose cut, ← List.append_assoc]
    exact (sameOn_resolve same linear audits opening done inside).bind
      (linear_resolve linear opening done inside) ih
  | case4 done item items closing role symbol =>
    rw [resolveAll_unmatched symbol role]
    exact .refl _ _
  | case5 done item items noOpening noClosing ih =>
    have neutral := neutral_of_no_bracket noOpening noClosing
    rw [resolveAll_neutral neutral, values_cons item items]
    rw [values_cons item done] at ih
    exact ih.mono fun v mem => by
      simp only [List.mem_append] at mem ⊢
      tauto

end Same

/-- **Only hopeless literals are refused** when a list is resolved. -/
theorem sameOn_block (audits : Audits base check) (allowance : Nat) (items : List Item) :
    SameOn base (blockWith check allowance items) (block allowance items) (values items) := by
  induction allowance generalizing items with
  | zero => exact .refl _ _
  | succ allowance ih =>
    exact (sameOn_resolveAll ih (linear_block allowance) audits [] items).bind_left _

end Group

/-! ### Statements -/

namespace Statement

variable {scope : Bindings Variable} {macros : Bindings Macro} {base : Store}
  {check : Draft → Literal → Except Malformed Unit} {d : Draft}

variable (bound : ∀ name v, scope.find? name = some v → base.Has v.cell) (closed : base.Closed)
  (audits : Audits base check)
include bound closed audits

theorem valueWith_audited (tokens : List Token) :
    valueWith (Macro.expand macros) (blockWith check maxNesting) scope tokens { store := base } =
      value scope macros tokens { store := base } := by
  refine bind_congr rfl fun items d₁ prepared => ?_
  obtain ⟨_, literals, -, progress, -⟩ :=
    progress_of_prepare bound closed (Draft.Progress.start closed) prepared
  have noted : d₁.Noted := ((growing_prepare scope macros tokens).of_ok prepared).noted
    (List.forall_mem_nil _)
  have resolved := sameOn_single (sameOn_block audits maxNesting) items progress.sound noted
    fun v mem => progress.available v (List.mem_append_left _ mem)
  exact bind_congr resolved fun _ _ _ => rfl

theorem assignPlacesWith_audited {literals : List Variable} {v : Variable}
    (progress : d.Progress base literals [v]) (noted : d.Noted) (name : String)
    (left : List Token) :
    assignPlacesWith (Macro.expand macros) (blockWith check maxNesting) scope name left v d =
      assignPlaces scope macros name left v d := by
  unfold assignPlacesWith assignPlaces
  generalize scope.find? name = found
  rcases found with _ | ⟨_ | _ | _ | _, m⟩
  case some.matrix =>
    refine bind_congr rfl fun inside d₁ cut => ?_
    obtain ⟨-, rfl⟩ := ofExcept_eq_ok_iff.1 cut
    refine bind_congr rfl fun items d₂ prepared => ?_
    obtain ⟨_, new, -, progress, -⟩ := progress_of_prepare bound closed progress prepared
    have noted := ((growing_prepare scope macros inside).of_ok prepared).noted noted
    have resolved := sameOn_address (sameOn_block audits maxNesting) (linear_block maxNesting) items
      progress.sound noted fun v mem => progress.available v (List.mem_append_left _ mem)
    exact bind_congr resolved fun _ _ _ => rfl
  all_goals rfl

/-- **Only hopeless literals are refused.**  A statement is compiled as if any other check took the
place of the check of literals, as long as it differs only where a literal is refused that is not
hopeless. -/
theorem compileWith_audited (tokens : List Token) :
    compileWith (Macro.expand macros) (blockWith check maxNesting) scope tokens
        { store := base } =
      compile scope macros tokens { store := base } := by
  refine bind_congr rfl ?_
  rintro ⟨left, right⟩ d₁ cut
  obtain ⟨-, rfl⟩ := ofExcept_eq_ok_iff.1 cut
  refine bind_congr rfl fun _ d₂ present => ?_
  obtain ⟨-, rfl⟩ := require_eq_ok_iff.1 present
  refine bind_congr rfl fun name d₃ named => ?_
  obtain ⟨-, rfl⟩ := target_eq_ok_iff.1 named
  refine bind_congr (valueWith_audited bound closed audits right) fun v d₄ valued => ?_
  refine bind_congr ?_ fun _ _ _ => rfl
  unfold assignWith assign
  split
  · rfl
  · obtain ⟨_, literals, -, progress, -⟩ := progress_of_value bound closed valued
    have noted : d₄.Noted := ((growing_value scope macros right).of_ok valued).noted
      (List.forall_mem_nil _)
    exact bind_congr (assignPlacesWith_audited bound closed audits progress noted name left)
      fun _ _ _ => rfl

end Statement

namespace Session

/-- **Only hopeless literals are refused.**  In a session that comes about, a statement is compiled
as if any other check took the place of the check of literals, as long as it answers the same about
literals that are accepted and about literals that are hopeless.  So no other literal is ever
refused. -/
theorem compile_hopeless {h : History} (reachable : h.Reachable)
    {check : Draft → Literal → Except Malformed Unit} (audits : Audits h.session.store check)
    (tokens : List Token) :
    Statement.compileWith (Macro.expand h.session.macros) (blockWith check maxNesting)
        h.session.scope tokens h.session.draft =
      Statement.compile h.session.scope h.session.macros tokens h.session.draft :=
  Statement.compileWith_audited reachable.wellFormed.bound reachable.wellFormed.closed audits tokens

theorem eq_error_of_map {ε α : Type} {r : Except ε α} {e : ε}
    (h : r.map (fun _ => ()) = .error e) : r = .error e := by
  cases r with
  | ok a => cases h
  | error e' =>
    cases h
    rfl

/-- A check that lets pass whatever is not hopeless also refuses a range of three over two
numbers. -/
theorem compile_hopeless_of_range :
    ∃ (check : Draft → Literal → Except Malformed Unit) (tokens : List Token),
      History.Reachable {} ∧ Audits ({} : Session).store check ∧
      (∀ d rows, ¬ d.Hopeless ({} : Session).store rows → check d rows = .ok ()) ∧
      Token.tokenize "y = [1:3; 1 2]" = .ok tokens ∧
      Statement.compileWith (Macro.expand ({} : Session).macros) (blockWith check maxNesting)
          ({} : Session).scope tokens ({} : Session).draft =
        Statement.compile ({} : Session).scope ({} : Session).macros tokens ({} : Session).draft ∧
      (({} : Session).compile "y = [1:3; 1 2]").result =
        .error (.malformed (.literalWidth 1 2 3)) := by
  classical
  let check (d : Draft) (rows : Literal) : Except Malformed Unit :=
    if d.Hopeless ({} : Session).store rows then d.checkStatic rows else .ok ()
  have passes : ∀ d rows, ¬ d.Hopeless ({} : Session).store rows → check d rows = .ok () :=
    fun d rows hope => if_neg hope
  have audits : Audits ({} : Session).store check := by
    intro d rows agreed
    by_cases hopeless : d.Hopeless ({} : Session).store rows
    · exact if_pos hopeless
    · rw [passes d rows hopeless, agreed.resolve_right hopeless]
  have reachable : History.Reachable {} := .refl
  have refused := @eq_error_of_map _ _ (({} : Session).compile "y = [1:3; 1 2]").result
    (.malformed (.literalWidth 1 2 3)) (by decide +kernel)
  exact ⟨check, _, reachable, audits, passes, by cbv, compile_hopeless reachable audits _, refused⟩

/-- **A literal that is refused although it could be built.**  While `p` has two indices, a literal
of `p` over three numbers is refused.  Nothing but what `p` holds is changed, and the same text is
processed. -/
theorem refused_literal : ∃ (h h' : History) (p : Cell .sequence) (value : IndexSequence)
    (program : Program) (m : Matrix), h.Reachable ∧
    h.session.scope.find? "p" = some ⟨.sequence, p⟩ ∧
    (h.session.compile "y = [p; 1 2 3]").result = .error (.malformed (.literalWidth 1 3 2)) ∧
    History.Step h h' ∧ h'.session = { h.session with store := h.session.store.write p value } ∧
    (h'.session.process "y = [p; 1 2 3]").result = .ok program ∧
    (h'.session.process "y = [p; 1 2 3]").session.content? .matrix "y" = some m ∧
    m.shape = ⟨2, 3⟩ := by
  let h : History := { session := sample 3 (.listed [⟨0⟩, ⟨0⟩]) }
  let three : IndexSequence := .listed [⟨0⟩, ⟨0⟩, ⟨0⟩]
  let h' : History := { h with session.store := h.session.store.write (⟨0⟩ : Cell .sequence) three }
  have reachable : h.Reachable := reachable_sample 3 (by simp [IndexSequence.cells])
  have bound : h.session.scope.find? "p" = some ⟨.sequence, ⟨0⟩⟩ := by decide +kernel
  have step : History.Step h h' := by
    refine @History.Step.write h "p" ⟨.sequence, ⟨0⟩⟩ three bound fun c mem => ?_
    obtain rfl : c = ⟨0⟩ := by simpa [Kind.cellsOf, IndexSequence.cells, three] using mem
    exact Nat.zero_lt_one
  have refused := @eq_error_of_map _ _ (h.session.compile "y = [p; 1 2 3]").result
    (.malformed (.literalWidth 1 3 2)) (by decide +kernel)
  have succeeds : (h'.session.process "y = [p; 1 2 3]").result.toOption.isSome = true := by
    decide +kernel
  have shape : ((h'.session.process "y = [p; 1 2 3]").session.content? .matrix "y").map
      Matrix.shape = some ⟨2, 3⟩ := by
    decide +kernel
  obtain ⟨m, content, rows⟩ := Option.map_eq_some_iff.1 shape
  obtain ⟨program, result⟩ := exists_of_isSome_toOption succeeds
  exact ⟨h, h', ⟨0⟩, three, program, m, reachable, bound, refused, step, rfl, result, content,
    rows⟩

end Session

end MatrixCalc
