import MatrixCalc.Proofs.Recompilation.Parts
import MatrixCalc.Proofs.SingleAssignment

/-!
# A statement compiled twice

Compiled a second time, with its names bound as they were and its macros declared as they were, a
statement has the same program up to the names of new cells, if it compiles.  It does compile if the
sequences that it reads hold what they held (`Recompilation.renamed_of_compile`).
-/

namespace MatrixCalc

/-! ### Names -/

namespace Statement

/-- The statement assigns to the name. -/
def Targets (tokens : List Token) (name : String) : Prop :=
  ∃ left right, splitAssignment tokens = .ok (left, right) ∧ targetName left = .ok name

/-- The statement reads the name: it stands on the right side or between the brackets of the
target, with macros expanded. -/
def Reads (macros : Bindings Macro) (tokens : List Token) (name : String) : Prop :=
  ∃ left right, splitAssignment tokens = .ok (left, right) ∧
    ((∃ expanded, Expands macros right expanded ∧ .word name ∈ expanded) ∨
      ∃ inside expanded, targetIndices left = .ok inside ∧ Expands macros inside expanded ∧
        .word name ∈ expanded)

end Statement

namespace Operation

/-- The operation with the cells that it reads renamed. -/
def renameTerm (ρ : Renaming) (op : Operation) : Operation := ⟨op.name, op.target, op.term.rename ρ⟩

theorem copy_rename (ρ : Renaming) (v target : Variable) :
    copy (v.rename ρ) target = (copy v target).map (renameTerm ρ) := by
  rcases v with ⟨_ | _ | _ | _, x⟩ <;> rcases target with ⟨_ | _ | _ | _, y⟩ <;> rfl

theorem insert_rename (ρ : Renaming) (v : Variable) {m : Cell .matrix} (kept : ρ .matrix m = m)
    (address : Address) :
    insert (v.rename ρ) m (address.rename ρ) = (insert v m address).map (renameTerm ρ) := by
  have term : ∀ source : Source, (⟨"copyR", m, .inserted m (source.rename ρ) (address.rename ρ)⟩ :
      Operation) = renameTerm ρ ⟨"copyR", m, .inserted m source address⟩ := by
    intro source
    rw [renameTerm, Term.rename, kept]
  rcases v with ⟨_ | _ | _ | _, x⟩
  case sequence => rfl
  case matrix => exact congrArg Except.ok (term (.matrix x))
  case double => exact congrArg Except.ok (term (.scalar (.double x)))
  case integer => exact congrArg Except.ok (term (.scalar (.integer x)))

end Operation

namespace Recompilation

open Build Statement

variable {r : Recompilation} {scope scope' : Bindings Variable} {macros : Bindings Macro}

variable (r) in
/-- The names that are read are bound as they were, and functions are not bound. -/
structure LikeScope (scope scope' : Bindings Variable) (reads : String → Prop) : Prop where
  bound : ∀ name v, reads name → scope.find? name = some v →
    ∃ v', scope'.find? name = some v' ∧ r.Like v v'
  unbound : r.mirror → ∀ name, reads name → scope.find? name = none → scope'.find? name = none
  builtin : ∀ name v, scope'.find? name = some v → Builtin.ofName? name = none

theorem LikeScope.mono {reads reads' : String → Prop} (h : r.LikeScope scope scope' reads)
    (sub : ∀ name, reads' name → reads name) : r.LikeScope scope scope' reads' :=
  ⟨fun name v mem => h.bound name v (sub name mem),
    fun mirror name mem => h.unbound mirror name (sub name mem), h.builtin⟩

theorem lockstep_ofToken {t : Token} (h : r.LikeScope scope scope' fun name => t = .word name) :
    r.Lockstep (Item.ofToken scope t) (Item.ofToken scope' t) r.LikeItem := by
  cases t with
  | symbol s => exact lockstep_pure (.symbol s)
  | integer n => exact (lockstep_integerLiteral n).bind fun _ _ like => lockstep_pure (.value like)
  | double x => exact (lockstep_doubleLiteral x).bind fun _ _ like => lockstep_pure (.value like)
  | word name =>
    simp only [Item.ofToken]
    cases found : scope.find? name with
    | some v =>
      obtain ⟨v', found', like⟩ := h.bound name v rfl found
      rw [found']
      exact lockstep_pure (.value like)
    | none =>
      cases builtin : Builtin.ofName? name with
      | none =>
        dsimp only
        split
        · refine lockstep_throw fun exact => ⟨_, ?_, .refl _⟩
          rw [h.unbound exact.2 name rfl found]
          rfl
        · refine lockstep_throw fun exact => ⟨_, ?_, .refl _⟩
          rw [h.unbound exact.2 name rfl found]
      | some f =>
        -- the name cannot have been bound since, so it still means the function
        have free : scope'.find? name = none :=
          Option.eq_none_iff_forall_ne_some.2 fun v bound => by
            rw [h.builtin name v bound] at builtin
            cases builtin
        rw [free]
        exact lockstep_pure (.function f)

theorem lockstep_ofTokens (tokens : List Token)
    (h : r.LikeScope scope scope' fun name => .word name ∈ tokens) :
    r.Lockstep (Item.ofTokens scope tokens) (Item.ofTokens scope' tokens) r.LikeItems := by
  induction tokens with
  | nil => exact lockstep_pure .nil
  | cons t tokens ih =>
    refine (lockstep_ofToken (h.mono ?_)).bind fun _ _ item =>
      (ih (h.mono fun name mem => List.mem_cons_of_mem _ mem)).bind fun _ _ items =>
        lockstep_pure (.cons item items)
    rintro name rfl
    exact List.mem_cons_self

theorem lockstep_prepare {tokens : List Token} (h : r.LikeScope scope scope' fun name =>
      ∃ expanded, Expands macros tokens expanded ∧ .word name ∈ expanded) :
    r.Lockstep (prepare scope macros tokens) (prepare scope' macros tokens) r.LikeItems := by
  refine (lockstep_ofLogged (Macro.oblivious_expand macros tokens)).bind ?_
  rintro _ expanded ⟨rfl, expands⟩
  exact lockstep_ofTokens expanded (h.mono fun name mem => ⟨expanded, expands, mem⟩)

theorem lockstep_value {tokens : List Token} (h : r.LikeScope scope scope' fun name =>
      ∃ expanded, Expands macros tokens expanded ∧ .word name ∈ expanded) :
    r.Lockstep (value scope macros tokens) (value scope' macros tokens) r.Like :=
  (lockstep_prepare h).bind fun _ _ items =>
    (lockstep_single (lockstep_block maxNesting) items).bind fun _ _ => lockstep_ofOption

/-! ### The last operation -/

variable (r) in
/-- The second store is a later one: it has the cells of the first, under the same names. -/
structure Inherits : Prop where
  base : ∀ {kind : Kind} (c : Cell kind), r.base kind c = c
  has : ∀ {kind : Kind} {c : Cell kind}, r.old.Has c → r.new.Has c

theorem Inherits.rename_of_has (h : r.Inherits) {kind : Kind} {c : Cell kind} (has : r.old.Has c) :
    r.rename kind c = c := (r.rename_of_has has).trans (h.base c)

theorem Inherits.known (h : r.Inherits) {kind : Kind} (c : Cell kind) : r.Known c := fun has => by
  rw [h.base]
  exact h.has has

theorem Inherits.rename_injective (h : r.Inherits) {v w : Variable}
    (eq : v.rename r.rename = w.rename r.rename) : v = w := by
  obtain ⟨kind, c⟩ := v
  obtain ⟨kind', c'⟩ := w
  simp only [Variable.rename, Variable.mk.injEq] at eq
  obtain ⟨rfl, eq⟩ := eq
  have eq := eq_of_heq eq
  by_cases old : r.old.Has c
  · by_cases old' : r.old.Has c'
    · rw [h.rename_of_has old, h.rename_of_has old'] at eq
      rw [eq]
    · rw [r.eq_of_rename_eq old' (h.known c) eq.symm]
  · rw [r.eq_of_rename_eq old (h.known c') eq]

variable (r) in
/-- The program of the second compilation, where that of the first is `init` and then `op`.  It is
the same under the other names, except that the target of the last operation keeps its name, and
new cells hold the same. -/
structure Renamed (init : Program) (op : Operation) (program' : Program) (after after' : Store) :
    Prop where
  /-- The second program. -/
  program : program' = init.map (Operation.rename r.rename) ++ [op.renameTerm r.rename]
  /-- What new cells hold; sequences are left out if they may not agree. -/
  contents : ∀ {kind : Kind} (c : Cell kind), ¬ r.old.Has c →
    (⟨kind, c⟩ : Variable) ≠ op.output → (kind = .sequence → r.agree) →
      after'.read (r.rename kind c) = kind.renameContent r.rename (after.read c)
  /-- New cells are there. -/
  has : ∀ {kind : Kind} (c : Cell kind), ¬ r.old.Has c → (⟨kind, c⟩ : Variable) ≠ op.output →
    after.Has c → after'.Has (r.rename kind c)

/-- An operation added to both drafts. -/
theorem Alike.renamed {d d' : Draft} (h : r.Alike d d') {op : Operation} {after : Store}
    (same : ∀ {kind : Kind} (c : Cell kind), (⟨kind, c⟩ : Variable) ≠ op.output →
      after.read c = d.store.read c ∧ (after.Has c → d.store.Has c)) :
    r.Renamed d.program op (d'.emitted (op.renameTerm r.rename)).program after d'.store where
  program := congrArg (· ++ [op.renameTerm r.rename]) h.program
  contents c new other known := by
    rw [(same c other).1]
    exact h.contents c new known
  has c new other has := h.has new ((same c other).2 has)

variable {d d' d₁ : Draft} {name : String} {v v' : Variable}

/-- What the second compilation makes of an assignment. -/
def Assigns (r : Recompilation) (second : Build (Option (String × Variable))) (d' d₁ : Draft) :
    Prop :=
  (r.agree → ∃ declared' d₁', second d' = .ok declared' d₁') ∧
    ∀ ⦃declared' d₁'⦄, second d' = .ok declared' d₁' → declared' = none ∧ ∃ init op,
      d₁.program = init ++ [op] ∧ r.Renamed init op d₁'.program d₁.store d₁'.store

/-- A whole variable is assigned to in both compilations; in the second it is bound. -/
theorem assigns_whole (alike : r.Alike d d') (like : r.Like v v')
    {declared : Option (String × Variable)} (run : assignWhole scope name v d = .ok declared d₁)
    (stays : ∀ w, scope.find? name = some w → scope'.find? name = some w)
    (target : ∀ other w, declared = some (other, w) → scope'.find? other = some w) :
    r.Assigns (assignWhole scope' name v') d' d₁ := by
  -- in both cases the second compilation finds the target of the first
  have assigns : ∀ {w op}, scope'.find? name = some w → Operation.copy v w = .ok op →
      assignWhole scope' name v' d' = .ok none (d'.emitted (op.renameTerm r.rename)) := by
    intro w op found copied
    refine assignWhole_eq_ok_iff.2 (.inl ⟨w, _, found, ?_, rfl, rfl⟩)
    rw [like.eq, Operation.copy_rename, copied]
    rfl
  obtain ⟨op, w, found, copied, program, same⟩ : ∃ op w, scope'.find? name = some w ∧
      Operation.copy v w = .ok op ∧ d₁.program = d.program ++ [op] ∧
      ∀ {kind : Kind} (c : Cell kind), (⟨kind, c⟩ : Variable) ≠ op.output →
        d₁.store.read c = d.store.read c ∧ (d₁.store.Has c → d.store.Has c) := by
    rcases assignWhole_eq_ok_iff.1 run with ⟨w, op, found, copied, -, rfl⟩ |
      ⟨op, -, copied, rfl, rfl⟩
    · exact ⟨op, w, stays w found, copied, rfl, fun _ _ => ⟨rfl, id⟩⟩
    · refine ⟨op, _, target name _ rfl, copied, rfl, fun c other => ?_⟩
      rw [(operands_of_copy copied).2] at other
      exact ⟨d.store.read_allocate_of_ne _ other, fun has =>
        (d.store.has_or_eq_of_allocate _ has).resolve_right other⟩
  have second := assigns found copied
  refine ⟨fun _ => ⟨_, _, second⟩, fun declared' d₁' run' => ?_⟩
  rw [second] at run'
  cases run'
  exact ⟨rfl, d.program, op, program, alike.renamed same⟩

/-- Places of a matrix are assigned to in both compilations. -/
theorem assigns_places (inherits : r.Inherits)
    (bound : ∀ name v, scope.find? name = some v → r.old.Has v.cell)
    {left : List Token} (h : r.LikeScope scope scope' fun other => ∃ inside expanded,
      targetIndices left = .ok inside ∧ Expands macros inside expanded ∧ .word other ∈ expanded)
    (alike : r.Alike d d') (like : r.Like v v') {u : Unit}
    (run : assignPlaces scope macros name left v d = .ok u d₁)
    (stays : ∀ w, scope.find? name = some w → scope'.find? name = some w) :
    r.Assigns (do assignPlaces scope' macros name left v'; return none) d' d₁ := by
  obtain ⟨m, inside, items, e, address, e₁, op, found, indices, prepared, addressed, inserted,
    rfl⟩ := assignPlaces_eq_ok_iff.1 run
  -- the matrix is old, so the second compilation writes the same cell
  have found' := stays _ found
  have kept : r.rename .matrix m = m := inherits.rename_of_has (bound name _ found)
  obtain ⟨success, result⟩ := (lockstep_prepare
    (h.mono fun other ⟨expanded, expands, mem⟩ => ⟨inside, expanded, indices, expands, mem⟩)).ok
    alike prepared
  have op' : ∀ address', address' = address.rename r.rename →
      Operation.insert v' m address' = .ok (op.renameTerm r.rename) := by
    rintro _ rfl
    rw [like.eq, Operation.insert_rename _ _ kept, inserted]
    rfl
  constructor
  · intro agree
    obtain ⟨items', e', prepared'⟩ := success agree
    obtain ⟨likeItems, alike'⟩ := result prepared'
    obtain ⟨success, result⟩ :=
      (lockstep_address (lockstep_block maxNesting) likeItems).ok alike' addressed
    obtain ⟨address', e₁', addressed'⟩ := success agree
    refine ⟨none, _, bind_eq_ok_iff.2 ⟨(), _, assignPlaces_eq_ok_iff.2 ⟨m, inside, items', e',
      address', e₁', _, found', indices, prepared', addressed', op' _ (result addressed').1.eq,
      rfl⟩, rfl⟩⟩
  · intro declared' d₁' run'
    obtain ⟨_, _, written, done⟩ := bind_eq_ok_iff.1 run'
    obtain ⟨rfl, rfl⟩ := pure_eq_ok_iff.1 done
    obtain ⟨m', inside', items', e', address', e₁', op₁, found₁, indices', prepared', addressed',
      inserted', rfl⟩ := assignPlaces_eq_ok_iff.1 written
    rw [found'] at found₁
    cases found₁
    rw [indices] at indices'
    cases indices'
    obtain ⟨likeItems, alike'⟩ := result prepared'
    obtain ⟨places, alike₁⟩ :=
      ((lockstep_address (lockstep_block maxNesting) likeItems).ok alike' addressed).2 addressed'
    rw [op' _ places.eq] at inserted'
    cases inserted'
    exact ⟨rfl, e₁.program, op, rfl, alike₁.renamed fun _ _ => ⟨rfl, id⟩⟩

theorem assigns_of_assign (inherits : r.Inherits)
    (bound : ∀ name v, scope.find? name = some v → r.old.Has v.cell)
    {left : List Token} (h : r.LikeScope scope scope' fun other => ∃ inside expanded,
      targetIndices left = .ok inside ∧ Expands macros inside expanded ∧ .word other ∈ expanded)
    (alike : r.Alike d d') (like : r.Like v v') {declared : Option (String × Variable)}
    (run : assign scope macros name left v d = .ok declared d₁)
    (stays : ∀ w, scope.find? name = some w → scope'.find? name = some w)
    (target : ∀ other w, declared = some (other, w) → scope'.find? other = some w) :
    r.Assigns (assign scope' macros name left v') d' d₁ := by
  rcases assign_eq_ok_iff.1 run with ⟨whole, run⟩ | ⟨places, -, run⟩
  · rw [assign, if_pos whole]
    exact assigns_whole alike like run stays target
  · rw [assign, if_neg places]
    exact assigns_places inherits bound h alike like run stays

/-- **A statement compiled twice.**  If the second compilation succeeds, then its program is the
first under other names for new cells; it does succeed if the sequences that the statement reads
hold what they held. -/
theorem renamed_of_compile (inherits : r.Inherits)
    (bound : ∀ name v, scope.find? name = some v → r.old.Has v.cell)
    {tokens : List Token} (h : r.LikeScope scope scope' (Reads macros tokens))
    (stays : ∀ name w, Targets tokens name → scope.find? name = some w →
      scope'.find? name = some w)
    {compiled : Compiled} (run : compile scope macros tokens { store := r.old } = .ok compiled d)
    (target : ∀ name w, compiled.declared = some (name, w) → scope'.find? name = some w) :
    (r.agree → ∃ compiled' d', compile scope' macros tokens { store := r.new } = .ok compiled' d') ∧
    ∀ ⦃compiled' d'⦄, compile scope' macros tokens { store := r.new } = .ok compiled' d' →
      compiled'.declared = none ∧ ∃ init op, compiled.program = init ++ [op] ∧
        r.Renamed init op compiled'.program d.store d'.store := by
  obtain ⟨left, right, name, v, d₁, declared, d₂, cut, nonempty, named, valued, assigned, rfl,
    rfl⟩ := compile_eq_ok_iff.1 run
  obtain ⟨success, result⟩ := (lockstep_value
    (h.mono fun other reads => ⟨left, right, cut, .inl reads⟩)).ok .start valued
  have assigns : ∀ {v' d₁'}, r.Like v v' → r.Alike d₁ d₁' →
      r.Assigns (assign scope' macros name left v') d₁' d₂ := fun like alike =>
    assigns_of_assign inherits bound
      (h.mono fun other reads => ⟨left, right, cut, .inr reads⟩) alike like assigned
      (fun w => stays name w ⟨left, right, cut, named⟩) target
  constructor
  · intro agree
    obtain ⟨v', d₁', valued'⟩ := success agree
    obtain ⟨like, alike⟩ := result valued'
    obtain ⟨declared', d₂', assigned'⟩ := (assigns like alike).1 agree
    exact ⟨_, _, compile_eq_ok_iff.2 ⟨left, right, name, v', d₁', declared', d₂', cut, nonempty,
      named, valued', assigned', rfl, rfl⟩⟩
  · intro compiled' d' run'
    obtain ⟨left', right', name', v', d₁', declared', d₂', cut', -, named', valued', assigned', rfl,
      rfl⟩ := compile_eq_ok_iff.1 run'
    rw [cut] at cut'
    cases cut'
    rw [named] at named'
    cases named'
    obtain ⟨like, alike⟩ := result valued'
    exact (assigns like alike).2 assigned'

end Recompilation

end MatrixCalc
